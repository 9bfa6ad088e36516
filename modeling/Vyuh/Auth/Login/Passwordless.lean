import Vyuh.Auth.Login.Challenge

/-! Passwordless logins (`auth/login/passwordless.rs`): a link or a code is handed to the handler that
    starts the login, and proves the address when it comes back. A durable store decides whether a proof
    is due; it sees digests only. The clock, random numbers, the resolver and the store are inputs. -/

namespace Vyuh.Auth

open Lib Json

def magicLinkTtl : ℤ := 15 * 60
def otpTtl : ℤ := 10 * 60
def otpAttempts : ℕ := 5
def resendDelay : ℤ := 60
def deliveryLimit : ℕ := 5
def deliveryWindow : ℤ := 60 * 60

def proofContext : String := "passwordless-proof-v1"
def principalContext : String := "passwordless-principal-v1"

/-! ### The store -/

/-- What a store keeps of a challenge. -/
structure PasswordlessChallenge where
  id : String
  principal : List UInt8
  proofs : List (List UInt8)
  state : String
  expiresAt : ℤ
  attempts : ℕ
  nextIssueAt : ℤ
  issueWindowEndsAt : ℤ
  issueLimit : ℕ
  deriving DecidableEq

/-- The store's answer to a challenge: a new one or an active one, and whether a proof is due. -/
structure PasswordlessStart where
  challengeId : String
  expiresAt : ℤ
  nextIssueAt : ℤ
  issue : Bool
  deriving DecidableEq, Repr

/-- `PasswordlessStore::begin`. -/
abbrev PasswordlessStore := PasswordlessChallenge → Except AuthError PasswordlessStart

/-! ### Addresses -/

/-- What is used of the mailbox parser and of the URL parser: the URL with a query pair added. -/
class AddressText where
  isMailbox : String → Bool
  appendPair : String → String → String → Option String

inductive PasswordlessAddress
  | email (value : String)
  | phone (value : String)
  deriving DecidableEq, Repr

def validateEmail [AddressText] (value : String) : Except AuthError Unit :=
  if AddressText.isMailbox value then .ok () else .error .invalidCredential

/-- E.164: a plus sign and two to fifteen digits, the first of them not zero. -/
def validatePhone (value : String) : Except AuthError Unit :=
  match value.toList with
  | [] => .error .invalidCredential
  | first :: rest =>
    if first ≠ '+' || !(2 ≤ byteSize rest && byteSize rest ≤ 15) || rest.head? = some '0' then
      .error .invalidCredential
    else if rest.all Char.isDigit then .ok ()
    else .error .invalidCredential
where
  byteSize (text : List Char) : ℕ := (text.map Char.utf8Size).sum

namespace PasswordlessAddress

def asStr : PasswordlessAddress → String
  | email value => value
  | phone value => value

def validate [AddressText] : PasswordlessAddress → Except AuthError Unit
  | email value => validateEmail value
  | phone value => validatePhone value

def channel : PasswordlessAddress → String
  | email _ => "email"
  | phone _ => "phone"

end PasswordlessAddress

/-! ### Challenges -/

inductive OtpPolicy
  | numeric (length : ℕ)
  | crockfordBase32 (length : ℕ)
  deriving DecidableEq, Repr

inductive ChallengeKind
  | magicLink (callbackUrl : String)
  | otp (channel : String) (policy : OtpPolicy)
  deriving DecidableEq, Repr

def ChallengeKind.channel : ChallengeKind → String
  | magicLink _ => "email"
  | otp channel _ => channel

/-- What starting a login draws: the clock, an identifier, a secret of 32 bytes, a code and a nonce. -/
structure PasswordlessReads where
  now : ℤ
  id : String
  randomSecret : Except AuthError String
  randomCode : OtpPolicy → Except AuthError String
  nonce : Option Nonce
  expiryNow : ℤ
  resendNow : ℤ

/-- The proof of a kind of challenge, as it is handed out, and the seconds it lasts. -/
structure Proof where
  value : String
  code : Option String
  link : Option String
  ttl : ℤ

structure PendingPasswordless where
  identifier : String
  subject : Option String
  method : String
  channel : String
  deriving DecidableEq, Repr

def PendingPasswordless.toValue (pending : PendingPasswordless) : Value ℤ :=
  .object [("identifier", .string pending.identifier), ("subject", pending.subject.elim .null .string),
    ("method", .string pending.method), ("channel", .string pending.channel)]

section

variable [AddressText]

def urlError : AuthError := .invalidProviderConfig "invalid magic-link callback URL"

def appendRawToken (callback token : String) : Except AuthError String :=
  (AddressText.appendPair callback "token" token).elim (.error urlError) .ok

def appendToken (callback id proof : String) : Except AuthError String :=
  appendRawToken callback (id ++ "." ++ proof)

def proofFor (reads : PasswordlessReads) : ChallengeKind → Except AuthError Proof
  | .magicLink callbackUrl => do
    let proof ← reads.randomSecret
    let link ← appendToken callbackUrl reads.id proof
    .ok ⟨proof, none, some link, magicLinkTtl⟩
  | .otp _ policy => do
    let code ← reads.randomCode policy
    .ok ⟨code, some code, none, otpTtl⟩

structure PreparedChallenge where
  id : String
  challenge : PasswordlessChallenge
  kind : ChallengeKind
  code : Option String
  link : Option String

variable {κ : Type} [Crypto κ]

def principalDigest (κ : Type) [Crypto κ] (secrets : SecretRing) (method identifier : String) : List UInt8 :=
  Crypto.sign (secrets.derivedActive principalContext : κ)
    (utf8 (method.toList ++ Char.ofNat 0 :: identifier.toList))

/-- The digests of a proof under every key of the ring. -/
def proofDigests (κ : Type) [Crypto κ] (secrets : SecretRing) (id value : String) : List (List UInt8) :=
  (secrets.derivedVerification proofContext : List κ).map fun key =>
    Crypto.sign key (utf8 (id.toList ++ Char.ofNat 0 :: value.toList))

def passwordlessState (method : LoginMethodId) (target : LoginTarget) (identifier : String)
    (subject : Option String) (kind : ChallengeKind) (reads : PasswordlessReads) (ttl : ℤ) :
    SealedLoginState where
  version := 3
  stateId := reads.id
  method := method.asStr
  target := target
  expiresAt := reads.now + ttl
  payload := PendingPasswordless.toValue ⟨identifier, subject, method.asStr, kind.channel⟩

def PreparedChallenge.new (method : LoginMethodId) (target : LoginTarget) (identifier : String)
    (user : Option AuthUser) (kind : ChallengeKind) (codec : ChallengeCodec κ) (secrets : SecretRing)
    (reads : PasswordlessReads) : Except AuthError PreparedChallenge := do
  let proof ← proofFor reads kind
  let state := passwordlessState method target identifier (user.map AuthUser.subject) kind reads proof.ttl
  let sealedState ← codec.sealState reads.nonce state
  let challenge : PasswordlessChallenge :=
    { id := reads.id, principal := principalDigest κ secrets method.asStr identifier,
      proofs := proofDigests κ secrets reads.id proof.value, state := sealedState,
      expiresAt := reads.now + proof.ttl, attempts := otpAttempts,
      nextIssueAt := reads.now + resendDelay, issueWindowEndsAt := reads.now + deliveryWindow,
      issueLimit := deliveryLimit }
  .ok ⟨reads.id, challenge, kind, proof.code, proof.link⟩

/-- Rejects a store result that would send proof material for a different challenge. -/
def validateStart (prepared : PreparedChallenge) (start : PasswordlessStart) : Except AuthError Unit :=
  if start.issue && start.challengeId ≠ prepared.id then
    .error (.internal "passwordless store returned a mismatched proof challenge")
  else .ok ()

def PreparedChallenge.challengeResponse (prepared : PreparedChallenge) (start : PasswordlessStart)
    (exposeCode : Bool) (reads : PasswordlessReads) : LoginChallenge :=
  let expires := saturate64 (start.expiresAt - reads.expiryNow)
  let resend := saturate64 (start.nextIssueAt - reads.resendNow)
  match prepared.kind with
  -- the link is handed out whatever the store said
  | .magicLink _ => .magicLink prepared.link expires
  | .otp channel _ =>
    let delivery :=
      if start.issue && exposeCode then prepared.code.map fun code => ⟨code, expires⟩ else none
    .code start.challengeId channel expires resend delivery

/-- The end of both `begin_inner`: the store is asked and its answer makes the response. -/
def startChallenge (store : PasswordlessStore) (prepared : PreparedChallenge) (exposeCode : Bool)
    (reads : PasswordlessReads) : Except AuthError LoginChallenge := do
  let start ← store prepared.challenge
  validateStart prepared start
  .ok (prepared.challengeResponse start exposeCode reads)

/-! ### Methods -/

structure MagicLinkLogin where
  resolver : String → Except AuthError (Option AuthUser)
  callbackUrl : Option String
  stateful : Bool

structure OtpLogin where
  resolver : PasswordlessAddress → Except AuthError (Option AuthUser)
  policy : OtpPolicy

def requireStore (store : Option PasswordlessStore) : Except AuthError PasswordlessStore :=
  store.elim (.error (.invalidProviderConfig "passwordless login requires AuthConf::passwordless_store")) .ok

/-- The method, the target, the codec and the secrets a login starts with. -/
structure LoginContext (κ : Type) where
  method : LoginMethodId
  target : LoginTarget
  codec : ChallengeCodec κ
  secrets : SecretRing

namespace MagicLinkLogin

def kind (conf : MagicLinkLogin) : Except AuthError ChallengeKind :=
  conf.callbackUrl.elim (.error (.invalidProviderConfig "magic-link login requires callback_url"))
    fun value => .ok (.magicLink value)

/-- A link that carries the whole sealed state. -/
def statelessLink (conf : MagicLinkLogin) (context : LoginContext κ) (email : String) (user : AuthUser)
    (reads : PasswordlessReads) : Except AuthError String := do
  let callback ← conf.callbackUrl.elim (.error .invalidLoginState) .ok
  let state := passwordlessState context.method context.target email (some user.subject)
    (.magicLink callback) reads magicLinkTtl
  let token ← context.codec.sealState reads.nonce state
  appendRawToken callback token

/-- The account of an address. -/
def lookup (conf : MagicLinkLogin) (email : String) : Except AuthError (Option AuthUser) := do
  validateEmail email
  conf.resolver email

/-- The challenge a stateful method prepares. -/
def prepare (conf : MagicLinkLogin) (context : LoginContext κ) (email : String) (user : Option AuthUser)
    (reads : PasswordlessReads) : Except AuthError PreparedChallenge := do
  let kind ← conf.kind
  PreparedChallenge.new context.method context.target email user kind context.codec context.secrets reads

/-- `begin_inner`; the input is a boxed email address. -/
def beginLogin (conf : MagicLinkLogin) (context : LoginContext κ) (email : String)
    (store : Option PasswordlessStore) (reads : PasswordlessReads) : Except AuthError LoginChallenge := do
  let user ← conf.lookup email
  if !conf.stateful then
    let url ← user.mapM fun user => conf.statelessLink context email user reads
    .ok (.magicLink url magicLinkTtl)
  else
    let store ← requireStore store
    let prepared ← conf.prepare context email user reads
    startChallenge store prepared false reads

end MagicLinkLogin

namespace OtpLogin

def prepare (conf : OtpLogin) (context : LoginContext κ) (address : PasswordlessAddress)
    (user : Option AuthUser) (reads : PasswordlessReads) : Except AuthError PreparedChallenge :=
  PreparedChallenge.new context.method context.target address.asStr user
    (.otp address.channel conf.policy) context.codec context.secrets reads

/-- `begin_inner`; the input is a boxed address. -/
def beginLogin (conf : OtpLogin) (context : LoginContext κ) (address : PasswordlessAddress)
    (store : Option PasswordlessStore) (reads : PasswordlessReads) : Except AuthError LoginChallenge := do
  address.validate
  let store ← requireStore store
  let user ← conf.resolver address
  let prepared ← conf.prepare context address user reads
  startChallenge store prepared user.isSome reads

end OtpLogin

/-! ### Proofs that are due -/

/-- One of the methods with its input. -/
inductive PasswordlessLogin
  | magicLink (conf : MagicLinkLogin) (email : String)
  | otp (conf : OtpLogin) (address : PasswordlessAddress)

namespace PasswordlessLogin

def requiresPasswordlessStore : PasswordlessLogin → Bool
  | magicLink conf _ => conf.stateful
  | otp _ _ => true

def isCode : PasswordlessLogin → Bool
  | magicLink _ _ => false
  | otp _ _ => true

def beginLogin (context : LoginContext κ) (store : Option PasswordlessStore) (reads : PasswordlessReads) :
    PasswordlessLogin → Except AuthError LoginChallenge
  | magicLink conf email => conf.beginLogin context email store reads
  | otp conf address => conf.beginLogin context address store reads

/-- The challenge that goes to the store, and whether its code may be exposed. -/
def request (context : LoginContext κ) (reads : PasswordlessReads) :
    PasswordlessLogin → Except AuthError (PreparedChallenge × Bool)
  | magicLink conf email => do
    let user ← conf.lookup email
    let prepared ← conf.prepare context email user reads
    .ok (prepared, false)
  | otp conf address => do
    address.validate
    let user ← conf.resolver address
    let prepared ← conf.prepare context address user reads
    .ok (prepared, user.isSome)

/-- The material of a challenge: a proof whose digests the store has under the challenge's identifier. -/
def ProofOf (context : LoginContext κ) (prepared : PreparedChallenge) (material : String) : Prop :=
  ∃ proof, prepared.challenge.proofs = proofDigests κ context.secrets prepared.challenge.id proof ∧
    match prepared.kind with
    | .magicLink callbackUrl => appendToken callbackUrl prepared.challenge.id proof = .ok material
    | .otp _ _ => material = proof

/-- The store was asked and said that a proof is due, and the material is that of the challenge the store
    recorded. -/
def Due (login : PasswordlessLogin) (context : LoginContext κ) (store : PasswordlessStore)
    (reads : PasswordlessReads) (material : String) : Prop :=
  ∃ prepared expose start, login.request context reads = .ok (prepared, expose) ∧
    store prepared.challenge = .ok start ∧ start.issue = true ∧
    start.challengeId = prepared.challenge.id ∧ ProofOf context prepared material

variable {context : LoginContext κ} {reads : PasswordlessReads} {store : PasswordlessStore}
  {login : PasswordlessLogin} {prepared : PreparedChallenge} {start : PasswordlessStart}
  {challenge : LoginChallenge} {expose : Bool} {material : String}

/-- What is handed out of a prepared challenge is its proof; a link is always there. -/
structure Sound (context : LoginContext κ) (prepared : PreparedChallenge) : Prop where
  id : prepared.challenge.id = prepared.id
  link : ∀ callbackUrl, prepared.kind = .magicLink callbackUrl →
    ∃ link, prepared.link = some link ∧ ProofOf context prepared link
  code : ∀ channel policy code, prepared.kind = .otp channel policy → prepared.code = some code →
    ProofOf context prepared code

theorem sound_of_new {identifier : String} {user : Option AuthUser} {kind : ChallengeKind}
    (h : PreparedChallenge.new context.method context.target identifier user kind context.codec
      context.secrets reads = .ok prepared) : Sound context prepared ∧ prepared.kind = kind := by
  obtain ⟨proof, hproof, h⟩ := Step.except_bind_ok.mp h
  obtain ⟨sealedState, -, h⟩ := Step.except_bind_ok.mp h
  cases h
  refine ⟨⟨rfl, ?_, ?_⟩, rfl⟩
  · rintro callbackUrl rfl
    obtain ⟨value, -, hproof⟩ := Step.except_bind_ok.mp hproof
    obtain ⟨link, hlink, hproof⟩ := Step.except_bind_ok.mp hproof
    cases hproof
    exact ⟨link, rfl, value, rfl, hlink⟩
  · rintro channel policy code rfl hcode
    obtain ⟨value, -, hproof⟩ := Step.except_bind_ok.mp hproof
    cases hproof
    cases hcode
    exact ⟨_, rfl, rfl⟩

/-- The kind of a prepared challenge is that of its method. -/
theorem sound_of_request (h : login.request context reads = .ok (prepared, expose)) :
    Sound context prepared ∧
      (login.isCode = false → ∃ callbackUrl, prepared.kind = .magicLink callbackUrl) ∧
      (login.isCode = true → ∃ channel policy, prepared.kind = .otp channel policy) := by
  cases login with
  | magicLink conf email =>
    obtain ⟨user, -, h⟩ := Step.except_bind_ok.mp h
    obtain ⟨_, hprepare, h⟩ := Step.except_bind_ok.mp h
    cases h
    obtain ⟨kind, hkind, hprepare⟩ := Step.except_bind_ok.mp hprepare
    obtain ⟨hsound, rfl⟩ := sound_of_new hprepare
    refine ⟨hsound, fun _ => ?_, fun h => nomatch h⟩
    rw [MagicLinkLogin.kind] at hkind
    cases hurl : conf.callbackUrl with
    | none =>
      rw [hurl] at hkind
      exact nomatch hkind
    | some value =>
      rw [hurl] at hkind
      exact ⟨value, (Except.ok.inj hkind).symm⟩
  | otp conf address =>
    obtain ⟨_, -, h⟩ := Step.except_bind_ok.mp h
    obtain ⟨user, -, h⟩ := Step.except_bind_ok.mp h
    obtain ⟨_, hprepare, h⟩ := Step.except_bind_ok.mp h
    cases h
    obtain ⟨hsound, hkind⟩ := sound_of_new hprepare
    exact ⟨hsound, fun h => (nomatch h), fun _ => ⟨_, _, hkind⟩⟩

/-- A method with a store prepares a challenge, asks the store and answers. -/
theorem beginLogin_eq (hstore : login.requiresPasswordlessStore = true) :
    login.beginLogin context (some store) reads = (do
      let (prepared, expose) ← login.request context reads
      startChallenge store prepared expose reads) := by
  cases login with
  | magicLink conf email =>
    have hstateful : conf.stateful = true := hstore
    simp only [beginLogin, request, MagicLinkLogin.beginLogin, hstateful, bind, Except.bind]
    cases conf.lookup email with
    | error error => rfl
    | ok user =>
      dsimp only [requireStore, Option.elim_some]
      cases conf.prepare context email user reads <;> rfl
  | otp conf address =>
    simp only [beginLogin, request, OtpLogin.beginLogin, bind, Except.bind]
    cases address.validate with
    | error error => rfl
    | ok _ =>
      dsimp only [requireStore, Option.elim_some]
      cases conf.resolver address with
      | error error => rfl
      | ok user =>
        dsimp only
        cases conf.prepare context address user reads <;> rfl

/-- A response comes of an answer of the store that names the prepared challenge if a proof is due. -/
theorem beginLogin_ok (hstore : login.requiresPasswordlessStore = true) :
    login.beginLogin context (some store) reads = .ok challenge ↔
      ∃ prepared expose start, login.request context reads = .ok (prepared, expose) ∧
        store prepared.challenge = .ok start ∧
        (start.issue = true → start.challengeId = prepared.id) ∧
        challenge = prepared.challengeResponse start expose reads := by
  have hvalidate : ∀ (prepared : PreparedChallenge) (start : PasswordlessStart),
      validateStart prepared start = .ok () ↔ (start.issue = true → start.challengeId = prepared.id) := by
    intro prepared start
    rw [validateStart]
    by_cases hmismatch : (start.issue && start.challengeId ≠ prepared.id) = true
    · rw [if_pos hmismatch]
      simp only [Bool.and_eq_true, decide_eq_true_eq] at hmismatch
      exact ⟨fun h => (nomatch h), fun h => absurd (h hmismatch.1) hmismatch.2⟩
    · rw [if_neg hmismatch]
      simp only [Bool.and_eq_true, decide_eq_true_eq, not_and, not_not] at hmismatch
      exact ⟨fun _ => hmismatch, fun _ => rfl⟩
  rw [beginLogin_eq hstore]
  constructor
  · intro h
    obtain ⟨⟨prepared, expose⟩, hrequest, h⟩ := Step.except_bind_ok.mp h
    obtain ⟨start, hstart, h⟩ := Step.except_bind_ok.mp h
    obtain ⟨_, hvalid, h⟩ := Step.except_bind_ok.mp h
    cases h
    exact ⟨prepared, expose, start, hrequest, hstart, (hvalidate prepared start).mp hvalid, rfl⟩
  · rintro ⟨prepared, expose, start, hrequest, hstart, hvalid, rfl⟩
    exact Step.except_bind_ok.mpr ⟨_, hrequest, Step.except_bind_ok.mpr ⟨start, hstart,
      Step.except_bind_ok.mpr ⟨(), (hvalidate prepared start).mpr hvalid, rfl⟩⟩⟩

omit [AddressText] in
/-- A code is exposed only when it is due; the link of a magic link always is. -/
theorem material_challengeResponse :
    (∀ callbackUrl, prepared.kind = .magicLink callbackUrl →
      (prepared.challengeResponse start expose reads).material = prepared.link) ∧
    ∀ channel policy, prepared.kind = .otp channel policy →
      (prepared.challengeResponse start expose reads).material =
        if start.issue && expose then prepared.code else none := by
  constructor
  · intro callbackUrl hkind
    simp only [PreparedChallenge.challengeResponse, hkind, LoginChallenge.material]
  · intro channel policy hkind
    simp only [PreparedChallenge.challengeResponse, hkind, LoginChallenge.material]
    split
    · cases prepared.code <;> rfl
    · rfl

/-- A method with a store hands out nothing but due proofs exactly when it sends codes or the store's
    answer says that a proof is due: a link is handed out whatever the answer says. -/
theorem material_is_due_iff (hstore : login.requiresPasswordlessStore = true) :
    (∀ challenge material, login.beginLogin context (some store) reads = .ok challenge →
      challenge.material = some material → login.Due context store reads material) ↔
    login.isCode = true ∨ ∀ prepared expose start, login.request context reads = .ok (prepared, expose) →
      store prepared.challenge = .ok start → start.issue = true := by
  constructor
  · intro h
    by_cases hcode : login.isCode = true
    · exact .inl hcode
    refine .inr fun prepared expose start hrequest hstart => ?_
    by_contra hthrottled
    -- the throttled answer still gives a response, and the link is in it
    obtain ⟨hsound, hlink, -⟩ := sound_of_request hrequest
    obtain ⟨callbackUrl, hkind⟩ := hlink (Bool.eq_false_iff.mpr hcode)
    obtain ⟨link, hsome, -⟩ := hsound.link callbackUrl hkind
    have hbegin := (beginLogin_ok hstore).mpr
      ⟨prepared, expose, start, hrequest, hstart, fun hdue => absurd hdue hthrottled, rfl⟩
    obtain ⟨prepared', expose', start', hrequest', hstart', hdue, -⟩ := h _ link hbegin
      ((material_challengeResponse.1 callbackUrl hkind).trans hsome)
    rw [hrequest] at hrequest'
    cases hrequest'
    rw [hstart] at hstart'
    cases hstart'
    exact hthrottled hdue
  · intro h challenge material hbegin hmaterial
    obtain ⟨prepared, expose, start, hrequest, hstart, hvalid, rfl⟩ := (beginLogin_ok hstore).mp hbegin
    obtain ⟨hsound, hlink, hotp⟩ := sound_of_request hrequest
    by_cases hcode : login.isCode = true
    · obtain ⟨channel, policy, hkind⟩ := hotp hcode
      rw [material_challengeResponse.2 channel policy hkind] at hmaterial
      split at hmaterial
      next hdue =>
        have hissue := (Bool.and_eq_true_iff.mp hdue).1
        exact ⟨prepared, expose, start, hrequest, hstart, hissue, (hvalid hissue).trans hsound.id.symm,
          hsound.code channel policy material hkind hmaterial⟩
      · exact nomatch hmaterial
    · obtain ⟨callbackUrl, hkind⟩ := hlink (Bool.eq_false_iff.mpr hcode)
      rw [material_challengeResponse.1 callbackUrl hkind] at hmaterial
      obtain ⟨link, hsome, hproof⟩ := hsound.link callbackUrl hkind
      rw [hsome] at hmaterial
      cases hmaterial
      have hissue := (h.resolve_left hcode) prepared expose start hrequest hstart
      exact ⟨prepared, expose, start, hrequest, hstart, hissue, (hvalid hissue).trans hsound.id.symm, hproof⟩

end PasswordlessLogin

end

/-! ### A store that suppresses a proof -/

namespace PasswordlessLogin

/-- Addresses have an at sign, and pairs are not escaped. -/
@[reducible]
def plainAddresses : AddressText where
  isMailbox value := value.toList.contains '@'
  appendPair callback name value := some (callback ++ "?" ++ name ++ "=" ++ value)

def linkLogin : PasswordlessLogin :=
  .magicLink ⟨fun _ => .ok none, some "https://app.example.com/callback", true⟩ "user@example.com"

def linkReads : PasswordlessReads where
  now := 0
  id := "4f0c"
  randomSecret := .ok "secret"
  randomCode _ := .ok "000000"
  nonce := some ⟨List.replicate 12 0, zeros_length⟩
  expiryNow := 0
  resendNow := 0

/-- A store that answers with one active challenge. -/
def activeStore (issue : Bool) : PasswordlessStore := fun challenge =>
  .ok ⟨if issue then challenge.id else "17aa", 900, 60, issue⟩

attribute [local instance] byteCrypto plainAddresses

theorem validProviderId_link : validProviderId "link" = true := by decide

def linkContext : LoginContext UInt8 where
  method := ⟨"link", validProviderId_link⟩
  target := ⟨⟨"main", validProviderId_main⟩, [apiAudience]⟩
  codec := ChallengeCodec.new ⟨"active", []⟩
  secrets := ⟨"active", []⟩

theorem request_linkLogin : ∃ prepared, linkLogin.request linkContext linkReads = .ok (prepared, false) := by
  have hsealed : ∃ token, linkContext.codec.sealState linkReads.nonce (passwordlessState linkContext.method
      linkContext.target "user@example.com" none (.magicLink "https://app.example.com/callback") linkReads
      magicLinkTtl) = .ok token :=
    ⟨_, ChallengeCodec.sealState_eq_ok.mpr ⟨by rw [Value.length_toVec]; decide, _, _, rfl, rfl, rfl⟩⟩
  obtain ⟨token, hsealed⟩ := hsealed
  exact ⟨_, Step.except_bind_ok.mpr ⟨none, rfl, Step.except_bind_ok.mpr ⟨_, Step.except_bind_ok.mpr
    ⟨_, rfl, Step.except_bind_ok.mpr ⟨_, rfl, Step.except_bind_ok.mpr ⟨token, hsealed, rfl⟩⟩⟩, rfl⟩⟩⟩

/-- The store has an active challenge and suppresses the proof; the link of a challenge it does not have is
    handed out. -/
theorem suppressed_link_is_handed_out : ∃ challenge link,
    linkLogin.beginLogin linkContext (some (activeStore false)) linkReads = .ok challenge ∧
      challenge.material = some link ∧ ¬ linkLogin.Due linkContext (activeStore false) linkReads link := by
  obtain ⟨prepared, hrequest⟩ := request_linkLogin
  obtain ⟨hsound, hlink, -⟩ := sound_of_request hrequest
  obtain ⟨callbackUrl, hkind⟩ := hlink rfl
  obtain ⟨link, hsome, -⟩ := hsound.link callbackUrl hkind
  refine ⟨_, link, (beginLogin_ok rfl).mpr ⟨prepared, false, _, hrequest, rfl, fun h => (nomatch h), rfl⟩,
    (material_challengeResponse.1 callbackUrl hkind).trans hsome, ?_⟩
  rintro ⟨_, _, start, -, hstart, hissue, -⟩
  cases hstart
  exact nomatch hissue

theorem issued_link_is_due : ∃ challenge link,
    linkLogin.beginLogin linkContext (some (activeStore true)) linkReads = .ok challenge ∧
      challenge.material = some link ∧ linkLogin.Due linkContext (activeStore true) linkReads link := by
  obtain ⟨prepared, hrequest⟩ := request_linkLogin
  obtain ⟨hsound, hlink, -⟩ := sound_of_request hrequest
  obtain ⟨callbackUrl, hkind⟩ := hlink rfl
  obtain ⟨link, hsome, -⟩ := hsound.link callbackUrl hkind
  have hstart : activeStore true prepared.challenge = .ok ⟨prepared.challenge.id, 900, 60, true⟩ := rfl
  have hbegin := (beginLogin_ok rfl).mpr
    ⟨prepared, false, _, hrequest, hstart, fun _ => hsound.id, rfl⟩
  have hmaterial : (prepared.challengeResponse ⟨prepared.challenge.id, 900, 60, true⟩ false
      linkReads).material = some link := (material_challengeResponse.1 callbackUrl hkind).trans hsome
  refine ⟨_, link, hbegin, hmaterial, (material_is_due_iff rfl).mpr (.inr ?_) _ link hbegin hmaterial⟩
  intro prepared expose start _ hstart
  cases hstart
  rfl

end PasswordlessLogin

end Vyuh.Auth
