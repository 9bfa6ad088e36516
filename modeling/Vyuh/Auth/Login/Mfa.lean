import Vyuh.Auth.Login.Challenge

/-! A password login with a second factor (`auth/login/mfa.rs`). The first request proves the password and
    gets a sealed challenge; the second presents the challenge with the answer of a factor. The clock, the
    random numbers, the verifiers and the state store are inputs. -/

namespace Vyuh.Auth

open Lib Json

inductive MfaMethod
  | totp
  | recoveryCode
  deriving DecidableEq, Repr

def MfaMethod.asStr : MfaMethod → String
  | totp => "totp"
  | recoveryCode => "recovery_code"

def MfaMethod.ofStr (text : String) : Option MfaMethod :=
  if text = "totp" then some .totp else if text = "recovery_code" then some .recoveryCode else none

@[simp] theorem MfaMethod.ofStr_asStr (method : MfaMethod) : MfaMethod.ofStr method.asStr = some method := by
  cases method <;> rfl

structure MfaResponse where
  challengeToken : String
  method : MfaMethod
  answer : PresentedSecret
  deriving DecidableEq, Repr

def MfaResponse.validate (response : MfaResponse) : Except AuthError Unit :=
  if response.challengeToken.isEmpty || response.challengeToken.utf8ByteSize > 16 * 1024 then
    .error .invalidLoginState
  else response.answer.validate

/-! ### Input -/

structure PasswordCredentials where
  username : String
  password : PresentedSecret
  deriving DecidableEq, Repr

def PasswordCredentials.validate (credentials : PasswordCredentials) : Except AuthError Unit :=
  if blank credentials.username || credentials.username.utf8ByteSize > 512 then .error .invalidCredential
  else credentials.password.validate

inductive PrimaryInput
  | password
  | basic
  deriving DecidableEq, Repr

def PrimaryInput.method : PrimaryInput → String
  | password => "password"
  | basic => "basic"

/-- The boxed input of a login: password credentials, Basic credentials or something else. -/
inductive LoginInput
  | password (credentials : PasswordCredentials)
  | basic (credentials : PasswordCredentials)
  | other
  deriving DecidableEq, Repr

def downcastPrimary : LoginInput → PrimaryInput → Except AuthError PasswordCredentials
  | .password credentials, .password => .ok credentials
  | .basic credentials, .basic => .ok credentials
  | _, _ => .error .invalidCredential

/-! ### Pending logins -/

structure PendingMfa where
  subject : String
  scopes : List Scope
  methods : List MfaMethod
  authTime : ℤ
  deriving DecidableEq, Repr

def PendingMfa.toValue (pending : PendingMfa) : Value ℤ :=
  .object [("subject", .string pending.subject), ("scopes", .array (pending.scopes.map .string)),
    ("methods", .array (pending.methods.map fun method => .string method.asStr)),
    ("auth_time", .number pending.authTime)]

def asString : Value ℤ → Option String
  | .string s => some s
  | _ => none

def asNumber : Value ℤ → Option ℤ
  | .number n => some n
  | _ => none

theorem mapM_map_some {α β : Type} {f : β → Option α} {g : α → β} (h : ∀ a, f (g a) = some a) :
    ∀ as : List α, (as.map g).mapM f = some as
  | [] => rfl
  | a :: as => by
    rw [List.map_cons, List.mapM_cons, h, mapM_map_some h as]
    rfl

def readScopes : Value ℤ → Option (List Scope)
  | .array items => items.mapM asString
  | _ => none

def readMethods : Value ℤ → Option (List MfaMethod)
  | .array items => items.mapM fun item => (asString item).bind MfaMethod.ofStr
  | _ => none

@[simp] theorem readScopes_array (scopes : List Scope) :
    readScopes (.array (scopes.map .string)) = some scopes :=
  mapM_map_some (f := asString) (g := Value.string) (fun _ => rfl) scopes

@[simp] theorem readMethods_array (methods : List MfaMethod) :
    readMethods (.array (methods.map fun method => .string method.asStr)) = some methods :=
  mapM_map_some (f := fun item => (asString item).bind MfaMethod.ofStr)
    (g := fun method => Value.string method.asStr) MfaMethod.ofStr_asStr methods

/-- `serde_json::from_value` of a pending login. -/
def PendingMfa.fromValue (value : Value ℤ) : Option PendingMfa := do
  let subject ← (value.child (.member "subject")).bind asString
  let scopes ← (value.child (.member "scopes")).bind readScopes
  let methods ← (value.child (.member "methods")).bind readMethods
  let authTime ← (value.child (.member "auth_time")).bind asNumber
  some ⟨subject, scopes, methods, authTime⟩

@[simp] theorem PendingMfa.fromValue_toValue (pending : PendingMfa) :
    PendingMfa.fromValue pending.toValue = some pending := by
  simp only [fromValue, toValue, Value.child, lookup_cons, if_true, if_false,
    Option.bind_some, readScopes_array, readMethods_array, asString, asNumber, Option.bind_eq_bind,
    String.reduceEq]

/-! ### The flow -/

structure MfaVerifier where
  methods : AuthUser → Except AuthError (List MfaMethod)
  verify : AuthUser → MfaResponse → Except AuthError AuthUser

structure MfaLogin where
  verifier : MfaVerifier
  allowed : List MfaMethod
  ttlSeconds : ℤ

structure PasswordMfaRuntime where
  primary : String → PresentedSecret → Except AuthError AuthUser
  input : PrimaryInput
  factors : MfaLogin

/-- What the first request reads: the clock, twice, and random numbers. -/
structure MfaReads where
  authTime : ℤ
  now : ℤ
  stateId : String
  nonce : Option Nonce

/-- `LoginStateStore::consume`: whether a continuation is consumed for the first time. -/
abbrev LoginStateStore := String → ℤ → Except AuthError Bool

structure VerifiedLogin where
  user : AuthUser
  methods : List String
  authTime : Option ℤ
  acr : Option String
  deriving DecidableEq

structure CompletedLogin where
  login : VerifiedLogin
  target : LoginTarget
  deriving DecidableEq

def validateMfaConf (factors : MfaLogin) : Except AuthError Unit :=
  if factors.allowed.isEmpty || !(1 ≤ factors.ttlSeconds && factors.ttlSeconds ≤ 900) then
    .error (.invalidProviderConfig "MFA requires factors and a TTL between 1 and 900 seconds")
  else .ok ()

def validateState (state : SealedLoginState) (method : LoginMethodId) (now : ℤ) : Except AuthError Unit :=
  if state.version ≠ 2 || state.method ≠ method.asStr then .error .invalidLoginState
  else if state.expiresAt ≤ now then .error .expiredLoginState
  else .ok ()

/-- `scopes::normalize`: sorted, each once. -/
def normalizeScopes (scopes : List Scope) : List Scope :=
  (scopes.mergeSort fun left right => decide (left ≤ right)).destutter (· ≠ ·)

/-- `AuthUser::new(subject).with_scopes(scopes)`. -/
def AuthUser.withScopes (subject : String) (scopes : List Scope) : AuthUser where
  subject := subject
  scopes := normalizeScopes scopes
  authentication := { authTime := none, methods := [], acr := none }

/-- `LoginStateStoreRuntime::consume`. -/
def consumeState (store : LoginStateStore) (state : SealedLoginState) : Except AuthError Unit := do
  if ← store state.stateId state.expiresAt then .ok () else .error .invalidLoginState

namespace PasswordMfaRuntime

def availableMethods (runtime : PasswordMfaRuntime) (user : AuthUser) :
    Except AuthError (List MfaMethod) := do
  let available ← runtime.factors.verifier.methods user
  let methods := available.filter fun value => decide (value ∈ runtime.factors.allowed)
  if methods.isEmpty then .error .invalidCredential else .ok methods

/-- The state of a login whose password was accepted. -/
def pendingState (runtime : PasswordMfaRuntime) (method : LoginMethodId) (target : LoginTarget)
    (user : AuthUser) (methods : List MfaMethod) (reads : MfaReads) : SealedLoginState where
  version := 2
  stateId := reads.stateId
  method := method.asStr
  target := target
  expiresAt := reads.now + runtime.factors.ttlSeconds
  payload := PendingMfa.toValue ⟨user.subject, user.scopes, methods, reads.authTime⟩

/-- The first part of `begin_inner`: the proof of the password and the state that follows from it. -/
def prepare (runtime : PasswordMfaRuntime) (method : LoginMethodId) (input : LoginInput)
    (target : LoginTarget) (reads : MfaReads) : Except AuthError (SealedLoginState × List MfaMethod) := do
  validateMfaConf runtime.factors
  let input ← downcastPrimary input runtime.input
  input.validate
  let user ← runtime.primary input.username input.password
  user.validate
  let methods ← runtime.availableMethods user
  .ok (runtime.pendingState method target user methods reads, methods)

variable {κ : Type} [Crypto κ]

/-- `begin_inner`. -/
def beginLogin (runtime : PasswordMfaRuntime) (codec : ChallengeCodec κ) (method : LoginMethodId)
    (input : LoginInput) (target : LoginTarget) (reads : MfaReads) : Except AuthError LoginChallenge := do
  let (state, methods) ← runtime.prepare method input target reads
  let token ← codec.sealState reads.nonce state
  .ok (.factor token (methods.map MfaMethod.asStr) runtime.factors.ttlSeconds)

/-- `complete_inner`. -/
def completeLogin [StateText] (runtime : PasswordMfaRuntime) (codec : ChallengeCodec κ)
    (method : LoginMethodId) (response : MfaResponse) (store : Option LoginStateStore) (now : ℤ) :
    Except AuthError CompletedLogin := do
  response.validate
  let state ← codec.openToken response.challengeToken
  validateState state method now
  let pending ← (PendingMfa.fromValue state.payload).elim (.error .invalidLoginState) .ok
  if response.method ∉ pending.methods then .error .invalidCredential
  else
    let user ← runtime.factors.verifier.verify (AuthUser.withScopes pending.subject pending.scopes) response
    let store ← store.elim (.error .invalidLoginState) .ok
    consumeState store state
    let login : VerifiedLogin :=
      { user, methods := [runtime.input.method, response.method.asStr], authTime := some pending.authTime,
        acr := some "urn:vyuh:acr:mfa" }
    .ok { login, target := state.target }

end PasswordMfaRuntime

/-! ### Answers -/

namespace PasswordMfaRuntime

variable {κ : Type} [Crypto κ] {runtime : PasswordMfaRuntime} {method : LoginMethodId}
  {input : LoginInput} {target : LoginTarget} {reads : MfaReads} {state : SealedLoginState}
  {methods : List MfaMethod} {codec : ChallengeCodec κ} {token : String}

/-- A prepared state is that of an accepted user, and some of the allowed methods. -/
theorem prepare_eq_ok (h : runtime.prepare method input target reads = .ok (state, methods)) :
    ∃ user, user.validate = .ok () ∧ state = runtime.pendingState method target user methods reads := by
  simp only [prepare, Step.except_bind_ok] at h
  obtain ⟨_, -, _, -, _, -, user, -, _, hvalid, methods, -, hpair⟩ := h
  cases hpair
  exact ⟨user, hvalid, rfl⟩

/-- The challenge can be answered: any answer of a factor may present the token, and until it expires the
    token gives the state back. -/
structure Answerable [StateText] (codec : ChallengeCodec κ) (method : LoginMethodId)
    (state : SealedLoginState) (token : String) : Prop where
  presents : ∀ factor answer, PresentedSecret.validate answer = .ok () →
    MfaResponse.validate ⟨token, factor, answer⟩ = .ok ()
  reopens : ∀ now < state.expiresAt, codec.openToken token = .ok state ∧
    validateState state method now = .ok ()

/-- A token may be presented up to 16 KiB, whatever the answer. -/
theorem presents_iff : (∀ factor answer, PresentedSecret.validate answer = .ok () →
    MfaResponse.validate ⟨token, factor, answer⟩ = .ok ()) ↔
    token.isEmpty = false ∧ token.utf8ByteSize ≤ 16384 := by
  constructor
  · intro h
    have hone := h .totp "0" rfl
    rw [MfaResponse.validate] at hone
    split at hone
    · exact nomatch hone
    next hbounds =>
      simp only [Bool.or_eq_true, decide_eq_true_eq, not_or] at hbounds
      exact ⟨Bool.eq_false_iff.mpr hbounds.1, by omega⟩
  · rintro ⟨hnonempty, hsize⟩ factor answer hanswer
    rw [MfaResponse.validate, if_neg (by simp [hnonempty]; omega)]
    exact hanswer

theorem beginLogin_eq_ok {challenge : LoginChallenge}
    (hprepare : runtime.prepare method input target reads = .ok (state, methods)) :
    runtime.beginLogin codec method input target reads = .ok challenge ↔
      ∃ token, codec.sealState reads.nonce state = .ok token ∧
        challenge = .factor token (methods.map MfaMethod.asStr) runtime.factors.ttlSeconds := by
  rw [beginLogin, hprepare]
  constructor
  · intro h
    obtain ⟨_, hpair, h⟩ := Step.except_bind_ok.mp h
    cases hpair
    obtain ⟨token, htoken, h⟩ := Step.except_bind_ok.mp h
    cases h
    exact ⟨token, htoken, rfl⟩
  · rintro ⟨token, htoken, rfl⟩
    exact Step.except_bind_ok.mpr ⟨_, rfl, Step.except_bind_ok.mpr ⟨token, htoken, rfl⟩⟩

/-- A challenge that was handed out can be answered when its state is short enough for the token to be
    presented, and only then: the bound on presented tokens is the one on states, without the room that
    the nonce, the tag and Base64 take. -/
theorem challenge_answerable_iff [StateText] {secrets : SecretRing} {names : List String} {expires : ℤ}
    (hlawful : (Crypto.cipher (κ := κ)).Lawful tagLength)
    (hfaithful : Crypto.cipher.Faithful (ChallengeCodec.new secrets : ChallengeCodec κ).active
      (ChallengeCodec.new secrets).verification)
    (hprepare : runtime.prepare method input target reads = .ok (state, methods))
    (hread : StateText.fromSlice state.toValue.toVec = some state)
    (hbegin : runtime.beginLogin (ChallengeCodec.new secrets : ChallengeCodec κ) method input target reads =
      .ok (.factor token names expires)) :
    Answerable (ChallengeCodec.new secrets : ChallengeCodec κ) method state token ↔
      state.toValue.toVec.length ≤ 12260 := by
  obtain ⟨sealedState, hseal, hchallenge⟩ := (beginLogin_eq_ok hprepare).mp hbegin
  cases hchallenge
  have hsize := ChallengeCodec.byteSize_of_sealState hlawful hseal
  have hopen := ChallengeCodec.openToken_sealState hlawful hfaithful
    (SecretRing.derivedActive_mem secrets _) hread hseal
  constructor
  · intro hanswerable
    have hbound := (presents_iff.mp hanswerable.presents).2
    omega
  · intro hshort
    refine ⟨presents_iff.mpr ⟨?_, by omega⟩, fun now hnow => ⟨hopen, ?_⟩⟩
    · rw [Bool.eq_false_iff, Ne, String.isEmpty_iff]
      rintro rfl
      rw [String.utf8ByteSize_empty] at hsize
      omega
    · obtain ⟨user, -, rfl⟩ := prepare_eq_ok hprepare
      rw [validateState, if_neg (by simp [pendingState]), if_neg (by omega)]

/-- The answer to such a challenge goes to the verifier with the user who began it, and what the verifier
    accepts is consumed once. -/
theorem completeLogin_answered [StateText] (store : Option LoginStateStore) {response : MfaResponse}
    {now : ℤ} (hprepare : runtime.prepare method input target reads = .ok (state, methods))
    (hanswerable : Answerable codec method state response.challengeToken)
    (hanswer : PresentedSecret.validate response.answer = .ok ()) (hmethod : response.method ∈ methods)
    (hnow : now < state.expiresAt) : ∃ user : AuthUser, user.validate = .ok () ∧
      runtime.completeLogin codec method response store now = (do
        let user ← runtime.factors.verifier.verify (AuthUser.withScopes user.subject user.scopes) response
        let store ← store.elim (.error .invalidLoginState) .ok
        consumeState store state
        .ok ⟨⟨user, [runtime.input.method, response.method.asStr], some reads.authTime,
          some "urn:vyuh:acr:mfa"⟩, state.target⟩) := by
  obtain ⟨user, hvalid, rfl⟩ := prepare_eq_ok hprepare
  obtain ⟨hopen, hstate⟩ := hanswerable.reopens now hnow
  have hpresents := hanswerable.presents response.method response.answer hanswer
  refine ⟨user, hvalid, ?_⟩
  have hpending : PendingMfa.fromValue (runtime.pendingState method target user methods reads).payload =
      some ⟨user.subject, user.scopes, methods, reads.authTime⟩ := PendingMfa.fromValue_toValue _
  simp only [completeLogin, hpresents, hopen, hstate, hpending, bind, Except.bind, Option.elim_some]
  rw [if_neg (not_not.mpr hmethod)]

/-! ### A user with a long subject -/

def namedUser (n : ℕ) : AuthUser := ⟨longName n, [], ⟨none, [], none⟩⟩

def namedRuntime (n : ℕ) : PasswordMfaRuntime where
  primary _ _ := .ok (namedUser n)
  input := .password
  factors := { verifier := ⟨fun _ => .ok [.totp], fun user _ => .ok user⟩, allowed := [.totp],
               ttlSeconds := 300 }

theorem validProviderId_mfa : validProviderId "mfa" = true := by decide

def mfaMethod : LoginMethodId := ⟨"mfa", validProviderId_mfa⟩

def mainTarget : LoginTarget := ⟨⟨"main", validProviderId_main⟩, [apiAudience]⟩

def firstReads : MfaReads := ⟨0, 0, "s", some ⟨List.replicate 12 0, zeros_length⟩⟩

def someCredentials : LoginInput := .password ⟨"user", "secret"⟩

def namedState (n : ℕ) : SealedLoginState :=
  (namedRuntime n).pendingState mfaMethod mainTarget (namedUser n) [.totp] firstReads

/-- A reader that knows one state. -/
@[reducible]
def readsOne (state : SealedLoginState) : StateText where
  fromSlice bytes := if bytes = state.toValue.toVec then some state else none

theorem length_namedState (n : ℕ) : (namedState n).toValue.toVec.length = n + 179 := by
  have hlinear : (namedState n).toValue.size + Value.escapedSize (longName 0) =
      (namedState 0).toValue.size + Value.escapedSize (longName n) := by
    simp only [namedState, namedRuntime, pendingState, SealedLoginState.toValue, PendingMfa.toValue,
      Value.size, Value.fieldsSize, namedUser, List.length_cons, List.length_nil]
    omega
  have hbase : (namedState 0).toValue.size = 179 := by decide
  rw [hbase, escapedSize_longName, escapedSize_longName] at hlinear
  rw [Value.length_toVec]
  omega

theorem prepare_named (n : ℕ) :
    (namedRuntime (n + 1)).prepare mfaMethod someCredentials mainTarget firstReads =
      .ok (namedState (n + 1), [.totp]) := by
  have hblank : blank (longName (n + 1)) = false := by
    rw [blank, longName, String.toList_ofList, List.replicate_succ, List.all_cons]
    rfl
  have hvalid : (namedUser (n + 1)).validate = .ok () := by
    rw [AuthUser.validate, namedUser, hblank]
    rfl
  exact Step.except_bind_ok.mpr ⟨(), rfl, Step.except_bind_ok.mpr ⟨_, rfl, Step.except_bind_ok.mpr
    ⟨(), rfl, Step.except_bind_ok.mpr ⟨_, rfl, Step.except_bind_ok.mpr ⟨(), hvalid, rfl⟩⟩⟩⟩⟩

attribute [local instance] byteCrypto in
/-- Up to the bound on states, the challenge of a named user is handed out. -/
theorem begin_named {n : ℕ} (hshort : n + 180 ≤ maxStatePayloadBytes) : ∃ token,
    (ChallengeCodec.new ⟨"active", []⟩ : ChallengeCodec UInt8).sealState firstReads.nonce
      (namedState (n + 1)) = .ok token ∧
    (namedRuntime (n + 1)).beginLogin (ChallengeCodec.new ⟨"active", []⟩ : ChallengeCodec UInt8) mfaMethod
      someCredentials mainTarget firstReads = .ok (.factor token ["totp"] 300) := by
  have hsealed : ∃ token, (ChallengeCodec.new ⟨"active", []⟩ : ChallengeCodec UInt8).sealState
      firstReads.nonce (namedState (n + 1)) = .ok token :=
    ⟨_, ChallengeCodec.sealState_eq_ok.mpr ⟨by rw [length_namedState]; omega, _, _, rfl, rfl, rfl⟩⟩
  obtain ⟨token, hsealed⟩ := hsealed
  exact ⟨token, hsealed, (beginLogin_eq_ok (prepare_named n)).mpr ⟨token, hsealed, rfl⟩⟩

attribute [local instance] byteCrypto in
/-- With a subject of 13 000 letters the challenge is handed out, and no answer may present it. -/
theorem long_subject_challenge_is_unanswerable : ∃ token,
    (namedRuntime 13000).prepare mfaMethod someCredentials mainTarget firstReads =
      .ok (namedState 13000, [.totp]) ∧
    (namedRuntime 13000).beginLogin (ChallengeCodec.new ⟨"active", []⟩ : ChallengeCodec UInt8) mfaMethod
      someCredentials mainTarget firstReads = .ok (.factor token ["totp"] 300) ∧
    ¬ @Answerable UInt8 byteCrypto (readsOne (namedState 13000)) (ChallengeCodec.new ⟨"active", []⟩)
      mfaMethod (namedState 13000) token := by
  obtain ⟨token, hseal, hbegin⟩ := begin_named (n := 12999) (by decide)
  let _ : StateText := readsOne (namedState 13000)
  refine ⟨token, prepare_named 12999, hbegin, fun hanswerable => ?_⟩
  have hsize := ChallengeCodec.byteSize_of_sealState (Cipher.lawful_tagged tagLength) hseal
  have hbound := (presents_iff.mp hanswerable.presents).2
  rw [length_namedState] at hsize
  omega

/-- An answer, and a store in which the continuation was not consumed before. -/
def someAnswer (token : String) : MfaResponse := ⟨token, .totp, "123456"⟩

def freshStore : LoginStateStore := fun _ _ => .ok true

attribute [local instance] byteCrypto in
/-- A short subject's challenge can be answered, and the answer completes its login. -/
theorem short_subject_challenge_is_answerable : ∃ token completed,
    @Answerable UInt8 byteCrypto (readsOne (namedState 4)) (ChallengeCodec.new ⟨"active", []⟩)
      mfaMethod (namedState 4) token ∧
    @completeLogin UInt8 byteCrypto (readsOne (namedState 4)) (namedRuntime 4) (ChallengeCodec.new ⟨"active", []⟩)
      mfaMethod (someAnswer token) (some freshStore) 0 = .ok completed ∧ completed.target = mainTarget := by
  obtain ⟨token, hseal, hbegin⟩ := begin_named (n := 3) (by decide)
  let _ : StateText := readsOne (namedState 4)
  have hanswerable : Answerable (ChallengeCodec.new ⟨"active", []⟩ : ChallengeCodec UInt8) mfaMethod
      (namedState 4) token := by
    refine (challenge_answerable_iff (Cipher.lawful_tagged tagLength) (Cipher.faithful_tagged tagLength _ _)
      (prepare_named 3) ?_ hbegin).mpr ?_
    · exact if_pos rfl
    · rw [length_namedState]
      decide
  have hanswer : PresentedSecret.validate (someAnswer token).answer = .ok () := rfl
  have hnow : 0 < (namedState 4).expiresAt := by decide
  obtain ⟨user, -, hcompleted⟩ := completeLogin_answered (some freshStore) (prepare_named 3) hanswerable hanswer
    List.mem_cons_self hnow
  exact ⟨token, _, hanswerable, hcompleted, rfl⟩

end PasswordMfaRuntime

end Vyuh.Auth
