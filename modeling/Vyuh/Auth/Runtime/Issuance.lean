import Mathlib
import Vyuh.Auth.Runtime.TokenRuntime
import Vyuh.Lib.Step

/-! Issued credentials against the checks they meet when they are presented. Issuing does not look at
    most of the structural limits: a user, an audience list or a provider outside of them gets a
    credential that no check accepts. `Conforms` is what has to hold of them. -/

namespace Vyuh.Auth

open Lib

/-- What a token issued under `conf` needs to be accepted at its time of issue. -/
structure Conforms (leewaySeconds : ℕ) (conf : KindRuntime) (user : AuthUser)
    (audiences : List AudienceId) (reads : Reads) : Prop where
  subject : user.subject.utf8ByteSize ≤ maxSubjectBytes
  audiences : audiences.length ≤ maxAudiences
  methods : user.authentication.methods.length ≤ maxAuthMethods
  names : ∀ name ∈ user.authentication.methods ++ user.authentication.acr.toList,
    name ≠ "" ∧ name.utf8ByteSize ≤ maxNameBytes
  issuer : ∀ issuer, conf.issuer = some issuer → issuer ≠ "" ∧ issuer.utf8ByteSize ≤ 2048
  lasts : unixSeconds reads.issuedNow < unixSeconds reads.expiryNow + conf.ttlSeconds
  expires : (unixSeconds reads.expiryNow + conf.ttlSeconds) * 1000000000 ≤ maxUtc
  proved : ∀ time, user.authentication.authTime = some time → minUtc ≤ time * 1000000000 ∧
    time * 1000000000 ≤ unixSeconds reads.issuedNow * 1000000000 + Duration.ofSecs leewaySeconds
  leeway : Duration.ofSecs leewaySeconds ≤ maxTimeDelta
  earliest : minUtc ≤ reads.issuedNow - Duration.ofSecs leewaySeconds
  latest : reads.issuedNow + Duration.ofSecs leewaySeconds ≤ maxUtc

theorem orFault_eq_ok {α : Type} {x : Except AuthError α} {a : α} : orFault x = .ok a ↔ x = .ok a := by
  cases x with
  | error error => exact ⟨fun h => (nomatch h), fun h => nomatch h⟩
  | ok b => exact ⟨fun h => by cases h; rfl, fun h => by cases h; rfl⟩

/-- A second `chrono` represents. -/
def Representable (seconds : ℤ) : Prop :=
  minUtc ≤ seconds * 1000000000 ∧ seconds * 1000000000 ≤ maxUtc

theorem timestamp_eq_ok {value : ℤ} {time : DateTime} :
    timestamp value = .ok time ↔ Representable value ∧ time = value * 1000000000 := by
  rw [timestamp, Representable]
  split
  next h => exact ⟨fun heq => by cases heq; exact ⟨h, rfl⟩, fun heq => by rw [heq.2]⟩
  next h => exact ⟨fun heq => (nomatch heq), fun heq => absurd heq.1 h⟩

theorem mapM_timestamp_ok {value : Option ℤ} {time : Option DateTime} :
    value.mapM timestamp = .ok time ↔
      (∀ seconds, value = some seconds → Representable seconds) ∧
        time = value.map fun seconds => seconds * 1000000000 := by
  cases value with
  | none => exact ⟨fun h => ⟨fun _ h => (nomatch h), by cases h; rfl⟩, fun h => by rw [h.2]; rfl⟩
  | some seconds =>
    constructor
    · intro h
      obtain ⟨found, hfound, h⟩ := Step.except_bind_ok.mp h
      obtain ⟨hrange, rfl⟩ := timestamp_eq_ok.mp hfound
      cases h
      refine ⟨?_, rfl⟩
      rintro _ ⟨⟩
      exact hrange
    · rintro ⟨hrange, rfl⟩
      exact Step.except_bind_ok.mpr ⟨_, timestamp_eq_ok.mpr ⟨hrange seconds rfl, rfl⟩, rfl⟩

theorem validateTimes_eq_ok {token : AuthToken} : validateTimes token = .ok () ↔
    Representable token.issuedAt ∧ Representable token.expiresAt ∧ token.issuedAt < token.expiresAt ∧
    (∀ seconds, token.notBefore = some seconds → seconds ≤ token.expiresAt ∧ Representable seconds) ∧
    ∀ seconds, token.authTime = some seconds → Representable seconds := by
  simp only [validateTimes, Step.except_bind_ok, timestamp_eq_ok, mapM_timestamp_ok, Step.except_check_ok,
    Bool.or_eq_true, decide_eq_true_eq, not_or, Option.any_eq_true]
  constructor
  · rintro ⟨_, ⟨hissued, -⟩, _, ⟨hexpires, -⟩, ⟨hafter, hbefore⟩, _, ⟨hnotBefore, -⟩, _, ⟨hproved, -⟩, -⟩
    refine ⟨hissued, hexpires, by omega, ?_, hproved⟩
    intro seconds hseconds
    refine ⟨?_, hnotBefore seconds hseconds⟩
    by_contra hlate
    exact hbefore ⟨seconds, hseconds, by omega⟩
  · rintro ⟨hissued, hexpires, hafter, hbefore, hproved⟩
    refine ⟨_, ⟨hissued, rfl⟩, _, ⟨hexpires, rfl⟩, ⟨by omega, ?_⟩, _,
      ⟨fun seconds h => (hbefore seconds h).2, rfl⟩, _, ⟨hproved, rfl⟩, trivial⟩
    rintro ⟨seconds, hseconds, hlate⟩
    have := (hbefore seconds hseconds).1
    omega

theorem durationSeconds_eq_ok {seconds : ℕ} {duration : Duration} :
    durationSeconds seconds = .ok duration ↔
      Duration.ofSecs seconds ≤ maxTimeDelta ∧ duration = Duration.ofSecs seconds := by
  rw [durationSeconds]
  split
  next h => exact ⟨fun heq => by cases heq; exact ⟨h, rfl⟩, fun heq => by rw [heq.2]⟩
  next h => exact ⟨fun heq => (nomatch heq), fun heq => absurd heq.1 h⟩

theorem plus_eq_ok {time later : DateTime} {duration : Duration} :
    plus time duration = .ok later ↔ time + duration ≤ maxUtc ∧ later = time + duration := by
  rw [plus, checkedAddSigned]
  by_cases h : time + duration ≤ maxUtc
  · rw [if_pos h]
    exact ⟨fun heq => by cases heq; exact ⟨h, rfl⟩, fun heq => by rw [heq.2]⟩
  · rw [if_neg h]
    exact ⟨fun heq => (nomatch heq), fun heq => absurd heq.1 h⟩

theorem minus_eq_ok {time earlier : DateTime} {duration : Duration} :
    minus time duration = .ok earlier ↔ minUtc ≤ time - duration ∧ earlier = time - duration := by
  rw [minus, checkedSubSigned]
  by_cases h : minUtc ≤ time - duration
  · rw [if_pos h]
    exact ⟨fun heq => by cases heq; exact ⟨h, rfl⟩, fun heq => by rw [heq.2]⟩
  · rw [if_neg h]
    exact ⟨fun heq => (nomatch heq), fun heq => absurd heq.1 h⟩

/-- The provider's own rules, for a token without an earliest time but with a time of proof. -/
theorem validateCommon_eq_ok {token : AuthToken} {provider : ProviderId} {leewaySeconds : ℕ}
    {now : DateTime} {proved : ℤ} (hbefore : token.notBefore = none) (hproved : token.authTime = some proved) :
    validateCommon token provider leewaySeconds now = .ok () ↔
      (token.version = 2 ∧ token.provider = provider ∧ validateStructure token = .ok ()) ∧
      Representable token.issuedAt ∧ Representable token.expiresAt ∧ Representable proved ∧
      Duration.ofSecs leewaySeconds ≤ maxTimeDelta ∧
      (minUtc ≤ now - Duration.ofSecs leewaySeconds ∧
        now - Duration.ofSecs leewaySeconds < token.expiresAt * 1000000000) ∧
      (now + Duration.ofSecs leewaySeconds ≤ maxUtc ∧
        token.issuedAt * 1000000000 ≤ now + Duration.ofSecs leewaySeconds) ∧
      token.issuedAt * 1000000000 + Duration.ofSecs leewaySeconds ≤ maxUtc ∧
      proved * 1000000000 ≤ token.issuedAt * 1000000000 + Duration.ofSecs leewaySeconds := by
  have hguard : ¬ ((token.version ≠ 2 || token.provider.asStr ≠ provider.asStr ||
      validateStructure token ≠ .ok ()) = true) ↔
      token.version = 2 ∧ token.provider = provider ∧ validateStructure token = .ok () := by
    have hval : token.provider.asStr = provider.asStr ↔ token.provider = provider := Subtype.val_inj
    simp only [Bool.or_eq_true, decide_eq_true_eq, not_or, ne_eq, not_not, hval, and_assoc]
  rw [validateCommon, Step.except_check_ok, hguard]
  simp only [Step.except_bind_ok, durationSeconds_eq_ok, orFault_eq_ok, timestamp_eq_ok,
    mapM_timestamp_ok, hbefore, hproved, minus_eq_ok, plus_eq_ok, Step.except_check_ok, Option.map_none,
    Option.map_some, gt_iff_lt]
  constructor
  · rintro ⟨hguard, _, ⟨hleeway, rfl⟩, _, ⟨hissued, rfl⟩, _, ⟨hauth, rfl⟩, _, ⟨hexpires, rfl⟩, _,
      ⟨hearliest, rfl⟩, hfresh, _, ⟨-, rfl⟩, _, ⟨hlatest, rfl⟩, hstarted, hrest⟩
    obtain ⟨_, hplus, hrest⟩ := Step.except_bind_ok.mp hrest
    obtain ⟨hbound, rfl⟩ := plus_eq_ok.mp hplus
    have hproof := (Step.except_check_ok.mp hrest).1
    exact ⟨hguard, hissued, hexpires, hauth proved rfl, hleeway, ⟨hearliest, not_le.mp hfresh⟩,
      ⟨hlatest, by simpa using hstarted⟩, hbound, not_lt.mp hproof⟩
  · rintro ⟨hguard, hissued, hexpires, hauth, hleeway, ⟨hearliest, hfresh⟩, ⟨hlatest, hstarted⟩, hbound,
      hproof⟩
    refine ⟨hguard, _, ⟨hleeway, rfl⟩, _, ⟨hissued, rfl⟩, _, ⟨?_, rfl⟩, _, ⟨hexpires, rfl⟩, _,
      ⟨hearliest, rfl⟩, not_le.mpr hfresh, _, ⟨fun _ h => (nomatch h), rfl⟩, _, ⟨hlatest, rfl⟩, ?_, ?_⟩
    · rintro _ ⟨⟩
      exact hauth
    · simpa using hstarted
    · exact Step.except_bind_ok.mpr
        ⟨_, plus_eq_ok.mpr ⟨hbound, rfl⟩, Step.except_check_ok.mpr ⟨not_lt.mpr hproof, rfl⟩⟩

/-! ### The structure of an issued token -/

section

variable {id : ProviderId} {kind : TokenKind} {user : AuthUser} {audiences : List AudienceId}
  {conf : KindRuntime} {family : Option UuidText} {reads : Reads} {expiresAt : ℤ}

/-- The token `issueToken` builds. -/
def issuedToken (id : ProviderId) (kind : TokenKind) (user : AuthUser) (audiences : List AudienceId)
    (conf : KindRuntime) (family : Option UuidText) (reads : Reads) (expiresAt : ℤ) : AuthToken :=
  AuthToken.issued
    { provider := id, kind, user, audiences, expiresAt, familyId := family.map Subtype.val
      issuer := conf.issuer }
    reads.issuedNow reads.tokenId.val

theorem uuid_valid (text : UuidText) : invalidOptionalName (some text.val) 512 = false := by
  have hsize := text.property
  have hne : text.val ≠ "" := by
    intro heq
    rw [heq] at hsize
    exact absurd hsize (by decide)
  simp [invalidOptionalName, hsize, hne]

theorem validateNames_issued (hvalid : user.validate = .ok ()) (hsome : audiences ≠ []) :
    validateNames (issuedToken id kind user audiences conf family reads expiresAt) = .ok () ↔
      user.subject.utf8ByteSize ≤ maxSubjectBytes ∧
      (∀ issuer, conf.issuer = some issuer → issuer ≠ "" ∧ issuer.utf8ByteSize ≤ 2048) ∧
      audiences.length ≤ maxAudiences ∧ user.authentication.methods.length ≤ maxAuthMethods ∧
      ∀ name ∈ user.authentication.methods ++ user.authentication.acr.toList,
        name ≠ "" ∧ name.utf8ByteSize ≤ maxNameBytes := by
  have hblank : blank user.subject = false ∧ validateScopes user.scopes = true := by
    unfold AuthUser.validate at hvalid
    split at hvalid
    · exact nomatch hvalid
    next hblank =>
      split at hvalid
      next hscopes => exact ⟨Bool.eq_false_iff.mpr hblank, hscopes⟩
      next => exact nomatch hvalid
  have hid : validProviderId id.asStr = true := id.property
  have hfamily : invalidOptionalName (family.map Subtype.val) 512 = false := by
    cases family with
    | none => rfl
    | some text => exact uuid_valid text
  have hmembers : audiences.any (fun value => !validAudience value.asStr) = false := by
    rw [List.any_eq_false]
    intro value _
    rw [show validAudience value.asStr = true from value.property]
    decide
  have hissuer : invalidOptionalName conf.issuer 2048 = false ↔
      ∀ issuer, conf.issuer = some issuer → issuer ≠ "" ∧ issuer.utf8ByteSize ≤ 2048 := by
    cases conf.issuer <;> simp [invalidOptionalName]
  simp only [validateNames, issuedToken, AuthToken.issued, ne_eq, not_true_eq_false, decide_false, hid,
    hblank.1, hblank.2, uuid_valid, hfamily, Bool.not_true, Bool.false_or, Bool.or_false,
    Option.isSome_none, Option.any_some, Option.getD_some, hmembers, Bool.false_eq_true, if_false]
  have hempty : ∀ name : String, name.isEmpty = false ↔ name ≠ "" := fun name => by
    rw [Bool.eq_false_iff, ne_eq, String.isEmpty_iff]
  simp only [Step.except_check_ok, Bool.or_eq_true, decide_eq_true_eq, not_or, Nat.not_lt, Bool.not_eq_true,
    hissuer, List.isEmpty_eq_false_iff, hsome, List.any_eq_false, hempty, gt_iff_lt, ne_eq,
    not_false_eq_true, true_and, and_true, and_assoc]

theorem validateTimes_issued :
    validateTimes (issuedToken id kind user audiences conf family reads expiresAt) = .ok () ↔
      Representable (unixSeconds reads.issuedNow) ∧ Representable expiresAt ∧
      unixSeconds reads.issuedNow < expiresAt ∧
      ∀ time, user.authentication.authTime = some time → Representable time := by
  rw [validateTimes_eq_ok]
  simp only [issuedToken, AuthToken.issued, authenticationTime]
  constructor
  · rintro ⟨hissued, hexpires, hafter, -, hproved⟩
    refine ⟨hissued, hexpires, hafter, ?_⟩
    intro time htime
    rw [htime] at hproved
    exact hproved time rfl
  · rintro ⟨hissued, hexpires, hafter, hproved⟩
    refine ⟨hissued, hexpires, hafter, fun _ h => (nomatch h), ?_⟩
    cases htime : user.authentication.authTime with
    | none =>
      rintro _ ⟨⟩
      exact hissued
    | some time => exact fun other h => hproved other (htime.trans h)

theorem validateStructure_issued :
    validateStructure (issuedToken id kind user audiences conf family reads expiresAt) = .ok () ↔
      validateNames (issuedToken id kind user audiences conf family reads expiresAt) = .ok () ∧
      validateTimes (issuedToken id kind user audiences conf family reads expiresAt) = .ok () := by
  have hpayload : validatePayload (issuedToken id kind user audiences conf family reads expiresAt) = .ok () := by
    rfl
  simp only [validateStructure, Step.except_bind_ok, hpayload]
  exact ⟨fun ⟨_, hnames, _, htimes, _⟩ => ⟨hnames, htimes⟩,
    fun ⟨hnames, htimes⟩ => ⟨_, hnames, _, htimes, trivial⟩⟩

/-! ### Acceptance of an issued token -/

theorem authTime_issued : (issuedToken id kind user audiences conf family reads expiresAt).authTime =
    some (user.authentication.authTime.getD (unixSeconds reads.issuedNow)) := by
  change authenticationTime user (unixSeconds reads.issuedNow) = _
  rw [authenticationTime]
  cases user.authentication.authTime <;> rfl

/-- A second is not after the instant it was read from, which the next one is. -/
theorem unixSeconds_bounds (now : DateTime) :
    unixSeconds now * 1000000000 ≤ now ∧ now < (unixSeconds now + 1) * 1000000000 := by
  exact ⟨Int.ediv_mul_le now (by decide), Int.lt_ediv_add_one_mul_self now (by decide)⟩

/-- At its time of issue a token passes the provider's rules exactly when it conforms. -/
theorem validate_issued {leewaySeconds : ℕ} (hvalid : user.validate = .ok ()) (hsome : audiences ≠ [])
    (hexpiry : expiresAt = unixSeconds reads.expiryNow + conf.ttlSeconds) :
    validateCommon (issuedToken id kind user audiences conf family reads expiresAt) id leewaySeconds
        reads.issuedNow = .ok () ↔
      Conforms leewaySeconds conf user audiences reads := by
  have hbounds := unixSeconds_bounds reads.issuedNow
  rw [validateCommon_eq_ok rfl authTime_issued, validateStructure_issued, validateTimes_issued,
    validateNames_issued hvalid hsome]
  simp only [show (issuedToken id kind user audiences conf family reads expiresAt).issuedAt =
    unixSeconds reads.issuedNow from rfl, show
    (issuedToken id kind user audiences conf family reads expiresAt).expiresAt = expiresAt from rfl]
  constructor
  · rintro ⟨⟨-, -, ⟨hsubject, hissuer, haudiences, hmethods, hnames⟩, -, hexpires, hlasts, hproved⟩, -, -, -,
      hleeway, ⟨hearliest, -⟩, ⟨hlatest, -⟩, -, hproof⟩
    refine ⟨hsubject, haudiences, hmethods, hnames, hissuer, hexpiry ▸ hlasts, hexpiry ▸ hexpires.2, ?_,
      hleeway, hearliest, hlatest⟩
    intro time htime
    rw [htime] at hproof
    exact ⟨(hproved time htime).1, hproof⟩
  · intro h
    have hmax := h.latest
    have hmin := h.earliest
    have hlasts := h.lasts
    have hleeway : (0 : ℤ) ≤ Duration.ofSecs leewaySeconds := Int.natCast_nonneg _
    -- the first instant is a whole second, so the second of a later one is not before it
    have hissued : Representable (unixSeconds reads.issuedNow) := by
      have hfirst : (-8334601228800 : ℤ) ≤ unixSeconds reads.issuedNow := by
        rw [unixSeconds, Int.le_ediv_iff_mul_le (by decide)]
        exact (by linarith : minUtc ≤ reads.issuedNow)
      exact ⟨by rw [minUtc]; linarith, by linarith⟩
    have hexpires : Representable expiresAt := by
      rw [Representable, hexpiry]
      exact ⟨by linarith [hissued.1], h.expires⟩
    have hproved : ∀ time, user.authentication.authTime = some time → Representable time := by
      intro time htime
      obtain ⟨hfirst, hlast⟩ := h.proved time htime
      exact ⟨hfirst, by linarith⟩
    have hproof : (user.authentication.authTime.getD (unixSeconds reads.issuedNow)) * 1000000000 ≤
        unixSeconds reads.issuedNow * 1000000000 + Duration.ofSecs leewaySeconds ∧
        Representable (user.authentication.authTime.getD (unixSeconds reads.issuedNow)) := by
      cases htime : user.authentication.authTime with
      | none => exact ⟨by rw [Option.getD_none]; linarith, hissued⟩
      | some time => exact ⟨(h.proved time htime).2, hproved time htime⟩
    refine ⟨⟨rfl, rfl, ⟨h.subject, h.issuer, h.audiences, h.methods, h.names⟩, hissued, hexpires,
      hexpiry ▸ hlasts, hproved⟩, hissued, hexpires, hproof.2, h.leeway, ⟨hmin, ?_⟩, ⟨hmax, by linarith⟩,
      by linarith, hproof.1⟩
    have hnext : (unixSeconds reads.issuedNow + 1) * 1000000000 ≤ expiresAt * 1000000000 := by
      rw [hexpiry]
      linarith
    linarith

/-- Everything a presented token goes through comes down to the provider's rules. -/
theorem accept_issued {runtime : TokenRuntime} {raw : String} {audience : AudienceId}
    (hvalid : user.validate = .ok ()) (haudience : audience ∈ audiences)
    (hexpiry : expiresAt = unixSeconds reads.expiryNow + conf.ttlSeconds)
    (hdecode : conf.codec.decode raw =
      .ok (issuedToken runtime.id kind user audiences conf family reads expiresAt)) :
    runtime.accept conf kind raw audience reads.issuedNow = .ok () ↔
      Conforms runtime.leewaySeconds conf user audiences reads := by
  let token := issuedToken runtime.id kind user audiences conf family reads expiresAt
  have hsome : audiences ≠ [] := List.ne_nil_of_mem haudience
  have htoken : ∀ now, validateToken token runtime.id kind [audience] runtime.leewaySeconds conf.issuer now =
      validateCommon token runtime.id runtime.leewaySeconds now := by
    intro now
    have hissuer : token.issuer = conf.issuer := rfl
    have haudiences : token.audiences = some audiences := rfl
    have hkind : token.kind = kind := rfl
    simp only [validateToken, hissuer, haudiences, hkind, ne_eq, not_true_eq_false, decide_false,
      Bool.and_false, Bool.false_eq_true, if_false, List.any_cons, List.any_nil, Bool.or_false,
      List.contains_iff_mem.mpr haudience, Bool.not_true]
    cases validateCommon token runtime.id runtime.leewaySeconds now <;> rfl
  have hrules : validateCommon token runtime.id runtime.leewaySeconds reads.issuedNow = .ok () ↔
      Conforms runtime.leewaySeconds conf user audiences reads := validate_issued hvalid hsome hexpiry
  have hnormalize : runtime.normalize token = validateStructure token >>= fun _ => .ok token := rfl
  constructor
  · intro h
    obtain ⟨decoded, hdecoded, h⟩ := Step.except_bind_ok.mp h
    cases hdecode.symm.trans (orFault_eq_ok.mp hdecoded)
    obtain ⟨normalized, hnormalized, h⟩ := Step.except_bind_ok.mp h
    obtain ⟨_, -, hsame⟩ := Step.except_bind_ok.mp (hnormalize.symm.trans (orFault_eq_ok.mp hnormalized))
    cases hsame
    obtain ⟨_, -, h⟩ := Step.except_bind_ok.mp h
    exact hrules.mp ((htoken _).symm.trans h)
  · intro h
    have hcommon := hrules.mpr h
    have hstructure := ((validateCommon_eq_ok rfl authTime_issued).mp hcommon).1.2.2
    refine Step.except_bind_ok.mpr ⟨token, orFault_eq_ok.mpr hdecode, ?_⟩
    refine Step.except_bind_ok.mpr ⟨token, orFault_eq_ok.mpr ?_, ?_⟩
    · rw [hnormalize]
      exact Step.except_bind_ok.mpr ⟨(), hstructure, rfl⟩
    · refine Step.except_bind_ok.mpr ⟨(), orFault_eq_ok.mpr hstructure, ?_⟩
      rw [htoken]
      exact hcommon

end

/-! ### Logins -/

section

variable {runtime : TokenRuntime} {user : AuthUser} {requested : List String}
  {family : UuidText} {reads refreshReads : Reads} {audiences : List AudienceId} {response : LoginResponse}

theorem issueToken_eq_ok {id : ProviderId} {kind : TokenKind} {conf : KindRuntime}
    {family : Option UuidText} {token : AuthToken}
    (h : issueToken id kind user audiences conf (family.map Subtype.val) reads = .ok token) :
    token = issuedToken id kind user audiences conf family reads
      (unixSeconds reads.expiryNow + conf.ttlSeconds) := by
  rw [issueToken] at h
  cases hexpires : checkedAdd64 (unixSeconds reads.expiryNow) conf.ttlSeconds with
  | none =>
    rw [hexpires] at h
    exact nomatch h
  | some expiresAt =>
    rw [hexpires] at h
    cases h
    rw [checkedAdd64_some hexpires]
    rfl

/-- What a successful login has checked, and the tokens behind its credentials. -/
structure Issues (runtime : TokenRuntime) (user : AuthUser) (audiences : List AudienceId)
    (family : UuidText) (reads refreshReads : Reads) (response : LoginResponse) : Prop where
  nonempty : audiences ≠ []
  valid : user.validate = .ok ()
  access : runtime.access.codec.encode (issuedToken runtime.id .access user audiences runtime.access
    (runtime.refresh.map fun _ => family) reads
    (unixSeconds reads.expiryNow + runtime.access.ttlSeconds)) = .ok response.access
  refresh : ∀ conf, runtime.refresh = some conf → ∃ raw, response.refresh = some raw ∧
    conf.codec.encode (issuedToken runtime.id .refresh user audiences conf (some family) refreshReads
      (unixSeconds refreshReads.expiryNow + conf.ttlSeconds)) = .ok raw

theorem issue_eq_ok [CookieText]
    (h : runtime.issue user requested family reads refreshReads = .ok (audiences, response)) :
    Issues runtime user audiences family reads refreshReads response := by
  obtain ⟨resolved, hresolved, h⟩ := Step.except_bind_ok.mp h
  obtain ⟨-, h⟩ := Step.except_check_ok.mp h
  obtain ⟨_, -, h⟩ := Step.except_bind_ok.mp h
  obtain ⟨issued, hlogin, h⟩ := Step.except_bind_ok.mp h
  cases h
  obtain ⟨_, hvalid, h⟩ := Step.except_bind_ok.mp hlogin
  obtain ⟨pair, htokens, hresponse⟩ := Step.except_bind_ok.mp h
  obtain ⟨access, haccess, h⟩ := Step.except_bind_ok.mp htokens
  obtain ⟨refresh, hrefresh, h⟩ := Step.except_bind_ok.mp h
  cases h
  obtain ⟨rawAccess, hrawAccess, h⟩ := Step.except_bind_ok.mp hresponse
  obtain ⟨rawRefresh, hrawRefresh, h⟩ := Step.except_bind_ok.mp h
  obtain ⟨_, -, h⟩ := Step.except_bind_ok.mp h
  obtain ⟨_, -, h⟩ := Step.except_bind_ok.mp h
  cases h
  have hencoded : ∀ {conf : KindRuntime} {token : AuthToken} {raw : String},
      encodeCredential conf token = .ok raw → conf.codec.encode token = .ok raw := by
    intro conf token raw h
    obtain ⟨value, hvalue, h⟩ := Step.except_bind_ok.mp h
    obtain ⟨_, -, h⟩ := Step.except_bind_ok.mp h
    cases h
    exact hvalue
  have hfamily : (runtime.refresh.map fun _ => family.val) =
      (runtime.refresh.map fun _ => family).map Subtype.val := by
    cases runtime.refresh <;> rfl
  rw [hfamily] at haccess hrefresh
  refine ⟨resolveAudiences_ne_nil hresolved, hvalid, issueToken_eq_ok haccess ▸ hencoded hrawAccess, ?_⟩
  intro conf hconf
  rw [hconf] at hrefresh hrawRefresh
  obtain ⟨token, htoken, h⟩ := Step.except_bind_ok.mp hrefresh
  cases h
  obtain ⟨raw, hraw, h⟩ := Step.except_bind_ok.mp hrawRefresh
  cases h
  exact ⟨raw, rfl, issueToken_eq_ok htoken ▸ hencoded hraw⟩

end

/-- CORRECT: a provider that was accepted at startup and whose codecs round-trip accepts, at their time of
    issue and for every requested audience, the credentials a login returned if and only if the user, the
    audiences, the provider and the clock conform. -/
theorem issued_credentials_are_accepted_iff [CookieText] {id : ProviderId} {provider : TokenProvider}
    {defaultAudience : Option AudienceId} {runtime : TokenRuntime} {user : AuthUser}
    {requested : List String} {family : UuidText} {reads refreshReads : Reads}
    {audiences : List AudienceId} {response : LoginResponse}
    (hbuild : buildToken id provider defaultAudience = .ok runtime)
    (hcodec : provider.access.codec.RoundTrips)
    (hrefreshCodec : ∀ conf, provider.refresh = some conf → conf.codec.RoundTrips)
    (hissue : runtime.issue user requested family reads refreshReads = .ok (audiences, response)) :
    ((∀ audience ∈ audiences,
        runtime.accept runtime.access .access response.access audience reads.issuedNow = .ok ()) ∧
      ∀ conf raw, runtime.refresh = some conf → response.refresh = some raw → ∀ audience ∈ audiences,
        runtime.accept conf .refresh raw audience refreshReads.issuedNow = .ok ()) ↔
    Conforms runtime.leewaySeconds runtime.access user audiences reads ∧
      ∀ conf, runtime.refresh = some conf →
        Conforms runtime.leewaySeconds conf user audiences refreshReads := by
  have hissues := issue_eq_ok hissue
  have hbuilt : runtime.access.codec.RoundTrips ∧
      ∀ conf, runtime.refresh = some conf → conf.codec.RoundTrips := by
    obtain ⟨_, -, h⟩ := Step.except_bind_ok.mp hbuild
    obtain ⟨_, -, h⟩ := Step.except_bind_ok.mp h
    obtain ⟨refresh, hrefresh, h⟩ := Step.except_bind_ok.mp h
    obtain ⟨-, h⟩ := Step.except_check_ok.mp h
    cases h
    refine ⟨hcodec, ?_⟩
    rintro conf (rfl : refresh = some conf)
    cases hprovider : provider.refresh with
    | none =>
      rw [hprovider] at hrefresh
      exact nomatch hrefresh
    | some value =>
      rw [hprovider] at hrefresh
      obtain ⟨built, hbuilt, h⟩ := Step.except_bind_ok.mp hrefresh
      cases h
      obtain ⟨_, -, h⟩ := Step.except_bind_ok.mp hbuilt
      cases h
      exact hrefreshCodec value hprovider
  obtain ⟨first, hfirst⟩ := List.exists_mem_of_ne_nil audiences hissues.nonempty
  have haccess : ∀ audience ∈ audiences,
      (runtime.accept runtime.access .access response.access audience reads.issuedNow = .ok () ↔
        Conforms runtime.leewaySeconds runtime.access user audiences reads) := fun audience haudience =>
    accept_issued hissues.valid haudience rfl (hbuilt.1 _ _ hissues.access)
  have hrefresh : ∀ conf, runtime.refresh = some conf → ∃ raw, response.refresh = some raw ∧
      ∀ audience ∈ audiences,
        (runtime.accept conf .refresh raw audience refreshReads.issuedNow = .ok () ↔
          Conforms runtime.leewaySeconds conf user audiences refreshReads) := by
    intro conf hconf
    obtain ⟨raw, hraw, hencode⟩ := hissues.refresh conf hconf
    exact ⟨raw, hraw, fun audience haudience =>
      accept_issued hissues.valid haudience rfl (hbuilt.2 conf hconf _ _ hencode)⟩
  constructor
  · rintro ⟨haccepts, hrefreshes⟩
    refine ⟨(haccess first hfirst).mp (haccepts first hfirst), fun conf hconf => ?_⟩
    obtain ⟨raw, hraw, hiff⟩ := hrefresh conf hconf
    exact (hiff first hfirst).mp (hrefreshes conf raw hconf hraw first hfirst)
  · rintro ⟨haccepts, hrefreshes⟩
    refine ⟨fun audience haudience => (haccess audience haudience).mpr haccepts, ?_⟩
    intro conf raw hconf hraw audience haudience
    obtain ⟨raw', hraw', hiff⟩ := hrefresh conf hconf
    cases hraw.symm.trans hraw'
    exact (hiff audience haudience).mpr (hrefreshes conf hconf)

/-! ### Two logins -/

/-- A codec of one token. -/
def sealedCodec (token : AuthToken) : CodecRuntime where
  canEncode := true
  encode other := if other = token then .ok "sealed" else .error .invalidCredential
  decode raw := if raw = "sealed" then .ok token else .error .invalidCredential

theorem sealedCodec_roundTrips (token : AuthToken) : (sealedCodec token).RoundTrips := by
  intro other raw h
  simp only [sealedCodec] at h ⊢
  split at h
  next heq =>
    cases h
    rw [heq, if_pos rfl]
  next => exact nomatch h

theorem sealedCodec_decode (token : AuthToken) : (sealedCodec token).decode "sealed" = .ok token := by
  simp [sealedCodec]

@[reducible] def bareCookies : CookieText := ⟨fun conf value _ => conf.name ++ "=" ++ value⟩

def mainProvider : ProviderId := ⟨"main", validProviderId_main⟩

def someUuid : UuidText := ⟨"5f0c7f0e-6f0b-4f43-9d0b-3c1f0c8b4a11", by decide⟩

/-- Both readings at one instant of 2023. -/
def oneInstant : Reads := ⟨1700000000500000000, 1700000000500000000, someUuid, ""⟩

def plainUser (subject : String) : AuthUser := ⟨subject, [], ⟨none, [], none⟩⟩

def bearerKind (codec : CodecRuntime) : KindRuntime :=
  ⟨.bearer, none, 3600, codec, none, none, 16384⟩

/-- The token of a one-hour bearer provider; only its codec stays open. -/
def bearerToken (subject : String) : AuthToken :=
  issuedToken mainProvider .access (plainUser subject) [apiAudience]
    (bearerKind ⟨true, fun _ => .error .invalidCredential, fun _ => .error .invalidCredential⟩) none
    oneInstant 1700003600

def bearerProvider (subject : String) : TokenProvider :=
  ⟨⟨.bearer, none, 3600, sealedCodec (bearerToken subject), none, 16384⟩, none, 0, none, none⟩

def bearerRuntime (subject : String) : TokenRuntime :=
  ⟨mainProvider, bearerKind (sealedCodec (bearerToken subject)), none, 0, none, .any⟩

def bearerResponse : LoginResponse :=
  ⟨"sealed", none, some "sealed", none, 3600, [], (.bearer, none)⟩

theorem bearer_build (subject : String) :
    buildToken mainProvider (bearerProvider subject) none = .ok (bearerRuntime subject) :=
  Step.except_bind_ok.mpr ⟨.any, rfl, Step.except_bind_ok.mpr ⟨(), rfl, rfl⟩⟩

attribute [local instance] bareCookies in
/-- The login of any valid user succeeds. -/
theorem bearer_issue {subject : String} (hvalid : (plainUser subject).validate = .ok ()) :
    (bearerRuntime subject).issue (plainUser subject) ["api"] someUuid oneInstant oneInstant =
      .ok ([apiAudience], bearerResponse) := by
  have hencode : encodeCredential (bearerRuntime subject).access (bearerToken subject) = .ok "sealed" :=
    Step.except_bind_ok.mpr ⟨"sealed", if_pos rfl, rfl⟩
  have hlogin : (bearerRuntime subject).login (plainUser subject) [apiAudience] someUuid oneInstant
      oneInstant = .ok bearerResponse := by
    refine Step.except_bind_ok.mpr ⟨(), hvalid, ?_⟩
    refine Step.except_bind_ok.mpr ⟨⟨bearerToken subject, none⟩, rfl, ?_⟩
    exact Step.except_bind_ok.mpr ⟨"sealed", hencode, rfl⟩
  refine Step.except_bind_ok.mpr ⟨[apiAudience], rfl, ?_⟩
  refine Step.except_bind_ok.mpr ⟨(), rfl, ?_⟩
  exact Step.except_bind_ok.mpr ⟨bearerResponse, hlogin, rfl⟩

attribute [local instance] bareCookies in
theorem issued_credentials_are_accepted_iff_short_subject :
    (bearerRuntime "user-1").accept (bearerRuntime "user-1").access .access "sealed" apiAudience
      oneInstant.issuedNow = .ok () := by
  have hvalid : (plainUser "user-1").validate = .ok () := by decide
  have hconforms : Conforms 0 (bearerRuntime "user-1").access (plainUser "user-1") [apiAudience]
      oneInstant :=
    ⟨by decide, by decide, by decide, by decide, fun _ h => (nomatch h), by decide, by decide,
      fun _ h => (nomatch h), by decide, by decide, by decide⟩
  have haccepted := (issued_credentials_are_accepted_iff (bearer_build "user-1") (sealedCodec_roundTrips _)
    (fun _ h => nomatch h) (bearer_issue hvalid)).mpr ⟨hconforms, fun _ h => nomatch h⟩
  exact haccepted.1 apiAudience List.mem_cons_self

/-- A subject of `n` bytes. -/
def longSubject (n : ℕ) : String := String.ofList (List.replicate n 'a')

theorem longSubject_size (n : ℕ) : (longSubject n).utf8ByteSize = n := by
  rw [longSubject, String.utf8ByteSize_ofList]
  induction n with
  | zero => rfl
  | succ n ih =>
    rw [List.replicate_succ, String.utf8Len_cons, ih]
    rfl

theorem longSubject_valid (n : ℕ) : (plainUser (longSubject (n + 1))).validate = .ok () := by
  have hblank : blank (longSubject (n + 1)) = false := by
    rw [blank, longSubject, String.toList_ofList, List.replicate_succ, List.all_cons]
    rfl
  rw [AuthUser.validate, plainUser, hblank]
  rfl

attribute [local instance] bareCookies in
/-- The provider starts, the user is valid and the login succeeds, but the token is refused: its subject
    is one byte too long. -/
theorem long_subject_is_issued_and_refused :
    let subject := longSubject 513
    buildToken mainProvider (bearerProvider subject) none = .ok (bearerRuntime subject) ∧
    (plainUser subject).validate = .ok () ∧
    (bearerRuntime subject).issue (plainUser subject) ["api"] someUuid oneInstant oneInstant =
      .ok ([apiAudience], bearerResponse) ∧
    (bearerRuntime subject).accept (bearerRuntime subject).access .access "sealed" apiAudience
      oneInstant.issuedNow ≠ .ok () := by
  intro subject
  have hvalid : (plainUser subject).validate = .ok () := longSubject_valid 512
  refine ⟨bearer_build _, hvalid, bearer_issue hvalid, ?_⟩
  intro haccepted
  have hdecode : (bearerRuntime subject).access.codec.decode "sealed" = .ok (bearerToken subject) :=
    sealedCodec_decode _
  have hconforms := (accept_issued hvalid List.mem_cons_self rfl hdecode).mp haccepted
  have hsize : subject.utf8ByteSize ≤ 512 := hconforms.subject
  rw [longSubject_size] at hsize
  omega

end Vyuh.Auth
