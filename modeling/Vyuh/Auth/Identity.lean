import Mathlib
import Vyuh.Lib.Machine

/-! Identities (`auth/identity.rs`, `scopes.rs`): provider and audience names, application scopes and
    the authenticated user. A name that was checked is a subtype, so that no unchecked one exists. A byte
    test that only ASCII bytes pass is written on characters: the bytes of any other character fail it. -/

namespace Vyuh.Auth

open Lib

inductive AuthError
  | noCredential
  | malformedLocation
  | invalidCredential
  | expiredCredential
  | credentialNotYetValid
  | wrongTokenKind
  | audienceMismatch
  | providerNotFound (id : String)
  | invalidProviderId (value : String)
  | invalidAudience (value : String)
  | duplicateProvider (id : String)
  | invalidLoginState
  | expiredLoginState
  | ambiguousProvider (text : String)
  | invalidProviderConfig (text : String)
  | unsupportedProviderCapability
  | deliveryFailed
  | internal (text : String)
  deriving DecidableEq, Repr

/-- The Unicode `White_Space` characters, which `str::trim` removes. -/
def isWhiteSpace (c : Char) : Bool :=
  (9 ≤ c.toNat && c.toNat ≤ 13) || c.toNat = 32 || c.toNat = 0x85 || c.toNat = 0xa0 ||
    c.toNat = 0x1680 || (0x2000 ≤ c.toNat && c.toNat ≤ 0x200a) || c.toNat = 0x2028 ||
    c.toNat = 0x2029 || c.toNat = 0x202f || c.toNat = 0x205f || c.toNat = 0x3000

/-- `value.trim().is_empty()`. -/
def blank (value : String) : Bool := value.toList.all isWhiteSpace

def isAsciiAlphanumeric (c : Char) : Bool :=
  (0x30 ≤ c.toNat && c.toNat ≤ 0x39) || (0x41 ≤ c.toNat && c.toNat ≤ 0x5a) ||
    (0x61 ≤ c.toNat && c.toNat ≤ 0x7a)

/-- `ProviderId::new` refuses a value that is not valid. -/
def validProviderId (value : String) : Bool :=
  !blank value && value.toList.all (fun c => isAsciiAlphanumeric c || c = '-' || c = '_')

def validAudience (value : String) : Bool :=
  !blank value && value.utf8ByteSize ≤ 128 &&
    value.toList.all (fun c => isAsciiAlphanumeric c || c ∈ ['-', '_', '.', ':', '/'])

/-- Names that the examples use. -/
theorem validProviderId_main : validProviderId "main" = true := by decide

theorem validAudience_api : validAudience "api" = true := by decide

theorem validAudience_web : validAudience "web" = true := by decide

def ProviderId := { value : String // validProviderId value = true }
  deriving DecidableEq

def AudienceId := { value : String // validAudience value = true }
  deriving DecidableEq

def webAudience : AudienceId := ⟨"web", validAudience_web⟩

def apiAudience : AudienceId := ⟨"api", validAudience_api⟩

namespace ProviderId

def new (value : String) : Except AuthError ProviderId :=
  if h : validProviderId value = true then .ok ⟨value, h⟩ else .error (.invalidProviderId value)

def asStr (id : ProviderId) : String := id.val

@[simp] theorem new_asStr (id : ProviderId) : new id.asStr = .ok id := dif_pos id.property

end ProviderId

namespace AudienceId

def new (value : String) : Except AuthError AudienceId :=
  if h : validAudience value = true then .ok ⟨value, h⟩ else .error (.invalidAudience value)

def asStr (id : AudienceId) : String := id.val

@[simp] theorem new_asStr (id : AudienceId) : new id.asStr = .ok id := dif_pos id.property

end AudienceId

/-! ### Scopes -/

abbrev Scope := String

def maxScopes : ℕ := 128
def maxScopeBytes : ℕ := 128
def maxScopesBytes : ℕ := 8 * 1024

def validName (value : String) : Bool :=
  !value.isEmpty && value.utf8ByteSize ≤ maxScopeBytes &&
    value.toList.all (fun c => c = '!' || ('#'.toNat ≤ c.toNat && c.toNat ≤ '['.toNat) ||
      (']'.toNat ≤ c.toNat && c.toNat ≤ '~'.toNat))

/-- The bytes of the scopes joined by spaces, one separator too many, unless they overflow. -/
def scopeBytes (scopes : List Scope) : Option ℕ :=
  scopes.foldlM (fun total scope =>
    (checkedAddUsize total scope.utf8ByteSize).bind fun value => checkedAddUsize value 1) 0

/-- Validates one trusted identity or credential scope collection. -/
def validateScopes (scopes : List Scope) : Bool :=
  !(scopes.length > maxScopes || scopes.any (fun scope => !validName scope)) &&
    (scopeBytes scopes).any (fun value => value - 1 ≤ maxScopesBytes)

/-! ### Users -/

/-- Authenticated assurance metadata carried across credential rotations. -/
structure AuthenticationContext where
  authTime : Option ℤ
  methods : List String
  acr : Option String
  deriving DecidableEq, Repr

/-- The provider-independent identity. -/
structure AuthUser where
  subject : String
  scopes : List Scope
  authentication : AuthenticationContext
  deriving DecidableEq, Repr

def AuthUser.validate (user : AuthUser) : Except AuthError Unit :=
  if blank user.subject then .error .invalidCredential
  else if validateScopes user.scopes then .ok ()
  else .error .invalidCredential

/-! ### Requested audiences -/

/-- Adds one declared audience to those collected, once. -/
def collectAudience (output : List AudienceId) (value : String) : Except AuthError (List AudienceId) := do
  let audience ← AudienceId.new value
  if audience ∈ output then .ok output else .ok (output ++ [audience])

def collectAudiences (values : List String) : Except AuthError (List AudienceId) := do
  let output ← values.foldlM collectAudience []
  if output.isEmpty then
    .error (.invalidProviderConfig "credentials require at least one audience")
  else .ok output

/-- Resolves an audience slice through the site compatibility policy. -/
def resolveAudiences (values : List String) (default : Option AudienceId) :
    Except AuthError (List AudienceId) :=
  if values.isEmpty then
    match default with
    | some value => .ok [value]
    | none => .error (.invalidProviderConfig "an explicit audience is required")
  else collectAudiences values

theorem resolveAudiences_ne_nil {values : List String} {default : Option AudienceId}
    {audiences : List AudienceId} (h : resolveAudiences values default = .ok audiences) :
    audiences ≠ [] := by
  unfold resolveAudiences at h
  split at h
  · cases default with
    | none => exact nomatch h
    | some value =>
      cases h
      exact List.cons_ne_nil _ _
  · rw [collectAudiences] at h
    cases hcollect : values.foldlM collectAudience [] with
    | error error =>
      rw [hcollect] at h
      exact nomatch h
    | ok output =>
      rw [hcollect] at h
      change (if output.isEmpty then _ else Except.ok output) = _ at h
      split at h
      · exact nomatch h
      next hnonempty =>
        cases h
        rintro rfl
        exact hnonempty rfl

end Vyuh.Auth
