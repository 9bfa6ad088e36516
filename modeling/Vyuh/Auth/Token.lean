import Vyuh.Auth.Identity

/-! Normalized tokens (`auth/token.rs`): what a codec decodes, the structural limits every token is held
    to, and the token a login builds. A payload is its JSON text. -/

namespace Vyuh.Auth

open Lib

def maxSubjectBytes : ℕ := 512
def maxAudiences : ℕ := 32
def maxNameBytes : ℕ := 128
def maxAuthMethods : ℕ := 16
def maxPayloadBytes : ℕ := 16 * 1024

inductive TokenKind
  | access
  | refresh
  deriving DecidableEq, Repr

structure AuthToken where
  version : ℕ
  provider : ProviderId
  kind : TokenKind
  subject : String
  scopes : List Scope
  audiences : Option (List AudienceId)
  issuedAt : ℤ
  authTime : Option ℤ
  authenticationMethods : List String
  authenticationClass : Option String
  notBefore : Option ℤ
  expiresAt : ℤ
  tokenId : Option String
  familyId : Option String
  issuer : Option String
  legacyBinding : Option String
  payload : String
  deriving DecidableEq

/-- `Utc.timestamp_opt(value, 0).single()`: the instant of a second `chrono` represents. -/
def timestamp (value : ℤ) : Except AuthError DateTime :=
  if minUtc ≤ value * 1000000000 ∧ value * 1000000000 ≤ maxUtc then .ok (value * 1000000000)
  else .error .invalidCredential

/-- `DateTime::timestamp`: whole seconds, rounded down. -/
def unixSeconds (time : DateTime) : ℤ := time / 1000000000

/-! ### Structure -/

def invalidOptionalName (value : Option String) (maximum : ℕ) : Bool :=
  value.any (fun value => value.isEmpty || value.utf8ByteSize > maximum)

def validateNames (token : AuthToken) : Except AuthError Unit :=
  if token.version ≠ 2 || !validProviderId token.provider.asStr || blank token.subject ||
      token.subject.utf8ByteSize > maxSubjectBytes || invalidOptionalName token.tokenId 512 ||
      invalidOptionalName token.familyId 512 || invalidOptionalName token.issuer 2048 ||
      token.legacyBinding.isSome then
    .error .invalidCredential
  else if !validateScopes token.scopes then .error .invalidCredential
  else if token.audiences.any List.isEmpty ||
      token.audiences.any (fun value => value.length > maxAudiences) ||
      token.authenticationMethods.length > maxAuthMethods then
    .error .invalidCredential
  else if (token.audiences.getD []).any (fun value => !validAudience value.asStr) then
    .error .invalidCredential
  else if (token.authenticationMethods ++ token.authenticationClass.toList).any
      (fun value => value.isEmpty || value.utf8ByteSize > maxNameBytes) then
    .error .invalidCredential
  else .ok ()

def validateTimes (token : AuthToken) : Except AuthError Unit := do
  let _ ← timestamp token.issuedAt
  let _ ← timestamp token.expiresAt
  if token.issuedAt ≥ token.expiresAt || token.notBefore.any (fun value => value > token.expiresAt) then
    .error .invalidCredential
  else
    let _ ← token.notBefore.mapM timestamp
    let _ ← token.authTime.mapM timestamp
    .ok ()

def validatePayload (token : AuthToken) : Except AuthError Unit :=
  if token.payload.utf8ByteSize > maxPayloadBytes then .error .invalidCredential else .ok ()

def validateStructure (token : AuthToken) : Except AuthError Unit := do
  validateNames token
  validateTimes token
  validatePayload token

/-! ### Issued tokens -/

/-- What the runtime supplies to a token of its own. -/
structure LocalToken where
  provider : ProviderId
  kind : TokenKind
  user : AuthUser
  audiences : List AudienceId
  expiresAt : ℤ
  familyId : Option String
  issuer : Option String

/-- The proof time of a user, the time of issue when there is none. -/
def authenticationTime (user : AuthUser) (fallback : ℤ) : Option ℤ :=
  match user.authentication.authTime with
  | none => some fallback
  | value => value

/-- A token issued at `now` under a fresh token id. -/
def AuthToken.issued (input : LocalToken) (now : DateTime) (tokenId : String) : AuthToken where
  version := 2
  provider := input.provider
  kind := input.kind
  subject := input.user.subject
  scopes := input.user.scopes
  audiences := some input.audiences
  issuedAt := unixSeconds now
  authTime := authenticationTime input.user (unixSeconds now)
  authenticationMethods := input.user.authentication.methods
  authenticationClass := input.user.authentication.acr
  notBefore := none
  expiresAt := input.expiresAt
  tokenId := some tokenId
  familyId := input.familyId
  issuer := input.issuer
  legacyBinding := none
  payload := "null"

end Vyuh.Auth
