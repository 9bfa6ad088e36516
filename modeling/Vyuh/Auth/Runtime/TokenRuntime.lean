import Vyuh.Auth.Location
import Vyuh.Auth.Runtime.Indexes
import Vyuh.Auth.Token

/-! The token provider (`auth/runtime/token_runtime.rs`, `auth/runtime/validation.rs` and the startup
    checks of `auth/config.rs` and `auth/runtime/registry.rs`): how a login issues its credentials and
    how a presented token is held against the provider. Codecs and the text of a cookie are parameters;
    the clock is read twice for each token, and the readings are inputs. -/

namespace Vyuh.Auth

open Lib

/-- Encoding and decoding of one token format. -/
structure CodecRuntime where
  canEncode : Bool
  encode : AuthToken → Except AuthError String
  decode : String → Except AuthError AuthToken

/-- What is encoded decodes to the same token. -/
def CodecRuntime.RoundTrips (codec : CodecRuntime) : Prop :=
  ∀ token raw, codec.encode token = .ok raw → codec.decode raw = .ok token

/-- The `Set-Cookie` text of a cookie with its value and age in seconds. -/
class CookieText where
  build : CookieConf → String → ℤ → String

/-! ### Startup -/

/-- Extraction, delivery, and lifetime policy for one token kind. -/
structure TokenConf where
  location : CredentialLocation
  responseHeader : Option String
  ttlSeconds : ℤ
  codec : CodecRuntime
  csrf : Option CsrfConf
  maxCredentialBytes : ℕ

structure TokenProvider where
  access : TokenConf
  refresh : Option TokenConf
  leewaySeconds : ℕ
  issuer : Option String
  audiences : Option (List String)

def validateTokenConf (value : TokenConf) : Except AuthError Unit := do
  value.location.validate
  if value.responseHeader.any (fun name => (headerName name).isNone) then
    .error (.invalidProviderConfig "invalid response credential header")
  else
    (value.csrf.elim (.ok ()) CsrfConf.validate)
    if value.ttlSeconds ≤ 0 then .error (.invalidProviderConfig "token TTL must be positive")
    else if value.maxCredentialBytes = 0 || value.maxCredentialBytes > 16 * 1024 then
      .error (.invalidProviderConfig "token credential limit must be between 1 and 16384 bytes")
    else .ok ()

/-- Validates and normalizes finite route-audience descriptors. -/
def resourceAudiences (values : List String) : Except AuthError ProviderAudienceSet := do
  ProviderAudienceSet.ofValues (← values.mapM AudienceId.new)

def providerAudiences (values : Option (List String)) : Except AuthError ProviderAudienceSet :=
  match values with
  | none => .ok .any
  | some values => resourceAudiences values

structure KindRuntime where
  location : CredentialLocation
  responseHeader : Option String
  ttlSeconds : ℤ
  codec : CodecRuntime
  issuer : Option String
  csrf : Option CsrfConf
  maxCredentialBytes : ℕ

structure TokenRuntime where
  id : ProviderId
  access : KindRuntime
  refresh : Option KindRuntime
  leewaySeconds : ℕ
  defaultAudience : Option AudienceId
  audiences : ProviderAudienceSet

def buildKind (conf : TokenConf) (issuer : Option String) : KindRuntime where
  location := conf.location
  responseHeader := conf.responseHeader
  ttlSeconds := conf.ttlSeconds
  codec := conf.codec
  issuer := issuer
  csrf := conf.csrf
  maxCredentialBytes := conf.maxCredentialBytes

def buildRefresh (conf : TokenConf) (issuer : Option String) : Except AuthError KindRuntime := do
  validateTokenConf conf
  .ok (buildKind conf issuer)

def buildToken (id : ProviderId) (value : TokenProvider) (defaultAudience : Option AudienceId) :
    Except AuthError TokenRuntime := do
  let audiences ← providerAudiences value.audiences
  validateTokenConf value.access
  let access := buildKind value.access value.issuer
  let refresh ← value.refresh.mapM fun conf => buildRefresh conf value.issuer
  if !access.codec.canEncode && refresh.isSome then
    .error (.invalidProviderConfig "verify-only providers cannot configure refresh")
  else .ok { id, access, refresh, leewaySeconds := value.leewaySeconds, defaultAudience, audiences }

/-! ### Issuing -/

/-- The hyphenated text of a UUID: 36 bytes. -/
def UuidText := { text : String // text.utf8ByteSize = 36 }

/-- What issuing one token reads from outside: the clock for its expiry and then for its time of issue,
    and fresh identifiers. -/
structure Reads where
  expiryNow : DateTime
  issuedNow : DateTime
  tokenId : UuidText
  csrfToken : String

def issueToken (id : ProviderId) (kind : TokenKind) (user : AuthUser) (audiences : List AudienceId)
    (conf : KindRuntime) (family : Option String) (reads : Reads) : Except AuthError AuthToken :=
  match checkedAdd64 (unixSeconds reads.expiryNow) conf.ttlSeconds with
  | none => .error (.invalidProviderConfig "token expiry overflow")
  | some expiresAt =>
    .ok (AuthToken.issued
      { provider := id, kind, user, audiences, expiresAt, familyId := family, issuer := conf.issuer }
      reads.issuedNow reads.tokenId.val)

structure TokenPair where
  access : AuthToken
  refresh : Option AuthToken

/-- Constructs one local credential pair with shared family state. -/
def TokenRuntime.tokens (runtime : TokenRuntime) (user : AuthUser) (audiences : List AudienceId)
    (family : UuidText) (reads refreshReads : Reads) : Except AuthError TokenPair := do
  let family := runtime.refresh.map fun _ => family.val
  let access ← issueToken runtime.id .access user audiences runtime.access family reads
  let refresh ← runtime.refresh.mapM fun conf =>
    issueToken runtime.id .refresh user audiences conf family refreshReads
  .ok { access, refresh }

def validateCredentialSize (value : String) (limit : ℕ) : Except AuthError Unit :=
  if value.utf8ByteSize > limit then .error .invalidCredential else .ok ()

/-- `HeaderValue::try_from`: any text without control characters other than tabs. -/
def headerValue (value : String) : Except AuthError String :=
  if value.toList.all (fun c => c = '\t' || (32 ≤ c.toNat && c.toNat ≠ 127)) then .ok value
  else .error .deliveryFailed

def setCookie : String := "set-cookie"

section

variable [CookieText]

def cookieAttachment (cookie : CookieConf) (value : String) (ttlSeconds : ℤ) :
    Except AuthError (String × String) := do
  .ok (setCookie, ← headerValue (CookieText.build cookie value ttlSeconds))

def CredentialLocation.attachment (value : String) (ttlSeconds : ℤ) :
    CredentialLocation → Except AuthError (Option (String × String))
  | .cookie conf => do .ok (some (← cookieAttachment conf value ttlSeconds))
  | _ => .ok none

def responseAttachment (name value : String) : Except AuthError (String × String) :=
  match headerName name with
  | none => .error .deliveryFailed
  | some name => do .ok (name, ← headerValue value)

/-- The body value, the response attachments and the CSRF state of one credential. -/
structure Delivery where
  body : Option String
  attachments : List (String × String)
  csrf : Option (String × String × String)

/-- The header a credential is delivered in, where it is not left to the body. -/
def credentialAttachment (conf : KindRuntime) (value : String) :
    Except AuthError (Option (String × String)) :=
  match conf.responseHeader with
  | some name => do .ok (some (← responseAttachment name value))
  | none => conf.location.attachment value conf.ttlSeconds

def delivery (conf : KindRuntime) (value csrfToken : String) : Except AuthError Delivery := do
  let attachment ← credentialAttachment conf value
  let body := if attachment.isNone && !conf.location.isCookie then some value else none
  match conf.csrf with
  | none => .ok { body, attachments := attachment.toList, csrf := none }
  | some csrf =>
    let cookie ← cookieAttachment csrf.cookie csrfToken conf.ttlSeconds
    .ok { body, attachments := attachment.toList ++ [cookie],
          csrf := some (csrf.cookie.name, csrf.headerName, csrfToken) }

structure LoginResponse where
  access : String
  refresh : Option String
  accessBody : Option String
  refreshBody : Option String
  expiresIn : ℤ
  attachments : List (String × String)
  selector : CredentialLocation × Option (String × String × String)

/-- Encodes one credential within its size limit. -/
def encodeCredential (conf : KindRuntime) (token : AuthToken) : Except AuthError String := do
  let value ← conf.codec.encode token
  validateCredentialSize value conf.maxCredentialBytes
  .ok value

def encodeRefresh (conf : Option KindRuntime) (token : Option AuthToken) :
    Except AuthError (Option String) :=
  match conf, token with
  | some conf, some token => do .ok (some (← encodeCredential conf token))
  | _, _ => .ok none

/-- Delivery of the refresh credential, where there is one. -/
def refreshDelivery (conf : Option KindRuntime) (value : Option String) (csrfToken : String) :
    Except AuthError (Option String × List (String × String)) :=
  match conf, value with
  | some conf, some value => do
    let delivered ← delivery conf value csrfToken
    .ok (delivered.body, delivered.attachments)
  | _, _ => .ok (none, [])

/-- Encodes a credential pair and prepares its response. -/
def TokenRuntime.response (runtime : TokenRuntime) (pair : TokenPair) (reads refreshReads : Reads) :
    Except AuthError LoginResponse := do
  let access ← encodeCredential runtime.access pair.access
  let refresh ← encodeRefresh runtime.refresh pair.refresh
  let delivered ← delivery runtime.access access reads.csrfToken
  let (refreshBody, refreshAttachments) ← refreshDelivery runtime.refresh refresh refreshReads.csrfToken
  .ok { access, refresh, accessBody := delivered.body, refreshBody
        expiresIn := runtime.access.ttlSeconds
        attachments := delivered.attachments ++ refreshAttachments
        selector := (runtime.access.location, delivered.csrf) }

def TokenRuntime.login (runtime : TokenRuntime) (user : AuthUser) (audiences : List AudienceId)
    (family : UuidText) (reads refreshReads : Reads) : Except AuthError LoginResponse := do
  user.validate
  let pair ← runtime.tokens user audiences family reads refreshReads
  runtime.response pair reads refreshReads

/-- Issues credentials through a provider for the requested audiences. -/
def TokenRuntime.issue (runtime : TokenRuntime) (user : AuthUser) (requested : List String)
    (family : UuidText) (reads refreshReads : Reads) : Except AuthError (List AudienceId × LoginResponse) := do
  let audiences ← resolveAudiences requested runtime.defaultAudience
  if !runtime.access.codec.canEncode then .error .unsupportedProviderCapability
  else
    runtime.audiences.validateRequested audiences
    .ok (audiences, ← runtime.login user audiences family reads refreshReads)

end

/-! ### Acceptance -/

/-- A refusal, or a panic of the clock arithmetic. -/
inductive Fault
  | auth (error : AuthError)
  | panic (text : String)
  deriving DecidableEq, Repr

def orFault {α : Type} : Except AuthError α → Except Fault α
  | .ok value => .ok value
  | .error error => .error (.auth error)

/-- `chrono::Duration::seconds`. -/
def durationSeconds (seconds : ℕ) : Except Fault Duration :=
  if Duration.ofSecs seconds ≤ maxTimeDelta then .ok (Duration.ofSecs seconds)
  else .error (.panic "TimeDelta::seconds out of bounds")

def plus (time : DateTime) (duration : Duration) : Except Fault DateTime :=
  match checkedAddSigned time duration with
  | some later => .ok later
  | none => .error (.panic "`DateTime + TimeDelta` overflowed")

def minus (time : DateTime) (duration : Duration) : Except Fault DateTime :=
  match checkedSubSigned time duration with
  | some earlier => .ok earlier
  | none => .error (.panic "`DateTime - TimeDelta` overflowed")

def validateCommon (token : AuthToken) (provider : ProviderId) (leewaySeconds : ℕ) (now : DateTime) :
    Except Fault Unit := do
  if token.version ≠ 2 || token.provider.asStr ≠ provider.asStr ||
      validateStructure token ≠ .ok () then
    .error (.auth .invalidCredential)
  else
    let leeway ← durationSeconds leewaySeconds
    let issuedAt ← orFault (timestamp token.issuedAt)
    let authenticationTime ← orFault (token.authTime.mapM timestamp)
    let expiresAt ← orFault (timestamp token.expiresAt)
    let earliest ← minus now leeway
    if expiresAt ≤ earliest then .error (.auth .expiredCredential)
    else
      let notBefore ← orFault (token.notBefore.mapM timestamp)
      let latest ← plus now leeway
      if notBefore.any (fun value => value > latest) || issuedAt > latest then
        .error (.auth .credentialNotYetValid)
      else
        match authenticationTime with
        | none => .ok ()
        | some value =>
          let bound ← plus issuedAt leeway
          if value > bound then .error (.auth .credentialNotYetValid) else .ok ()

def validateToken (token : AuthToken) (provider : ProviderId) (kind : TokenKind)
    (audiences : List AudienceId) (leewaySeconds : ℕ) (issuer : Option String) (now : DateTime) :
    Except Fault Unit := do
  validateCommon token provider leewaySeconds now
  if token.kind ≠ kind then .error (.auth .wrongTokenKind)
  else if issuer.isSome && token.issuer ≠ issuer then .error (.auth .invalidCredential)
  else
    match token.audiences with
    | none => .error (.auth .audienceMismatch)
    | some tokenAudiences =>
      if audiences.any (fun audience => !tokenAudiences.contains audience) then
        .error (.auth .audienceMismatch)
      else .ok ()

def TokenRuntime.normalize (runtime : TokenRuntime) (token : AuthToken) : Except AuthError AuthToken := do
  let token ← match token.audiences, runtime.defaultAudience with
    | some _, _ => .ok token
    | none, some audience => .ok { token with audiences := some [audience] }
    | none, none => .error .audienceMismatch
  validateStructure token
  .ok token

/-- What a presented token of one kind goes through before the lifecycle and the verifier: decoding,
    normalization, structure, and the provider's own rules for one audience. -/
def TokenRuntime.accept (runtime : TokenRuntime) (conf : KindRuntime) (kind : TokenKind) (raw : String)
    (audience : AudienceId) (now : DateTime) : Except Fault Unit := do
  let token ← orFault (conf.codec.decode raw)
  let token ← orFault (runtime.normalize token)
  orFault (validateStructure token)
  validateToken token runtime.id kind [audience] runtime.leewaySeconds conf.issuer now

end Vyuh.Auth
