import Vyuh.Auth.Runtime.TokenRuntime

/-! The provider registry (`auth/runtime/registry.rs`, `auth/runtime/build.rs`) and the selection of one
    access credential (`auth/runtime.rs`). What a provider does with the credential it is handed, and
    whether its own settings let it be built, are parameters. -/

namespace Vyuh.Auth

open Lib

structure AuthKey where
  location : CredentialLocation
  audiences : Option (List String)

structure OAuthResourceServer where
  location : CredentialLocation
  routeAudiences : List String

structure IdToken where
  location : CredentialLocation
  resources : List String

inductive ProviderKind
  | token (value : TokenProvider)
  | key (value : AuthKey)
  | oauth (value : OAuthResourceServer)
  | idToken (value : IdToken)

namespace ProviderKind

def accessLocation : ProviderKind → CredentialLocation
  | .token value => value.access.location
  | .key value => value.location
  | .oauth value => value.location
  | .idToken value => value.location

def refreshLocation : ProviderKind → Option CredentialLocation
  | .token value => value.refresh.map TokenConf.location
  | _ => none

/-- One definition's static local route-audience coverage. -/
def audiences : ProviderKind → Except AuthError ProviderAudienceSet
  | .token value => providerAudiences value.audiences
  | .key value => providerAudiences value.audiences
  | .oauth value => resourceAudiences value.routeAudiences
  | .idToken value => resourceAudiences value.resources

end ProviderKind

structure ProviderDefinition where
  name : String
  kind : ProviderKind

/-- The checks on one definition, given those registered after it. -/
def validateDefinition (value : ProviderDefinition) (later : List ProviderDefinition) :
    Except AuthError Unit := do
  let id ← ProviderId.new value.name
  let _ ← value.kind.audiences
  value.kind.accessLocation.validate
  value.kind.refreshLocation.elim (.ok ()) CredentialLocation.validate
  if later.any (fun other => other.name = value.name) then .error (.duplicateProvider id.asStr)
  else .ok ()

def validateEach : List ProviderDefinition → Except AuthError Unit
  | [] => .ok ()
  | value :: later => do
    validateDefinition value later
    validateEach later

/-- The selector and coverage one definition is indexed under. -/
def definitionSelector (value : ProviderDefinition) : Except AuthError (String × ProviderAudienceSet) := do
  .ok (value.kind.accessLocation.selector, ← value.kind.audiences)

def validateDefinitions (values : List ProviderDefinition) : Except AuthError Unit :=
  if values.length > 64 then
    .error (.invalidProviderConfig "at most 64 authentication providers may be registered")
  else do
    validateEach values
    validateAccessSelectors (← values.mapM definitionSelector)

/-- What the dispatch reads of a provider at run time. -/
structure ProviderRuntime where
  id : ProviderId
  accessLocation : CredentialLocation
  audiences : ProviderAudienceSet

structure Authenticator where
  providers : List ProviderRuntime
  index : AccessIndex

/-- What else building a provider checks or asks others for: its CSRF settings, limits and lifetimes, the
    keys of its codec, the discovery of an OAuth or ID-token issuer. -/
class ProviderBuild where
  finish : ProviderDefinition → Except AuthError Unit

def prepareProvider [ProviderBuild] (value : ProviderDefinition) : Except AuthError ProviderRuntime := do
  let id ← ProviderId.new value.name
  ProviderBuild.finish value
  .ok { id, accessLocation := value.kind.accessLocation, audiences := ← value.kind.audiences }

namespace Authenticator

def new [ProviderBuild] (definitions : List ProviderDefinition) : Except AuthError Authenticator := do
  validateDefinitions definitions
  let providers ← definitions.mapM prepareProvider
  let index ← AccessIndex.empty.build 0
    (providers.map fun provider => (provider.accessLocation.selector, provider.audiences))
  .ok { providers, index }

def providerAt (auth : Authenticator) (position : ℕ) : Except AuthError ProviderRuntime :=
  match auth.providers[position]? with
  | some provider => .ok provider
  | none => .error (.internal "authentication provider index is invalid")

/-- Looks for a credential at one provider's location; a second one is refused. -/
def scanProvider [FormUrlencoded] (auth : Authenticator) (parts : Parts)
    (selected : Option (ℕ × String)) (position : ℕ) : Except AuthError (Option (ℕ × String)) := do
  let provider ← auth.providerAt position
  match ← provider.accessLocation.extractFrom parts with
  | none => .ok selected
  | some raw => if selected.isSome then .error .malformedLocation else .ok (some (position, raw))

/-- Selects one access credential and hands it to its provider. -/
def authenticate [FormUrlencoded] {α : Type} (auth : Authenticator)
    (verify : ℕ → String → Except AuthError α) (parts : Parts) (audience : AudienceId) :
    Except AuthError α := do
  match ← (auth.index.accessFor audience).foldlM (auth.scanProvider parts) none with
  | none => .error .noCredential
  | some (position, raw) =>
    let provider ← auth.providerAt position
    if provider.accessLocation.isCookie && hasAuthorization parts then .error .malformedLocation
    else verify position raw

end Authenticator

end Vyuh.Auth
