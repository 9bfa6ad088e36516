import Vyuh.Auth.Identity

/-! Credential locations (`auth/location.rs`): where a provider looks for its credential in a request,
    the selector a location is indexed by, and extraction through a scan that reads cookies and query
    once. A header value is its bytes, each as the character of that number. -/

namespace Vyuh.Auth

open Lib

def maxCredentialBytes : ℕ := 16 * 1024
def maxCredentialSourceBytes : ℕ := 64 * 1024

/-! ### Requests -/

/-- Request head: header names are lowercase, as the header map keeps them. -/
structure Parts where
  headers : List (String × String)
  query : Option String
  deriving DecidableEq, Repr

def Parts.getAll (parts : Parts) (name : String) : List String :=
  (parts.headers.filter fun header => header.1 = name).map Prod.snd

/-- `HeaderValue::to_str`: only visible ASCII and tabs are text. -/
def headerText (value : String) : Option String :=
  if value.toList.all (fun c => c = '\t' || (32 ≤ c.toNat && c.toNat < 127)) then some value else none

/-- A header name character (`tchar` of the HTTP grammar). -/
def isTokenChar (c : Char) : Bool :=
  isAsciiAlphanumeric c || c ∈ ['!', '#', '$', '%', '&', '*', '+', '-', '.', '^', '_', '|', '~'] ||
    c.toNat = 0x27 || c.toNat = 0x60

/-- `HeaderName::try_from`: a name of at most 65535 token characters, made lowercase. -/
def headerName (name : String) : Option String :=
  if !name.isEmpty && name.utf8ByteSize < 65536 && name.toList.all isTokenChar then
    some (name.map Char.toLower)
  else none

def authorization : String := "authorization"
def cookieHeader : String := "cookie"

/-- `str::split_once`: what stands before and after the first separator. -/
def splitOnce (separator : Char) : List Char → Option (List Char × List Char)
  | [] => none
  | c :: rest =>
    if c = separator then some ([], rest)
    else (splitOnce separator rest).map fun (before, after) => (c :: before, after)

/-- `str::trim`. -/
def trim (value : List Char) : List Char :=
  ((value.dropWhile isWhiteSpace).reverse.dropWhile isWhiteSpace).reverse

/-- The pairs of a query string, decoded by the form parser. -/
class FormUrlencoded where
  parse : String → List (String × String)

/-! ### Locations -/

inductive CookieSameSite
  | lax
  | strict
  | none
  deriving DecidableEq, Repr

structure CookieConf where
  name : String
  path : String
  httpOnly : Bool
  secure : Bool
  sameSite : CookieSameSite
  deriving DecidableEq, Repr

structure CsrfConf where
  cookie : CookieConf
  headerName : String
  deriving DecidableEq, Repr

/-- The request location from which a provider accepts one credential. -/
inductive CredentialLocation
  | header (name : String) (scheme : Option String)
  | cookie (conf : CookieConf)
  | query (name : String)
  deriving DecidableEq, Repr

def lowercase (value : String) : String := value.map Char.toLower

def validateHeader (name : String) (scheme : Option String) : Except AuthError Unit :=
  if (headerName name).isNone then .error (.invalidProviderConfig "invalid credential header name")
  else if scheme.any String.isEmpty then
    .error (.invalidProviderConfig "credential header scheme cannot be empty")
  else .ok ()

def validateCookie (cookie : CookieConf) : Except AuthError Unit :=
  if blank cookie.name || cookie.path.toList.head? ≠ some '/' then
    .error (.invalidProviderConfig "credential cookie requires a name and absolute path")
  else .ok ()

def CsrfConf.validate (csrf : CsrfConf) : Except AuthError Unit := do
  validateCookie csrf.cookie
  if csrf.cookie.httpOnly then
    .error (.invalidProviderConfig "CSRF cookies must remain readable by the client")
  else validateHeader csrf.headerName none

namespace CredentialLocation

def bearer : CredentialLocation := .header authorization (some "Bearer")

def selector : CredentialLocation → String
  | .header name scheme => "header:" ++ lowercase name ++ ":" ++ lowercase (scheme.getD "")
  | .cookie conf => "cookie:" ++ conf.name
  | .query name => "query:" ++ name

def isCookie : CredentialLocation → Bool
  | .cookie _ => true
  | _ => false

def validate : CredentialLocation → Except AuthError Unit
  | .header name scheme => validateHeader name scheme
  | .cookie conf => validateCookie conf
  | .query name =>
    if blank name then .error (.invalidProviderConfig "credential query name cannot be empty")
    else .ok ()

end CredentialLocation

/-! ### Extraction -/

/-- The credential behind an authentication scheme. -/
def schemeCredential (scheme value : String) : Option String :=
  match splitOnce ' ' value.toList with
  | some (actual, raw) =>
    if lowercase (String.ofList actual) = lowercase scheme && !raw.isEmpty then some (String.ofList raw)
    else none
  | none => none

def extractHeader (parts : Parts) (name : Option String) (scheme : Option String) :
    Except AuthError (Option String) :=
  match name with
  | none => .error .malformedLocation
  | some name =>
    match parts.getAll name with
    | [] => .ok none
    | [value] =>
      match headerText value with
      | none => .error .malformedLocation
      | some value =>
        match scheme.elim (some value) (fun scheme => schemeCredential scheme value) with
        | none => .error .malformedLocation
        | some raw => if raw.isEmpty then .error .malformedLocation else .ok (some raw)
    | _ => .error .malformedLocation

/-- Inserts a name once; a name that comes again loses its value. -/
def insertValue (values : List (String × Option String)) (name : String) (value : Option String) :
    List (String × Option String) :=
  if values.any (fun entry => entry.1 = name) then
    values.map fun entry => if entry.1 = name then (entry.1, none) else entry
  else values ++ [(name, value)]

structure ParsedCookies where
  values : List (String × Option String)
  malformed : Bool
  deriving DecidableEq, Repr

/-- One item of a cookie header: a name without a value is kept as malformed, nothing is passed over. -/
def parseCookieItem (values : List (String × Option String)) (item : List Char) :
    List (String × Option String) :=
  let item := trim item
  match splitOnce '=' item with
  | none => if item.isEmpty then values else insertValue values (String.ofList item) none
  | some (name, value) =>
    insertValue values (String.ofList name) (if value.isEmpty then none else some (String.ofList value))

/-- Reads the cookie headers in turn until they are more than the limit. -/
def parseCookieHeaders : List String → ℕ → ParsedCookies → ParsedCookies
  | [], _, output => output
  | header :: headers, scanned, output =>
    let scanned := saturatingAddUsize scanned header.length
    if scanned > maxCredentialSourceBytes then { output with malformed := true }
    else
      match headerText header with
      | none => parseCookieHeaders headers scanned { output with malformed := true }
      | some text =>
        parseCookieHeaders headers scanned
          { output with values := (text.toList.splitOn ';').foldl parseCookieItem output.values }

def parseCookies (parts : Parts) : ParsedCookies :=
  parseCookieHeaders (parts.getAll cookieHeader) 0 ⟨[], false⟩

structure ParsedQuery where
  values : List (String × Option String)
  malformed : Bool
  deriving DecidableEq, Repr

def parseQuery [FormUrlencoded] (parts : Parts) : ParsedQuery :=
  match parts.query with
  | none => ⟨[], false⟩
  | some query =>
    if query.utf8ByteSize > maxCredentialSourceBytes then ⟨[], true⟩
    else
      ⟨(FormUrlencoded.parse query).foldl (fun values (name, value) =>
        insertValue values name (if value.isEmpty then none else some value)) [], false⟩

/-- The value a scan holds for a name. -/
def selected (values : List (String × Option String)) (name : String) : Except AuthError (Option String) :=
  match values.find? (fun entry => entry.1 = name) with
  | none => .ok none
  | some (_, some value) => .ok (some value)
  | some (_, none) => .error .malformedLocation

def scanCookie (parts : Parts) (name : String) : Except AuthError (Option String) :=
  if (parseCookies parts).malformed then .error .malformedLocation
  else selected (parseCookies parts).values name

def scanQuery [FormUrlencoded] (parts : Parts) (name : String) : Except AuthError (Option String) :=
  if (parseQuery parts).malformed then .error .malformedLocation
  else selected (parseQuery parts).values name

def validateExtractedSize (value : Option String) : Except AuthError (Option String) :=
  if value.any (fun value => value.utf8ByteSize > maxCredentialBytes) then .error .malformedLocation
  else .ok value

/-- Whether the request presents a non-empty Authorization credential. -/
def hasAuthorization (parts : Parts) : Bool :=
  (parts.getAll authorization).any fun value => !value.isEmpty

/-- Extraction of a location through the request scan. -/
def CredentialLocation.extractFrom [FormUrlencoded] (parts : Parts) :
    CredentialLocation → Except AuthError (Option String)
  | .header name scheme => do validateExtractedSize (← extractHeader parts (headerName name) scheme)
  | .cookie conf => do validateExtractedSize (← scanCookie parts conf.name)
  | .query name => do validateExtractedSize (← scanQuery parts name)

end Vyuh.Auth
