import Vyuh.Auth.Runtime.Registry

/-! Which provider a credential is handed to. The dispatch extracts at the location of every provider of
    the audience, so that the credential of one provider reaches it exactly when extraction at all the
    others finds nothing; this is compared with what the request really carries. -/

namespace Vyuh.Auth

open Lib

/-! ### What a location reads -/

/-- The part of a request a location reads. Headers are read whole, whatever the scheme. -/
inductive Source
  | header (name : String)
  | cookie (name : String)
  | query (name : String)
  deriving DecidableEq, Repr

def CredentialLocation.source : CredentialLocation → Source
  | .header name _ => .header (lowercase name)
  | .cookie conf => .cookie conf.name
  | .query name => .query name

section

variable [FormUrlencoded] (parts : Parts)

/-- Whether a request has nothing at a source. -/
def Source.absent : Source → Bool
  | .header name => (parts.getAll name).isEmpty
  | .cookie name => (parseCookies parts).values.all fun entry => entry.1 ≠ name
  | .query name => (parseQuery parts).values.all fun entry => entry.1 ≠ name

/-- Cookie headers are text and within the limit on credential sources. -/
def cookiesReadable : Bool :=
  (parts.getAll cookieHeader).all (fun header => (headerText header).isSome) &&
    ((parts.getAll cookieHeader).map String.length).sum ≤ maxCredentialSourceBytes

/-- The query is within the limit on credential sources. -/
def queryReadable : Bool := !parts.query.any fun query => query.utf8ByteSize > maxCredentialSourceBytes

/-- Whether the request can be read where a source stands. -/
def Source.readable : Source → Bool
  | .header _ => true
  | .cookie _ => cookiesReadable parts
  | .query _ => queryReadable parts

end

/-- Cookies are malformed exactly when their headers cannot be read. -/
theorem parseCookieHeaders_malformed (headers : List String) (scanned : ℕ) (output : ParsedCookies)
    (hscanned : scanned ≤ maxCredentialSourceBytes) :
    (parseCookieHeaders headers scanned output).malformed = true ↔
      output.malformed = true ∨ (∃ header ∈ headers, headerText header = none) ∨
        maxCredentialSourceBytes < scanned + (headers.map String.length).sum := by
  induction headers generalizing scanned output with
  | nil => simp [parseCookieHeaders, hscanned]
  | cons header headers ih =>
    have hsaturate : saturatingAddUsize scanned header.length > maxCredentialSourceBytes ↔
        maxCredentialSourceBytes < scanned + header.length := by
      simp only [saturatingAddUsize, usizeMax, maxCredentialSourceBytes]
      omega
    rw [parseCookieHeaders, List.map_cons, List.sum_cons]
    by_cases hlong : maxCredentialSourceBytes < scanned + header.length
    · rw [if_pos (hsaturate.mpr hlong)]
      exact ⟨fun _ => .inr (.inr (by omega)), fun _ => rfl⟩
    · rw [if_neg (fun h => hlong (hsaturate.mp h))]
      have hadd : saturatingAddUsize scanned header.length = scanned + header.length := by
        simp only [saturatingAddUsize, usizeMax, maxCredentialSourceBytes] at hlong ⊢
        omega
      rw [hadd]
      cases htext : headerText header with
      | none =>
        simp [ih (scanned + header.length) _ (by omega), htext]
      | some text =>
        simp [ih (scanned + header.length) _ (by omega), htext, Nat.add_assoc]

theorem parseCookies_malformed {parts : Parts} :
    (parseCookies parts).malformed = !cookiesReadable parts := by
  have h := parseCookieHeaders_malformed (parts.getAll cookieHeader) 0 ⟨[], false⟩ (Nat.zero_le _)
  rw [Bool.eq_iff_iff, parseCookies, h, cookiesReadable]
  simp only [Bool.not_eq_true', Bool.and_eq_false_iff, List.all_eq_false, decide_eq_false_iff_not]
  simp

theorem parseQuery_malformed [FormUrlencoded] {parts : Parts} :
    (parseQuery parts).malformed = !queryReadable parts := by
  rw [parseQuery, queryReadable]
  cases parts.query with
  | none => rfl
  | some query =>
    by_cases hlong : query.utf8ByteSize > maxCredentialSourceBytes
    · simp [hlong]
    · simp [hlong]

theorem selected_eq_none {values : List (String × Option String)} {name : String} :
    selected values name = .ok none ↔ values.all (fun entry => entry.1 ≠ name) = true := by
  rw [selected]
  cases hfind : values.find? (fun entry => entry.1 = name) with
  | none =>
    simp only [List.find?_eq_none, decide_eq_true_eq] at hfind
    simpa using hfind
  | some entry =>
    obtain ⟨key, value⟩ := entry
    have hkey : key = name := of_decide_eq_true (List.find?_some hfind :)
    have hmem := List.mem_of_find?_eq_some hfind
    have hpresent : ¬ values.all (fun entry => entry.1 ≠ name) = true := fun hall =>
      of_decide_eq_true (List.all_eq_true.mp hall _ hmem) hkey
    cases value with
    | none => exact ⟨fun h => (nomatch h), fun h => absurd h hpresent⟩
    | some value => exact ⟨fun h => (nomatch Except.ok.inj h), fun h => absurd h hpresent⟩

theorem validateExtractedSize_eq_none {value : Option String} :
    validateExtractedSize value = .ok none ↔ value = none := by
  rw [validateExtractedSize, Step.except_check_ok]
  constructor
  · rintro ⟨-, h⟩
    exact Except.ok.inj h
  · rintro rfl
    exact ⟨by simp, rfl⟩

theorem extractHeader_eq_none {parts : Parts} {name : String} {scheme : Option String} :
    extractHeader parts (some name) scheme = .ok none ↔ parts.getAll name = [] := by
  rw [extractHeader]
  match hvalues : parts.getAll name with
  | [] => exact ⟨fun _ => rfl, fun _ => rfl⟩
  | [value] =>
    refine ⟨fun h => ?_, fun h => nomatch h⟩
    dsimp only at h
    split at h
    · exact nomatch h
    · split at h
      · exact nomatch h
      · split at h
        · exact nomatch h
        · exact nomatch Except.ok.inj h
  | _ :: _ :: _ => exact ⟨fun h => (nomatch h), fun h => nomatch h⟩

theorem headerName_of_validate {name : String} {scheme : Option String}
    (h : validateHeader name scheme = .ok ()) : headerName name = some (lowercase name) := by
  rw [validateHeader, Step.except_check_ok, headerName] at h
  rw [headerName]
  split at h
  next hvalid => rw [if_pos hvalid]; rfl
  next hvalid => exact absurd rfl h.1

/-- Extraction at a valid location finds nothing exactly where its source is readable and empty. -/
theorem CredentialLocation.extractFrom_eq_none [FormUrlencoded] {parts : Parts}
    {location : CredentialLocation} (hvalid : location.validate = .ok ()) :
    location.extractFrom parts = .ok none ↔
      location.source.absent parts = true ∧ location.source.readable parts = true := by
  cases location with
  | header name scheme =>
    have hname : headerName name = some (lowercase name) := headerName_of_validate hvalid
    rw [extractFrom, Step.except_bind_ok, hname]
    simp only [validateExtractedSize_eq_none, exists_eq_right, extractHeader_eq_none, source,
      Source.absent, Source.readable, List.isEmpty_iff, and_true]
  | cookie conf =>
    rw [extractFrom, Step.except_bind_ok]
    simp only [validateExtractedSize_eq_none, exists_eq_right, scanCookie, Step.except_check_ok,
      parseCookies_malformed, selected_eq_none, source, Source.absent, Source.readable]
    simp [and_comm]
  | query name =>
    rw [extractFrom, Step.except_bind_ok]
    simp only [validateExtractedSize_eq_none, exists_eq_right, scanQuery, Step.except_check_ok,
      parseQuery_malformed, selected_eq_none, source, Source.absent, Source.readable]
    simp [and_comm]

/-- Whether two locations read one header, under whatever schemes. -/
def CredentialLocation.sharesHeader : CredentialLocation → CredentialLocation → Bool
  | .header name _, .header name' _ => lowercase name = lowercase name'
  | _, _ => false

/-- Locations of one source share a header or have one selector. -/
theorem CredentialLocation.source_eq {location other : CredentialLocation}
    (h : location.source = other.source) :
    location.sharesHeader other = true ∨ location.selector = other.selector := by
  cases location with
  | header name scheme =>
    cases other with
    | header name' scheme' => exact .inl (decide_eq_true (Source.header.inj h))
    | cookie conf => exact nomatch h
    | query name' => exact nomatch h
  | cookie conf =>
    cases other with
    | cookie conf' => exact .inr (congrArg ("cookie:" ++ ·) (Source.cookie.inj h))
    | header name scheme => exact nomatch h
    | query name => exact nomatch h
  | query name =>
    cases other with
    | query name' => exact .inr (congrArg ("query:" ++ ·) (Source.query.inj h))
    | header name scheme => exact nomatch h
    | cookie conf => exact nomatch h

theorem CredentialLocation.source_of_sharesHeader {location other : CredentialLocation}
    (h : location.sharesHeader other = true) : location.source = other.source := by
  cases location with
  | header name scheme =>
    cases other with
    | header name' scheme' => exact congrArg Source.header (of_decide_eq_true h)
    | cookie conf => exact nomatch h
    | query name' => exact nomatch h
  | cookie conf => exact nomatch h
  | query name => exact nomatch h

/-! ### Requests with one credential -/

/-- Whether a provider may authenticate an audience. -/
def ProviderDefinition.covers (value : ProviderDefinition) (audience : AudienceId) : Bool :=
  match value.kind.audiences with
  | .ok audiences => audiences.supports audience
  | .error _ => false

/-- A request that carries one credential: `raw`, at the location of the provider at `position`. Nothing
    stands where another provider of the audience reads, unless it reads at that same place, and no
    Authorization header comes with a cookie. -/
structure Carries [FormUrlencoded] (definitions : List ProviderDefinition) (audience : AudienceId)
    (parts : Parts) (position : ℕ) (value : ProviderDefinition) (raw : String) : Prop where
  registered : definitions[position]? = some value
  covers : value.covers audience = true
  extracted : value.kind.accessLocation.extractFrom parts = .ok (some raw)
  others : ∀ (other : ℕ) (value' : ProviderDefinition), definitions[other]? = some value' →
    value'.covers audience = true →
    value'.kind.accessLocation.source ≠ value.kind.accessLocation.source →
    value'.kind.accessLocation.source.absent parts = true
  bare : value.kind.accessLocation.isCookie = true → hasAuthorization parts = false

/-- No other provider of the audience reads the header the credential stands in, and each can read the
    part of the request it looks at. -/
def Undisturbed [FormUrlencoded] (definitions : List ProviderDefinition) (audience : AudienceId)
    (parts : Parts) (position : ℕ) (value : ProviderDefinition) : Prop :=
  ∀ (other : ℕ) (value' : ProviderDefinition), definitions[other]? = some value' →
    value'.covers audience = true → other ≠ position →
    value.kind.accessLocation.sharesHeader value'.kind.accessLocation = false ∧
    value'.kind.accessLocation.source.readable parts = true

/-! ### The selection loop -/

namespace Authenticator

section

variable [FormUrlencoded] {auth : Authenticator} {parts : Parts}

/-- What is found at the location of the provider at a position. -/
def extractAt (auth : Authenticator) (parts : Parts) (position : ℕ) : Except AuthError (Option String) := do
  let provider ← auth.providerAt position
  provider.accessLocation.extractFrom parts

theorem scanProvider_eq (selected : Option (ℕ × String)) (position : ℕ) :
    auth.scanProvider parts selected position = (do
      match ← auth.extractAt parts position with
      | none => .ok selected
      | some raw =>
        if selected.isSome then .error .malformedLocation else .ok (some (position, raw))) := by
  rw [scanProvider, extractAt]
  cases auth.providerAt position with
  | error error => rfl
  | ok provider => rfl

/-- After a first credential, the scan goes through exactly when nothing else is found. -/
theorem scan_from_some (positions : List ℕ) {found : ℕ × String} {result : Option (ℕ × String)} :
    positions.foldlM (auth.scanProvider parts) (some found) = .ok result ↔
      result = some found ∧ ∀ position ∈ positions, auth.extractAt parts position = .ok none := by
  induction positions with
  | nil =>
    rw [List.foldlM_nil]
    constructor
    · intro h
      exact ⟨(Except.ok.inj h).symm, fun _ hmem => nomatch hmem⟩
    · rintro ⟨rfl, -⟩
      rfl
  | cons position rest ih =>
    rw [List.foldlM_cons, List.forall_mem_cons, scanProvider_eq]
    cases hat : auth.extractAt parts position with
    | error error => exact ⟨fun h => (nomatch h), fun h => nomatch h.2.1⟩
    | ok extracted =>
      cases extracted with
      | some raw => exact ⟨fun h => (nomatch h), fun h => nomatch Except.ok.inj h.2.1⟩
      | none =>
        refine ih.trans ⟨?_, ?_⟩
        · rintro ⟨hresult, hrest⟩
          exact ⟨hresult, rfl, hrest⟩
        · rintro ⟨hresult, -, hrest⟩
          exact ⟨hresult, hrest⟩

/-- The scan ends with one provider's credential exactly when nothing is found at the others. -/
theorem scan_from_none {position : ℕ} {raw : String}
    (hat : auth.extractAt parts position = .ok (some raw)) (positions : List ℕ) (hnodup : positions.Nodup)
    (hmem : position ∈ positions) :
    positions.foldlM (auth.scanProvider parts) none = .ok (some (position, raw)) ↔
      ∀ other ∈ positions, other ≠ position → auth.extractAt parts other = .ok none := by
  induction positions with
  | nil => exact nomatch hmem
  | cons first rest ih =>
    obtain ⟨hfirst, hrest⟩ := List.nodup_cons.mp hnodup
    rw [List.foldlM_cons, List.forall_mem_cons, scanProvider_eq]
    by_cases heq : first = position
    · subst heq
      rw [hat]
      refine (scan_from_some rest).trans ⟨?_, ?_⟩
      · rintro ⟨-, hnone⟩
        exact ⟨fun hne => absurd rfl hne, fun other hother _ => hnone other hother⟩
      · rintro ⟨-, hnone⟩
        refine ⟨rfl, fun other hother => hnone other hother ?_⟩
        rintro rfl
        exact hfirst hother
    · have hlater : position ∈ rest := (List.mem_cons.mp hmem).resolve_left (Ne.symm heq)
      cases hextract : auth.extractAt parts first with
      | error error => exact ⟨fun h => (nomatch h), fun h => nomatch h.1 heq⟩
      | ok extracted =>
        cases extracted with
        | none =>
          refine (ih hrest hlater).trans ⟨?_, ?_⟩
          · intro hnone
            exact ⟨fun _ => rfl, hnone⟩
          · rintro ⟨-, hnone⟩
            exact hnone
        | some other =>
          refine ⟨fun h => ?_, fun h => nomatch Except.ok.inj (h.1 heq)⟩
          -- another credential was taken first, and is still the selected one at the end
          obtain ⟨hresult, -⟩ := (scan_from_some rest).mp h
          cases hresult
          exact absurd rfl heq

/-- A credential goes to its provider, whatever that does with it, exactly when the scan selects it. -/
theorem authenticate_iff {audience : AudienceId} {position : ℕ} {raw : String} {provider : ProviderRuntime}
    (hprovider : auth.providerAt position = .ok provider)
    (hbare : provider.accessLocation.isCookie = true → hasAuthorization parts = false) :
    (∀ (α : Type) (verify : ℕ → String → Except AuthError α),
      auth.authenticate verify parts audience = verify position raw) ↔
    (auth.index.accessFor audience).foldlM (auth.scanProvider parts) none = .ok (some (position, raw)) := by
  constructor
  · intro hall
    have h := hall Unit fun other text =>
      if (other, text) = (position, raw) then .ok () else .error .noCredential
    rw [if_pos rfl, authenticate, Step.except_bind_ok] at h
    obtain ⟨selected, hscan, h⟩ := h
    rw [hscan]
    cases selected with
    | none => exact nomatch h
    | some found =>
      obtain ⟨other, text⟩ := found
      obtain ⟨_, -, h⟩ := Step.except_bind_ok.mp h
      obtain ⟨-, h⟩ := Step.except_check_ok.mp h
      split at h
      next heq => rw [heq]
      next => exact nomatch h
  · intro hscan α verify
    have hmode : (provider.accessLocation.isCookie && hasAuthorization parts) = false := by
      rw [Bool.and_eq_false_imp]
      exact hbare
    rw [authenticate, hscan]
    change (do
      let provider ← auth.providerAt position
      if provider.accessLocation.isCookie && hasAuthorization parts then .error .malformedLocation
      else verify position raw) = _
    rw [hprovider]
    exact if_neg (by rw [hmode]; exact Bool.false_ne_true)

end

end Authenticator

/-! ### Registered providers -/

theorem validateEach_ok {definitions : List ProviderDefinition} (h : validateEach definitions = .ok ())
    {value : ProviderDefinition} (hmem : value ∈ definitions) :
    (∃ id, ProviderId.new value.name = .ok id) ∧ (∃ audiences, value.kind.audiences = .ok audiences) ∧
      value.kind.accessLocation.validate = .ok () := by
  induction definitions with
  | nil => exact nomatch hmem
  | cons first later ih =>
    obtain ⟨_, hfirst, hlater⟩ := Step.except_bind_ok.mp h
    rcases List.mem_cons.mp hmem with rfl | hmem
    · obtain ⟨id, hid, hfirst⟩ := Step.except_bind_ok.mp hfirst
      obtain ⟨audiences, haudiences, hfirst⟩ := Step.except_bind_ok.mp hfirst
      obtain ⟨_, hlocation, -⟩ := Step.except_bind_ok.mp hfirst
      exact ⟨⟨id, hid⟩, ⟨audiences, haudiences⟩, hlocation⟩
    · exact ih hlater hmem

section

variable [ProviderBuild]

theorem prepareProvider_ok {value : ProviderDefinition} {provider : ProviderRuntime}
    (h : prepareProvider value = .ok provider) :
    provider.accessLocation = value.kind.accessLocation ∧ value.kind.audiences = .ok provider.audiences := by
  obtain ⟨id, -, h⟩ := Step.except_bind_ok.mp h
  obtain ⟨_, -, h⟩ := Step.except_bind_ok.mp h
  obtain ⟨audiences, haudiences, h⟩ := Step.except_bind_ok.mp h
  cases h
  exact ⟨rfl, haudiences⟩

/-- What the dispatch relies on of an authenticator made from valid definitions. -/
structure Authenticator.Made (auth : Authenticator) (definitions : List ProviderDefinition) : Prop where
  providers : ∀ position : ℕ, Option.Rel (fun value provider => prepareProvider value = .ok provider)
    definitions[position]? auth.providers[position]?
  index : auth.index.Indexes
    (auth.providers.map fun provider => (provider.accessLocation.selector, provider.audiences))
  locations : ∀ value ∈ definitions, value.kind.accessLocation.validate = .ok ()

theorem Authenticator.new_of_valid {definitions : List ProviderDefinition}
    (h : validateDefinitions definitions = .ok ())
    (hbuild : ∀ value ∈ definitions, ProviderBuild.finish value = .ok ()) :
    ∃ auth, Authenticator.new definitions = .ok auth ∧ auth.Made definitions := by
  obtain ⟨-, hchecks⟩ := Step.except_check_ok.mp h
  obtain ⟨_, heach, hchecks⟩ := Step.except_bind_ok.mp hchecks
  obtain ⟨values, hvalues, hselectors⟩ := Step.except_bind_ok.mp hchecks
  obtain ⟨index, hindex, -⟩ := Step.except_bind_ok.mp hselectors
  have hprepare : ∀ value ∈ definitions, ∃ provider, prepareProvider value = .ok provider := by
    intro value hmem
    obtain ⟨⟨id, hid⟩, ⟨audiences, haudiences⟩, -⟩ := validateEach_ok heach hmem
    exact ⟨_, Step.except_bind_ok.mpr ⟨id, hid, Step.except_bind_ok.mpr ⟨(), hbuild value hmem,
      Step.except_bind_ok.mpr ⟨audiences, haudiences, rfl⟩⟩⟩⟩
  obtain ⟨providers, hproviders⟩ := Step.except_mapM_total hprepare
  -- the index of the providers is the one the selectors were validated with
  have hsame : values =
      providers.map fun provider => (provider.accessLocation.selector, provider.audiences) := by
    refine Except.ok.inj (hvalues.symm.trans (Step.except_mapM_map _ _ ?_ hproviders))
    intro value provider hprovider
    obtain ⟨hlocation, haudiences⟩ := prepareProvider_ok hprovider
    refine Step.except_bind_ok.mpr ⟨_, haudiences, ?_⟩
    rw [hlocation]
  subst hsame
  refine ⟨⟨providers, index⟩, ?_, ?_, ?_, ?_⟩
  · exact Step.except_bind_ok.mpr ⟨(), h, Step.except_bind_ok.mpr ⟨providers, hproviders,
      Step.except_bind_ok.mpr ⟨index, hindex, rfl⟩⟩⟩
  · exact Step.except_mapM_rel hproviders
  · exact AccessIndex.build_indexes [] _ AccessIndex.empty_indexes hindex
  · exact fun value hmem => (validateEach_ok heach hmem).2.2

namespace Authenticator.Made

variable {auth : Authenticator} {definitions : List ProviderDefinition} {position : ℕ}
  {value : ProviderDefinition} {audience : AudienceId}

theorem provider (h : auth.Made definitions) (hvalue : definitions[position]? = some value) :
    ∃ provider, auth.providers[position]? = some provider ∧ prepareProvider value = .ok provider := by
  have hrel := h.providers position
  rw [hvalue] at hrel
  cases hprovider : auth.providers[position]? with
  | none =>
    rw [hprovider] at hrel
    exact nomatch hrel
  | some provider =>
    rw [hprovider] at hrel
    cases hrel with
    | some hprepare => exact ⟨provider, rfl, hprepare⟩

theorem providerAt (h : auth.Made definitions) (hvalue : definitions[position]? = some value) :
    ∃ provider, auth.providerAt position = .ok provider ∧
      provider.accessLocation = value.kind.accessLocation := by
  obtain ⟨provider, hprovider, hprepare⟩ := h.provider hvalue
  refine ⟨provider, ?_, (prepareProvider_ok hprepare).1⟩
  rw [Authenticator.providerAt, hprovider]

theorem extractAt [FormUrlencoded] (h : auth.Made definitions) (hvalue : definitions[position]? = some value)
    (parts : Parts) : auth.extractAt parts position = value.kind.accessLocation.extractFrom parts := by
  obtain ⟨provider, hprovider, hlocation⟩ := h.providerAt hvalue
  rw [Authenticator.extractAt, hprovider, ← hlocation]
  rfl

/-- The entry a definition is indexed under. -/
theorem entry (h : auth.Made definitions) (hvalue : definitions[position]? = some value)
    (hcovers : value.covers audience = true) :
    ∃ audiences : ProviderAudienceSet, audiences.supports audience = true ∧
      (auth.providers.map fun provider => (provider.accessLocation.selector, provider.audiences))[position]? =
        some (value.kind.accessLocation.selector, audiences) := by
  obtain ⟨provider, hprovider, hprepare⟩ := h.provider hvalue
  obtain ⟨hlocation, haudiences⟩ := prepareProvider_ok hprepare
  refine ⟨provider.audiences, ?_, ?_⟩
  · rw [ProviderDefinition.covers, haudiences] at hcovers
    exact hcovers
  · rw [List.getElem?_map, hprovider, ← hlocation]
    rfl

theorem mem_accessFor (h : auth.Made definitions) :
    position ∈ auth.index.accessFor audience ↔
      ∃ value, definitions[position]? = some value ∧ value.covers audience = true := by
  rw [h.index.mem_accessFor]
  constructor
  · rintro ⟨selector, audiences, hat, hsupports⟩
    rw [List.getElem?_map] at hat
    obtain ⟨provider, hprovider, heq⟩ := Option.map_eq_some_iff.mp hat
    cases heq
    have hrel := h.providers position
    rw [hprovider] at hrel
    cases hvalue : definitions[position]? with
    | none =>
      rw [hvalue] at hrel
      exact nomatch hrel
    | some value =>
      rw [hvalue] at hrel
      cases hrel with
      | some hprepare =>
        refine ⟨value, rfl, ?_⟩
        rw [ProviderDefinition.covers, (prepareProvider_ok hprepare).2]
        exact hsupports
  · rintro ⟨value, hvalue, hcovers⟩
    obtain ⟨audiences, hsupports, hat⟩ := h.entry hvalue hcovers
    exact ⟨_, audiences, hat, hsupports⟩

/-- Where another provider of the audience looks, nothing is found exactly when it does not disturb. -/
theorem other_eq_none [FormUrlencoded] {parts : Parts} {raw : String} (h : auth.Made definitions)
    (hcarries : Carries definitions audience parts position value raw) {other : ℕ}
    {value' : ProviderDefinition} (hvalue : definitions[other]? = some value')
    (hcovers : value'.covers audience = true) (hother : other ≠ position) :
    auth.extractAt parts other = .ok none ↔
      value.kind.accessLocation.sharesHeader value'.kind.accessLocation = false ∧
      value'.kind.accessLocation.source.readable parts = true := by
  have hvalid : ∀ {position : ℕ} {value : ProviderDefinition}, definitions[position]? = some value →
      value.kind.accessLocation.validate = .ok () := fun hat => h.locations _ (List.mem_of_getElem? hat)
  rw [h.extractAt hvalue, CredentialLocation.extractFrom_eq_none (hvalid hvalue)]
  refine and_congr_left fun hreadable => ⟨fun habsent => ?_, fun hshares => ?_⟩
  · -- the credential stands at the shared source, which is then not absent
    rw [← Bool.not_eq_true]
    intro hshares
    have hsource := CredentialLocation.source_of_sharesHeader hshares
    have hnone := (CredentialLocation.extractFrom_eq_none (hvalid hcarries.registered)).mpr
      ⟨hsource ▸ habsent, hsource ▸ hreadable⟩
    exact nomatch hcarries.extracted.symm.trans hnone
  · refine hcarries.others other value' hvalue hcovers fun hsource => ?_
    rcases CredentialLocation.source_eq hsource.symm with hheader | hselector
    · exact absurd hheader (by rw [hshares]; exact Bool.false_ne_true)
    · obtain ⟨audiences, hsupports, hat⟩ := h.entry hcarries.registered hcarries.covers
      obtain ⟨audiences', hsupports', hat'⟩ := h.entry hvalue hcovers
      rw [← hselector] at hat'
      exact hother (h.index.selector_unique hat' hsupports' hat hsupports)

end Authenticator.Made

/-- A request's one credential is handed to the provider at whose location it stands, whatever that
    provider does with it, exactly when no other provider of the audience reads the same header or cannot
    read its part of the request. -/
theorem credential_reaches_its_provider_iff [FormUrlencoded] {definitions : List ProviderDefinition}
    (hvalid : validateDefinitions definitions = .ok ())
    (hbuild : ∀ value ∈ definitions, ProviderBuild.finish value = .ok ()) :
    ∃ auth, Authenticator.new definitions = .ok auth ∧
      ∀ audience parts position value raw, Carries definitions audience parts position value raw →
        ((∀ (α : Type) (verify : ℕ → String → Except AuthError α),
          auth.authenticate verify parts audience = verify position raw) ↔
        Undisturbed definitions audience parts position value) := by
  obtain ⟨auth, hnew, hmade⟩ := Authenticator.new_of_valid hvalid hbuild
  refine ⟨auth, hnew, ?_⟩
  intro audience parts position value raw hcarries
  obtain ⟨provider, hprovider, hlocation⟩ := hmade.providerAt hcarries.registered
  have hat := (hmade.extractAt hcarries.registered parts).trans hcarries.extracted
  rw [Authenticator.authenticate_iff hprovider (hlocation ▸ hcarries.bare),
    Authenticator.scan_from_none hat _ hmade.index.nodup_accessFor
      (hmade.mem_accessFor.mpr ⟨value, hcarries.registered, hcarries.covers⟩)]
  constructor
  · intro hnone other value' hvalue hcovers hother
    refine (hmade.other_eq_none hcarries hvalue hcovers hother).mp (hnone other ?_ hother)
    exact hmade.mem_accessFor.mpr ⟨value', hvalue, hcovers⟩
  · intro hundisturbed other hmem hother
    obtain ⟨value', hvalue, hcovers⟩ := hmade.mem_accessFor.mp hmem
    exact (hmade.other_eq_none hcarries hvalue hcovers hother).mpr
      (hundisturbed other value' hvalue hcovers hother)

end

/-! ### One header -/

/-- Keys in the Authorization header. -/
def bearerKey : ProviderDefinition := ⟨"sessions", .key ⟨.bearer, none⟩⟩

def schemeKey : ProviderDefinition := ⟨"machines", .key ⟨.header authorization (some "ApiKey"), none⟩⟩

/-- Two keys at one place, each for an audience of its own. -/
def webKey : ProviderDefinition := ⟨"sessions", .key ⟨.bearer, some ["web"]⟩⟩

def apiKey : ProviderDefinition := ⟨"machines", .key ⟨.bearer, some ["api"]⟩⟩

def sharedKeys : List ProviderDefinition := [webKey, apiKey]

def bearerRequest : Parts := ⟨[(authorization, "Bearer x")], none⟩

@[reducible] def noQuery : FormUrlencoded := ⟨fun _ => []⟩

/-- The settings of these keys let them be built. -/
@[reducible] def keysBuild : ProviderBuild := ⟨fun _ => .ok ()⟩

attribute [local instance] noQuery keysBuild

/-- Where one of these keys alone covers an audience, it carries the credential and nothing disturbs it. -/
theorem shared_keys_carry {audience : AudienceId} {position : ℕ} {value : ProviderDefinition}
    (hregistered : sharedKeys[position]? = some value)
    (hcovers : ∀ other ∈ sharedKeys, other.covers audience = true ↔ other = value) :
    Carries sharedKeys audience bearerRequest position value "x" ∧
      Undisturbed sharedKeys audience bearerRequest position value := by
  have hmem : value ∈ sharedKeys := List.mem_of_getElem? hregistered
  have hbearer : value.kind.accessLocation = .bearer := by
    simp only [sharedKeys, List.mem_cons, List.not_mem_nil, or_false] at hmem
    rcases hmem with rfl | rfl <;> rfl
  have hsame : ∀ (other : ℕ) (value' : ProviderDefinition), sharedKeys[other]? = some value' →
      value'.covers audience = true → value' = value := fun other value' hvalue hcovered =>
    (hcovers value' (List.mem_of_getElem? hvalue)).mp hcovered
  refine ⟨⟨hregistered, (hcovers value hmem).mpr rfl, ?_, ?_, ?_⟩, ?_⟩
  · rw [hbearer]
    decide +kernel
  · intro other value' hvalue hcovered hsource
    rw [hsame other value' hvalue hcovered] at hsource
    exact absurd rfl hsource
  · rw [hbearer]
    exact fun h => nomatch h
  · intro other value' hvalue hcovered hother
    obtain rfl := hsame other value' hvalue hcovered
    have hnames : (sharedKeys.map ProviderDefinition.name).Nodup := by decide
    have hposition : (sharedKeys.map ProviderDefinition.name)[other]? =
        (sharedKeys.map ProviderDefinition.name)[position]? := by
      rw [List.getElem?_map, List.getElem?_map, hvalue, hregistered]
    have hlength : other < (sharedKeys.map ProviderDefinition.name).length := by
      rw [List.length_map]
      exact (List.getElem?_eq_some_iff.mp hvalue).choose
    exact absurd ((List.getElem?_inj hlength hnames).mp hposition) hother

theorem two_keys_carry : Carries [bearerKey, schemeKey] webAudience bearerRequest 0 bearerKey "x" := by
  refine ⟨rfl, rfl, by decide +kernel, ?_, fun h => nomatch h⟩
  rintro other value' hvalue - hsource
  match other, hvalue with
  | 0, hvalue =>
    cases hvalue
    exact absurd rfl hsource
  | 1, hvalue =>
    cases hvalue
    exact absurd rfl hsource
  | _ + 2, hvalue => exact nomatch hvalue

/-- One header is handed to the one key or to the other, by the audience of the route. -/
theorem credential_reaches_its_provider_iff_shared_keys :
    ∃ auth, Authenticator.new sharedKeys = .ok auth ∧
      auth.authenticate (fun position raw => .ok (position, raw)) bearerRequest webAudience = .ok (0, "x") ∧
      auth.authenticate (fun position raw => .ok (position, raw)) bearerRequest apiAudience = .ok (1, "x") := by
  obtain ⟨auth, hnew, hreaches⟩ := credential_reaches_its_provider_iff
    (show validateDefinitions sharedKeys = .ok () by decide +kernel) fun _ _ => rfl
  have hcovered : webKey.covers webAudience = true ∧ apiKey.covers webAudience = false ∧
      webKey.covers apiAudience = false ∧ apiKey.covers apiAudience = true := by decide +kernel
  have hne : webKey ≠ apiKey := fun h => absurd (congrArg ProviderDefinition.name h) (by decide)
  have hweb := shared_keys_carry (show sharedKeys[0]? = some webKey from rfl) (by
    rw [sharedKeys, List.forall_mem_cons, List.forall_mem_singleton, hcovered.1, hcovered.2.1]
    exact ⟨iff_of_true rfl rfl, iff_of_false Bool.false_ne_true hne.symm⟩)
  have hapi := shared_keys_carry (show sharedKeys[1]? = some apiKey from rfl) (by
    rw [sharedKeys, List.forall_mem_cons, List.forall_mem_singleton, hcovered.2.2.1, hcovered.2.2.2]
    exact ⟨iff_of_false Bool.false_ne_true hne, iff_of_true rfl rfl⟩)
  exact ⟨auth, hnew, (hreaches webAudience _ _ _ _ hweb.1).mpr hweb.2 _ _,
    (hreaches apiAudience _ _ _ _ hapi.1).mpr hapi.2 _ _⟩

/-- With the second key registered, the same request is refused. -/
theorem foreign_scheme_is_refused :
    validateDefinitions [bearerKey, schemeKey] = .ok () ∧
      Carries [bearerKey, schemeKey] webAudience bearerRequest 0 bearerKey "x" ∧
      ∃ auth, Authenticator.new [bearerKey, schemeKey] = .ok auth ∧
        auth.authenticate (fun position raw => .ok (position, raw)) bearerRequest webAudience =
          .error .malformedLocation := by
  have hvalid : validateDefinitions [bearerKey, schemeKey] = .ok () := by decide +kernel
  have hrun : (do
      let auth ← Authenticator.new [bearerKey, schemeKey]
      auth.authenticate (fun position raw => .ok (position, raw)) bearerRequest webAudience) =
        .error .malformedLocation := by decide +kernel
  obtain ⟨auth, hnew, -⟩ := Authenticator.new_of_valid hvalid fun _ _ => rfl
  rw [hnew] at hrun
  exact ⟨hvalid, two_keys_carry, auth, hnew, hrun⟩

end Vyuh.Auth
