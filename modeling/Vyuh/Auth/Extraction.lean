import Vyuh.Auth.Runtime.Dispatch

/-! The two ways to extract a credential (`auth/location.rs`): directly, and through the scan of a request
    that several locations share. Both come down to the values presented under one name; they differ in
    what else they refuse. -/

namespace Vyuh.Auth

open Lib

/-! ### Direct extraction -/

/-- One pair of a request; the name is taken once, with a value. -/
def takePair (name : String) (found : Option String) (pair : String × String) :
    Except AuthError (Option String) :=
  if pair.1 ≠ name then .ok found
  else if pair.2.isEmpty || found.isSome then .error .malformedLocation
  else .ok (some pair.2)

def extractQuery [FormUrlencoded] (parts : Parts) (key : String) : Except AuthError (Option String) :=
  match parts.query with
  | none => .ok none
  | some query => (FormUrlencoded.parse query).foldlM (takePair key) none

/-- One item of a cookie header; there is no credential next to an item without a value. -/
def extractCookieItem (name : String) (found : Option String) (item : List Char) :
    Except AuthError (Option String) :=
  match splitOnce '=' (trim item) with
  | none => .error .malformedLocation
  | some (candidate, value) => takePair name found (String.ofList candidate, String.ofList value)

def extractCookieHeader (name : String) (found : Option String) (header : String) :
    Except AuthError (Option String) :=
  match headerText header with
  | none => .error .malformedLocation
  | some text => (text.toList.splitOn ';').foldlM (extractCookieItem name) found

def extractCookie (parts : Parts) (name : String) : Except AuthError (Option String) :=
  (parts.getAll cookieHeader).foldlM (extractCookieHeader name) none

def CredentialLocation.extract [FormUrlencoded] (parts : Parts) :
    CredentialLocation → Except AuthError (Option String)
  | .header name scheme => do validateExtractedSize (← extractHeader parts (headerName name) scheme)
  | .cookie conf => do validateExtractedSize (← extractCookie parts conf.name)
  | .query name => do validateExtractedSize (← extractQuery parts name)

/-! ### The shared scan -/

/-- The scan of a request; cookies and query are parsed when they are first asked for. -/
structure RequestCredentialScan where
  parts : Parts
  cookies : Option ParsedCookies
  query : Option ParsedQuery
  deriving DecidableEq, Repr

namespace RequestCredentialScan

def new (parts : Parts) : RequestCredentialScan := ⟨parts, none, none⟩

def cookie (scan : RequestCredentialScan) (name : String) :
    Except AuthError (Option String) × RequestCredentialScan :=
  let parsed := scan.cookies.getD (parseCookies scan.parts)
  (if parsed.malformed then .error .malformedLocation else selected parsed.values name,
    { scan with cookies := some parsed })

variable [FormUrlencoded]

def queryValue (scan : RequestCredentialScan) (name : String) :
    Except AuthError (Option String) × RequestCredentialScan :=
  let parsed := scan.query.getD (parseQuery scan.parts)
  (if parsed.malformed then .error .malformedLocation else selected parsed.values name,
    { scan with query := some parsed })

/-- `CredentialLocation::extract_from`. -/
def extract (scan : RequestCredentialScan) :
    CredentialLocation → Except AuthError (Option String) × RequestCredentialScan
  | .header name scheme =>
    (do validateExtractedSize (← extractHeader scan.parts (headerName name) scheme), scan)
  | .cookie conf =>
    let (value, scan) := scan.cookie conf.name
    (do validateExtractedSize (← value), scan)
  | .query name =>
    let (value, scan) := scan.queryValue name
    (do validateExtractedSize (← value), scan)

/-- The scan after some extractions. -/
def after (scan : RequestCredentialScan) (earlier : List CredentialLocation) : RequestCredentialScan :=
  earlier.foldl (fun scan location => (scan.extract location).2) scan

/-- What was parsed is what would be parsed now. -/
structure Fresh (scan : RequestCredentialScan) (parts : Parts) : Prop where
  same : scan.parts = parts
  cookies : ∀ parsed, scan.cookies = some parsed → parsed = parseCookies parts
  query : ∀ parsed, scan.query = some parsed → parsed = parseQuery parts

theorem fresh_new (parts : Parts) : (new parts).Fresh parts :=
  ⟨rfl, fun _ h => (nomatch h), fun _ h => nomatch h⟩

/-- The cache never changes a result, and stays true. -/
theorem Fresh.extract {scan : RequestCredentialScan} {parts : Parts} (h : scan.Fresh parts)
    (location : CredentialLocation) :
    (scan.extract location).1 = location.extractFrom parts ∧ (scan.extract location).2.Fresh parts := by
  obtain ⟨rfl, hcookies, hquery⟩ := h
  have hcached : scan.cookies.getD (parseCookies scan.parts) = parseCookies scan.parts := by
    cases hsome : scan.cookies with
    | none => rfl
    | some parsed => exact hcookies parsed hsome
  have hasked : scan.query.getD (parseQuery scan.parts) = parseQuery scan.parts := by
    cases hsome : scan.query with
    | none => rfl
    | some parsed => exact hquery parsed hsome
  cases location with
  | header name scheme => exact ⟨rfl, rfl, hcookies, hquery⟩
  | cookie conf =>
    simp only [RequestCredentialScan.extract, cookie, hcached]
    exact ⟨rfl, rfl, fun parsed h => (Option.some.inj h).symm, hquery⟩
  | query name =>
    simp only [RequestCredentialScan.extract, queryValue, hasked]
    exact ⟨rfl, rfl, hcookies, fun parsed h => (Option.some.inj h).symm⟩

theorem fresh_after (parts : Parts) (earlier : List CredentialLocation) :
    ((new parts).after earlier).Fresh parts := by
  suffices h : ∀ scan : RequestCredentialScan, scan.Fresh parts → (scan.after earlier).Fresh parts from
    h _ (fresh_new parts)
  induction earlier with
  | nil => exact fun _ h => h
  | cons location earlier ih => exact fun scan h => ih _ (h.extract location).2

end RequestCredentialScan

/-! ### The values presented under a name -/

/-- The values presented under a name; none where there is no value. -/
def presented (name : String) (entries : List (String × Option String)) : List (Option String) :=
  (entries.filter fun entry => entry.1 = name).map Prod.snd

/-- A name presented once and with a value has that value; presented otherwise it is malformed. -/
def resolve : List (Option String) → Except AuthError (Option String)
  | [] => .ok none
  | [some value] => .ok (some value)
  | _ => .error .malformedLocation

/-- What is presented cannot be a credential: a value is missing or too long, or there are several. -/
def Malformed (values : List (Option String)) : Prop :=
  none ∈ values ∨ 2 ≤ values.length ∨ ∃ value, some value ∈ values ∧ maxCredentialBytes < value.utf8ByteSize

/-- What the values presented under a name come to. -/
def verdict (values : List (Option String)) : Except AuthError (Option String) := do
  validateExtractedSize (← resolve values)

theorem verdict_toOption_eq_none {values : List (Option String)} :
    (verdict values).toOption = none ↔ Malformed values := by
  match values with
  | [] =>
    refine ⟨fun h => (by cases h), ?_⟩
    rintro (h | h | ⟨_, h, -⟩)
    · cases h
    · cases h
    · cases h
  | [none] => exact ⟨fun _ => .inl List.mem_cons_self, fun _ => rfl⟩
  | [some value] =>
    show (validateExtractedSize (some value)).toOption = none ↔ _
    rw [validateExtractedSize]
    constructor
    · intro h
      split at h
      next hlong => exact .inr (.inr ⟨value, List.mem_cons_self, by simpa using hlong⟩)
      · cases h
    · rintro (h | h | ⟨_, h, hlong⟩)
      · exact absurd h (by simp)
      · exact absurd h (by simp)
      · rw [List.mem_singleton, Option.some.injEq] at h
        subst h
        rw [if_pos (by simpa using hlong)]
        rfl
  | none :: _ :: _ => exact ⟨fun _ => .inr (.inl (by simp)), fun _ => rfl⟩
  | some _ :: _ :: _ => exact ⟨fun _ => .inr (.inl (by simp)), fun _ => rfl⟩

/-- The entry of a pair; an empty value is none. -/
def pairEntry (pair : String × String) : String × Option String :=
  (pair.1, if pair.2.isEmpty then none else some pair.2)

/-- Taking a name from pairs comes to the values presented under it. -/
theorem foldlM_takePair (name : String) (pairs : List (String × String)) :
    (∀ value, pairs.foldlM (takePair name) (some value) =
      if presented name (pairs.map pairEntry) = [] then .ok (some value) else .error .malformedLocation) ∧
    pairs.foldlM (takePair name) none = resolve (presented name (pairs.map pairEntry)) := by
  induction pairs with
  | nil => exact ⟨fun _ => rfl, rfl⟩
  | cons pair pairs ih =>
    obtain ⟨key, text⟩ := pair
    by_cases hkey : key = name
    · subst hkey
      have hpresented : presented key (((key, text) :: pairs).map pairEntry) =
          (if text.isEmpty then none else some text) :: presented key (pairs.map pairEntry) := by
        simp [presented, pairEntry]
      rw [hpresented]
      simp only [List.foldlM_cons, takePair, ne_eq, not_true_eq_false, if_false]
      refine ⟨fun value => ?_, ?_⟩
      · rw [if_pos (by simp), if_neg (List.cons_ne_nil _ _)]
        rfl
      · cases htext : text.isEmpty with
        | true =>
          rw [if_pos (by simp)]
          show Except.error AuthError.malformedLocation = _
          cases presented key (pairs.map pairEntry) <;> rfl
        | false =>
          rw [if_neg (by simp)]
          refine (ih.1 text).trans ?_
          cases presented key (pairs.map pairEntry) <;> rfl
    · have hpresented : presented name (((key, text) :: pairs).map pairEntry) =
          presented name (pairs.map pairEntry) := by
        simp [presented, pairEntry, hkey]
      rw [hpresented]
      simp only [List.foldlM_cons, takePair, ne_eq, hkey, not_false_eq_true, if_true]
      exact ih

/-- What a scan holds of the values presented under a name. -/
def held : List (Option String) → Option (Option String)
  | [] => none
  | [value] => some value
  | _ => some none

theorem find?_insertValue (values : List (String × Option String)) (name key : String)
    (value : Option String) :
    ((insertValue values key value).find? fun entry => entry.1 = name).map Prod.snd =
      if key = name then
        some (((values.find? fun entry => entry.1 = name).map Prod.snd).elim value fun _ => none)
      else (values.find? fun entry => entry.1 = name).map Prod.snd := by
  rw [insertValue]
  split
  next hknown =>
    -- the values change, the names do not
    have hsame : (fun entry : String × Option String => decide (entry.1 = name)) ∘
        (fun entry => if entry.1 = key then (entry.1, none) else entry) =
        fun entry => decide (entry.1 = name) := by
      funext entry
      by_cases hentry : entry.1 = key <;> simp [hentry]
    rw [List.find?_map, hsame, Option.map_map]
    cases hfind : values.find? fun entry => entry.1 = name with
    | none =>
      by_cases hkey : key = name
      · obtain ⟨entry, hmem, hentry⟩ := List.any_eq_true.mp hknown
        have hnone := List.find?_eq_none.mp hfind entry hmem
        exact absurd (of_decide_eq_true hentry) (by simpa [hkey] using hnone)
      · rw [if_neg hkey]
        rfl
    | some entry =>
      have hentry : entry.1 = name := of_decide_eq_true (List.find?_some hfind :)
      by_cases hkey : key = name
      · rw [if_pos hkey]
        simp [hentry, hkey]
      · rw [if_neg hkey]
        simp [hentry, Ne.symm hkey]
  next hnew =>
    rw [List.find?_append]
    by_cases hkey : key = name
    · have hnone : values.find? (fun entry => entry.1 = name) = none := by
        rw [List.find?_eq_none]
        intro entry hmem hentry
        exact hnew (List.any_eq_true.mpr ⟨entry, hmem, by simpa [hkey] using hentry⟩)
      rw [if_pos hkey, hnone]
      simp [hkey]
    · rw [if_neg hkey]
      simp [hkey]

theorem held_concat (values : List (Option String)) (value : Option String) :
    held (values ++ [value]) = some ((held values).elim value fun _ => none) := by
  match values with
  | [] => rfl
  | [_] => rfl
  | _ :: _ :: _ => rfl

/-- A scan holds what was presented. -/
theorem find?_foldl_insertValue (name : String) (entries : List (String × Option String)) :
    ((entries.foldl (fun values entry => insertValue values entry.1 entry.2) []).find?
      fun entry => entry.1 = name).map Prod.snd = held (presented name entries) := by
  induction entries using List.reverseRecOn with
  | nil => rfl
  | append_singleton entries entry ih =>
    rw [List.foldl_append, List.foldl_cons, List.foldl_nil, find?_insertValue, ih]
    by_cases hkey : entry.1 = name
    · have hpresented : presented name (entries ++ [entry]) = presented name entries ++ [entry.2] := by
        simp [presented, hkey]
      rw [if_pos hkey, hpresented, held_concat]
    · have hpresented : presented name (entries ++ [entry]) = presented name entries := by
        simp [presented, hkey]
      rw [if_neg hkey, hpresented]

/-- What a held value comes to. -/
def release : Option (Option String) → Except AuthError (Option String)
  | none => .ok none
  | some (some value) => .ok (some value)
  | some none => .error .malformedLocation

theorem release_held (values : List (Option String)) : release (held values) = resolve values := by
  match values with
  | [] => rfl
  | [none] => rfl
  | [some _] => rfl
  | none :: _ :: _ => rfl
  | some _ :: _ :: _ => rfl

theorem selected_foldl_insertValue (name : String) (entries : List (String × Option String)) :
    selected (entries.foldl (fun values entry => insertValue values entry.1 entry.2) []) name =
      resolve (presented name entries) := by
  rw [← release_held, ← find?_foldl_insertValue, selected]
  cases (entries.foldl (fun values entry => insertValue values entry.1 entry.2) []).find?
      fun entry => entry.1 = name with
  | none => rfl
  | some entry =>
    obtain ⟨key, value⟩ := entry
    cases value <;> rfl

/-! ### Queries -/

section

variable [FormUrlencoded] {parts : Parts}

/-- The entries of a query. -/
def queryEntries (parts : Parts) : List (String × Option String) :=
  (parts.query.elim [] FormUrlencoded.parse).map pairEntry

theorem extractQuery_eq (name : String) :
    extractQuery parts name = resolve (presented name (queryEntries parts)) := by
  rw [extractQuery, queryEntries]
  cases parts.query with
  | none => rfl
  | some query => exact (foldlM_takePair name _).2

theorem scanQuery_eq (name : String) :
    scanQuery parts name =
      if queryReadable parts then resolve (presented name (queryEntries parts))
      else .error .malformedLocation := by
  rw [scanQuery, parseQuery_malformed]
  cases hreadable : queryReadable parts with
  | false => rfl
  | true =>
    rw [if_neg (by simp), if_pos rfl, ← selected_foldl_insertValue, queryEntries]
    congr 1
    rw [queryReadable] at hreadable
    rw [parseQuery]
    cases hquery : parts.query with
    | none => rfl
    | some query =>
      rw [hquery] at hreadable
      dsimp only
      rw [if_neg (by simpa using hreadable), Option.elim_some, List.foldl_map]
      rfl

end

/-! ### Cookies -/

/-- The items of the cookie headers that are text. -/
def cookieItems (headers : List String) : List (List Char) :=
  (headers.filterMap headerText).flatMap fun text => (text.toList.splitOn ';').map trim

/-- Whether an item has no value. -/
def bareItem (item : List Char) : Bool := (splitOnce '=' item).isNone

/-- The entry of an item: what is not empty and has no value is there without one. -/
def itemEntry (item : List Char) : Option (String × Option String) :=
  match splitOnce '=' item with
  | none => if item.isEmpty then none else some (String.ofList item, none)
  | some (name, value) => some (pairEntry (String.ofList name, String.ofList value))

/-- The pair of an item with a value. -/
def itemPair (item : List Char) : Option (String × String) :=
  (splitOnce '=' item).map fun (name, value) => (String.ofList name, String.ofList value)

/-- One item of the direct extraction. -/
def takeItem (name : String) (found : Option String) (item : List Char) :
    Except AuthError (Option String) :=
  (itemPair item).elim (.error .malformedLocation) (takePair name found)

theorem extractCookieItem_eq (name : String) (found : Option String) (item : List Char) :
    extractCookieItem name found item = takeItem name found (trim item) := by
  rw [extractCookieItem, takeItem, itemPair]
  cases splitOnce '=' (trim item) <;> rfl

theorem takePair_error {name : String} {found : Option String} {pair : String × String} {error : AuthError}
    (h : takePair name found pair = .error error) : error = .malformedLocation := by
  rw [takePair] at h
  split at h
  · exact nomatch h
  split at h
  · exact (Except.error.inj h).symm
  · exact nomatch h

theorem foldlM_takeItem_error {name : String} {items : List (List Char)} {found : Option String}
    {error : AuthError} (h : items.foldlM (takeItem name) found = .error error) :
    error = .malformedLocation := by
  induction items generalizing found with
  | nil => exact nomatch h
  | cons item items ih =>
    rw [List.foldlM_cons] at h
    obtain hitem | ⟨next, -, hrest⟩ := Step.except_bind_error.mp h
    · rw [takeItem] at hitem
      cases hpair : itemPair item with
      | none =>
        rw [hpair] at hitem
        exact (Except.error.inj hitem).symm
      | some pair =>
        rw [hpair] at hitem
        exact takePair_error hitem
    · exact ih hrest

/-- A direct extraction fails at an item without a value, or takes the pairs. -/
theorem foldlM_takeItem (name : String) (items : List (List Char)) (found : Option String) :
    items.foldlM (takeItem name) found =
      if items.any bareItem then .error .malformedLocation
      else (items.filterMap itemPair).foldlM (takePair name) found := by
  induction items generalizing found with
  | nil => rfl
  | cons item items ih =>
    rw [List.foldlM_cons, List.any_cons, bareItem]
    cases hsplit : splitOnce '=' item with
    | none =>
      rw [takeItem, itemPair, hsplit]
      rfl
    | some pair =>
      have hpair : itemPair item = some (String.ofList pair.1, String.ofList pair.2) := by
        rw [itemPair, hsplit]
        rfl
      rw [takeItem, hpair, Option.elim_some, List.filterMap_cons_some hpair, List.foldlM_cons]
      cases htake : takePair name found (String.ofList pair.1, String.ofList pair.2) with
      | error error =>
        obtain rfl := takePair_error htake
        show Except.error _ = _
        split <;> rfl
      | ok next => exact ih next

theorem extractCookieHeaders_eq (name : String) (headers : List String) (found : Option String) :
    headers.foldlM (extractCookieHeader name) found =
      if headers.all fun header => (headerText header).isSome then
        (cookieItems headers).foldlM (takeItem name) found
      else .error .malformedLocation := by
  induction headers generalizing found with
  | nil => rfl
  | cons header headers ih =>
    rw [List.foldlM_cons, List.all_cons, extractCookieHeader]
    cases htext : headerText header with
    | none => rfl
    | some text =>
      have hitems : (text.toList.splitOn ';').foldlM (extractCookieItem name) found =
          ((text.toList.splitOn ';').map trim).foldlM (takeItem name) found := by
        rw [List.foldlM_map]
        congr 1
        funext found item
        exact extractCookieItem_eq name found item
      have happend : cookieItems (header :: headers) =
          (text.toList.splitOn ';').map trim ++ cookieItems headers := by
        rw [cookieItems, List.filterMap_cons_some htext, List.flatMap_cons]
        rfl
      dsimp only
      rw [hitems, happend, List.foldlM_append, Option.isSome_some, Bool.true_and]
      cases hfold : ((text.toList.splitOn ';').map trim).foldlM (takeItem name) found with
      | error error =>
        obtain rfl := foldlM_takeItem_error hfold
        show Except.error _ = _
        split <;> rfl
      | ok next => exact ih next

/-- Without items that have no value, the entries are those of the pairs. -/
theorem filterMap_itemEntry {items : List (List Char)} (h : items.any bareItem = false) :
    items.filterMap itemEntry = (items.filterMap itemPair).map pairEntry := by
  rw [List.map_filterMap]
  refine List.filterMap_congr fun item hmem => ?_
  have hvalued := List.any_eq_false.mp h item hmem
  rw [bareItem] at hvalued
  rw [itemEntry, itemPair]
  cases hsplit : splitOnce '=' item with
  | none =>
    rw [hsplit] at hvalued
    exact absurd rfl hvalued
  | some pair => rfl

/-- Every cookie header is text. -/
def cookiesText (parts : Parts) : Bool :=
  (parts.getAll cookieHeader).all fun header => (headerText header).isSome

/-- The entries of the cookie headers. -/
def cookieEntries (parts : Parts) : List (String × Option String) :=
  (cookieItems (parts.getAll cookieHeader)).filterMap itemEntry

/-- Some item of the cookie headers has no value; the empty item is one of these. -/
def unvaluedCookies (parts : Parts) : Bool := (cookieItems (parts.getAll cookieHeader)).any bareItem

/-- The cookie headers are longer than the scan takes. -/
def longCookies (parts : Parts) : Bool :=
  maxCredentialSourceBytes < ((parts.getAll cookieHeader).map String.length).sum

theorem extractCookie_eq (parts : Parts) (name : String) :
    extractCookie parts name =
      if cookiesText parts && !unvaluedCookies parts then resolve (presented name (cookieEntries parts))
      else .error .malformedLocation := by
  rw [extractCookie, extractCookieHeaders_eq, cookiesText, unvaluedCookies, foldlM_takeItem]
  cases hbare : (cookieItems (parts.getAll cookieHeader)).any bareItem with
  | true => simp
  | false =>
    rw [cookieEntries, filterMap_itemEntry hbare, (foldlM_takePair name _).2]
    simp

theorem parseCookieItem_eq (values : List (String × Option String)) (item : List Char) :
    parseCookieItem values item =
      (itemEntry (trim item)).elim values fun entry => insertValue values entry.1 entry.2 := by
  rw [parseCookieItem, itemEntry]
  cases splitOnce '=' (trim item) with
  | none =>
    dsimp only
    split <;> rfl
  | some pair =>
    have hempty : (String.ofList pair.2).isEmpty = pair.2.isEmpty := by
      cases hvalue : pair.2 with
      | nil => rfl
      | cons c rest =>
        rw [List.isEmpty_cons, Bool.eq_false_iff, Ne, String.isEmpty_iff]
        intro h
        exact List.cons_ne_nil c rest (by rw [← String.toList_ofList (l := c :: rest), h]; rfl)
    simp only [pairEntry, hempty, Option.elim_some]

theorem foldl_parseCookieItem (items : List (List Char)) (values : List (String × Option String)) :
    items.foldl parseCookieItem values =
      ((items.map trim).filterMap itemEntry).foldl
        (fun values entry => insertValue values entry.1 entry.2) values := by
  induction items generalizing values with
  | nil => rfl
  | cons item items ih =>
    rw [List.foldl_cons, ih, List.map_cons, parseCookieItem_eq]
    cases hentry : itemEntry (trim item) with
    | none => rw [List.filterMap_cons_none hentry, Option.elim_none]
    | some entry => rw [List.filterMap_cons_some hentry, Option.elim_some, List.foldl_cons]

/-- Headers that are text and short enough are scanned to the end. -/
theorem parseCookieHeaders_values (headers : List String) (scanned : ℕ) (output : ParsedCookies)
    (htext : headers.all (fun header => (headerText header).isSome) = true)
    (hshort : scanned + (headers.map String.length).sum ≤ maxCredentialSourceBytes) :
    (parseCookieHeaders headers scanned output).values =
      ((cookieItems headers).filterMap itemEntry).foldl
        (fun values entry => insertValue values entry.1 entry.2) output.values := by
  induction headers generalizing scanned output with
  | nil => rfl
  | cons header headers ih =>
    rw [List.map_cons, List.sum_cons] at hshort
    rw [List.all_cons, Bool.and_eq_true] at htext
    have hadd : saturatingAddUsize scanned header.length = scanned + header.length := by
      simp only [saturatingAddUsize, usizeMax, maxCredentialSourceBytes] at hshort ⊢
      omega
    obtain ⟨text, hsome⟩ := Option.isSome_iff_exists.mp htext.1
    have happend : cookieItems (header :: headers) =
        (text.toList.splitOn ';').map trim ++ cookieItems headers := by
      rw [cookieItems, List.filterMap_cons_some hsome, List.flatMap_cons]
      rfl
    rw [parseCookieHeaders]
    rw [hadd, if_neg (by omega), hsome]
    dsimp only
    rw [ih _ _ htext.2 (by omega), happend, List.filterMap_append, List.foldl_append,
      foldl_parseCookieItem]

theorem scanCookie_eq (parts : Parts) (name : String) :
    scanCookie parts name =
      if cookiesText parts && !longCookies parts then resolve (presented name (cookieEntries parts))
      else .error .malformedLocation := by
  have hreadable : cookiesReadable parts = (cookiesText parts && !longCookies parts) := by
    rw [cookiesReadable, cookiesText, longCookies]
    congr 1
    rw [Bool.eq_iff_iff]
    simp
  rw [scanCookie, parseCookies_malformed, hreadable]
  cases htake : cookiesText parts && !longCookies parts with
  | false => rfl
  | true =>
    rw [if_neg (by simp), if_pos rfl, ← selected_foldl_insertValue, parseCookies]
    rw [Bool.and_eq_true, Bool.not_eq_true', longCookies, decide_eq_false_iff_not, not_lt] at htake
    rw [parseCookieHeaders_values _ _ _ htake.1 (by omega)]
    rfl

/-! ### The two ways -/

/-- Both find nothing, both the same credential, or both fail. -/
def Agree (result result' : Except AuthError (Option String)) : Prop := result.toOption = result'.toOption

instance (result result' : Except AuthError (Option String)) : Decidable (Agree result result') :=
  inferInstanceAs (Decidable (_ = _))

/-- Requests a location reads alike both ways: the scan passes over cookies without a value, which the
    direct extraction refuses, and refuses sources that are too long, which the other takes. -/
def CredentialLocation.ReadAlike [FormUrlencoded] (parts : Parts) : CredentialLocation → Prop
  | .header _ _ => True
  | .cookie conf => cookiesText parts = false ∨ Malformed (presented conf.name (cookieEntries parts)) ∨
      unvaluedCookies parts = longCookies parts
  | .query name => Malformed (presented name (queryEntries parts)) ∨ queryReadable parts = true

theorem sized_if (readable : Bool) (values : List (Option String)) :
    ((if readable then resolve values else .error .malformedLocation) >>= validateExtractedSize) =
      if readable then verdict values else .error .malformedLocation := by
  cases readable <;> rfl

/-- Two readings of the same values agree when they may both be taken, or the values are malformed. -/
theorem agree_if_iff (readable readable' : Bool) (values : List (Option String)) :
    Agree (if readable then verdict values else .error .malformedLocation)
      (if readable' then verdict values else .error .malformedLocation) ↔
      Malformed values ∨ readable = readable' := by
  rw [← verdict_toOption_eq_none]
  cases readable with
  | true =>
    cases readable' with
    | true => exact ⟨fun _ => .inr rfl, fun _ => rfl⟩
    | false => exact ⟨fun h => .inl h, fun h => h.resolve_right (by decide)⟩
  | false =>
    cases readable' with
    | true => exact ⟨fun h => .inl h.symm, fun h => (h.resolve_right (by decide)).symm⟩
    | false => exact ⟨fun _ => .inr rfl, fun _ => rfl⟩

/-- Extraction through a scan, whatever it was used for before, agrees with direct extraction on exactly
    these requests. -/
theorem extractors_agree_iff [FormUrlencoded] (parts : Parts) (earlier : List CredentialLocation)
    (location : CredentialLocation) :
    Agree (location.extract parts)
      (((RequestCredentialScan.new parts).after earlier).extract location).1 ↔
      location.ReadAlike parts := by
  rw [((RequestCredentialScan.fresh_after parts earlier).extract location).1]
  cases location with
  | header name scheme => exact ⟨fun _ => trivial, fun _ => rfl⟩
  | cookie conf =>
    rw [CredentialLocation.extract, CredentialLocation.extractFrom, extractCookie_eq, scanCookie_eq, sized_if,
      sized_if, agree_if_iff, CredentialLocation.ReadAlike]
    cases cookiesText parts <;> cases unvaluedCookies parts <;> cases longCookies parts <;> simp
  | query name =>
    have hdirect := sized_if true (presented name (queryEntries parts))
    rw [CredentialLocation.extract, CredentialLocation.extractFrom, extractQuery_eq, scanQuery_eq, sized_if,
      CredentialLocation.ReadAlike]
    refine (agree_if_iff true _ _).trans ?_
    rw [eq_comm]

/-- A request whose first cookie has no value. -/
def bareCookieRequest : Parts := ⟨[(cookieHeader, "unrelated; auth=credential")], none⟩

/-- The credential is in the cookie `auth`. -/
def authCookie : CredentialLocation := .cookie ⟨"auth", "/", true, true, .lax⟩

attribute [local instance] noQuery in
/-- A foreign cookie without a value: the scan finds the credential, the direct extraction fails. -/
theorem bare_cookie_divides :
    ¬ Agree (authCookie.extract bareCookieRequest)
        (((RequestCredentialScan.new bareCookieRequest).after []).extract authCookie).1 ∧
      (((RequestCredentialScan.new bareCookieRequest).after []).extract authCookie).1.toOption =
        some (some "credential") := by
  decide

end Vyuh.Auth
