import Vyuh.Lib.Percent
import Vyuh.Lib.Step
import Vyuh.Lib.Uri
import Mathlib

/-! URLs of the public assets (`assets.rs`): the mount a static URL names, and the URL of an asset below
    it. Mounts and asset paths are taken only when each of their segments is the plain name of a file or
    a folder. -/

namespace Vyuh.Assets

open Lib

/-! ### Segments -/

/-- `trim_start_matches('/')`. -/
def trimStart (text : List Char) : List Char := text.dropWhile (· = '/')

/-- `trim_end_matches('/')`. -/
def trimEnd (text : List Char) : List Char := text.rdropWhile (· = '/')

inductive AssetUrlError
  | invalidPath (path : List Char) (reason : String)
  | invalidStaticUrl (value : List Char) (reason : String)
  deriving DecidableEq

def checkSegment {ε : Type} (original : List Char) (invalid : List Char → String → ε)
    (segment : List Char) : Except ε Unit :=
  match Percent.decodeText segment with
  | none => .error (invalid original "must use valid UTF-8 percent encoding")
  | some decoded =>
    if segment.isEmpty || decoded.isEmpty || decoded = ['.'] || decoded = ['.', '.'] then
      .error (invalid original "must not contain empty or traversal segments")
    else if decoded.contains '/' || decoded.contains '\\' || decoded.contains '\x00' then
      .error (invalid original "must not contain path separators or NUL bytes")
    else .ok ()

def validateSegments {ε : Type} (value original : List Char) (invalid : List Char → String → ε) :
    Except ε Unit :=
  forM (value.splitOn '/') (checkSegment original invalid)

/-- The plain name of a file or a folder. -/
structure Plain (segment : List Char) : Prop where
  nonempty : segment ≠ []
  notSelf : segment ≠ ['.']
  notParent : segment ≠ ['.', '.']
  noSlash : '/' ∉ segment
  noBackslash : '\\' ∉ segment
  noNul : '\x00' ∉ segment

/-- Every segment of the path is a plain name. -/
def Clean (path : List Char) : Prop := ∀ segment ∈ path.splitOn '/', Plain segment

instance (segment : List Char) : Decidable (Plain segment) :=
  decidable_of_iff (segment ≠ [] ∧ segment ≠ ['.'] ∧ segment ≠ ['.', '.'] ∧ '/' ∉ segment ∧
    '\\' ∉ segment ∧ '\x00' ∉ segment)
    ⟨fun ⟨h₁, h₂, h₃, h₄, h₅, h₆⟩ => ⟨h₁, h₂, h₃, h₄, h₅, h₆⟩,
      fun h => ⟨h.nonempty, h.notSelf, h.notParent, h.noSlash, h.noBackslash, h.noNul⟩⟩

instance (path : List Char) : Decidable (Clean path) := List.decidableBAll _ _

/-- A segment is validated as it is decoded; it is then plain as it is written, too. -/
theorem plain_of_checkSegment {ε : Type} {original segment : List Char} {invalid : List Char → String → ε}
    (h : checkSegment original invalid segment = .ok ()) : Plain segment := by
  rw [checkSegment] at h
  cases hdecoded : Percent.decodeText segment with
  | none =>
    rw [hdecoded] at h
    exact nomatch h
  | some decoded =>
    rw [hdecoded] at h
    dsimp only at h
    split at h
    next => exact nomatch h
    next hdots =>
      split at h
      next => exact nomatch h
      next hchars =>
        simp only [Bool.or_eq_true, decide_eq_true_eq, List.isEmpty_iff, not_or] at hdots
        simp only [Bool.or_eq_true, List.contains_iff_mem, not_or] at hchars
        obtain ⟨⟨⟨hempty, -⟩, hself⟩, hparent⟩ := hdots
        obtain ⟨⟨hslash, hbackslash⟩, hnul⟩ := hchars
        -- What has no escape is decoded to itself.
        have hwritten : '%' ∉ segment → decoded = segment := fun hplain =>
          Option.some.inj (hdecoded.symm.trans (Percent.decodeText_of_not_mem hplain))
        refine ⟨hempty, fun hdot => ?_, fun hdots => ?_, fun hmem => hslash ?_, fun hmem => hbackslash ?_,
          fun hmem => hnul ?_⟩
        · exact hself ((hwritten (by rw [hdot]; decide)).trans hdot)
        · exact hparent ((hwritten (by rw [hdots]; decide)).trans hdots)
        · exact Percent.mem_of_decodeText hdecoded (by decide) (by decide) (by decide) hmem
        · exact Percent.mem_of_decodeText hdecoded (by decide) (by decide) (by decide) hmem
        · exact Percent.mem_of_decodeText hdecoded (by decide) (by decide) (by decide) hmem

theorem clean_of_validateSegments {ε : Type} {value original : List Char}
    {invalid : List Char → String → ε} (h : validateSegments value original invalid = .ok ()) :
    Clean value := by
  rw [validateSegments] at h
  intro segment hmem
  generalize value.splitOn '/' = segments at h hmem
  induction segments with
  | nil => exact nomatch hmem
  | cons first segments ih =>
    rw [List.forM_cons] at h
    cases hfirst : checkSegment original invalid first with
    | error e =>
      rw [hfirst] at h
      exact nomatch h
    | ok _ =>
      rw [hfirst] at h
      obtain rfl | hrest := List.mem_cons.mp hmem
      · exact plain_of_checkSegment hfirst
      · exact ih h hrest

theorem trimStart_of_head {text : List Char} (h : text.head? ≠ some '/') : trimStart text = text := by
  cases text with
  | nil => rfl
  | cons c rest =>
    rw [trimStart, List.dropWhile_cons_of_neg]
    simpa using h

namespace Clean

variable {path : List Char}

theorem ne_nil (h : Clean path) : path ≠ [] := by
  rintro rfl
  exact (h [] (by rw [List.splitOn_nil]; exact List.mem_singleton_self _)).nonempty rfl

/-- Both sides of a slash are clean. -/
theorem sides {a b : List Char} (h : Clean (a ++ '/' :: b)) : Clean a ∧ Clean b := by
  rw [Clean, List.splitOn_append_cons_self] at h
  exact ⟨fun segment hmem => h segment (List.mem_append_left _ hmem),
    fun segment hmem => h segment (List.mem_append_right _ hmem)⟩

theorem head_ne (h : Clean path) : path.head? ≠ some '/' := by
  intro hhead
  obtain ⟨rest, rfl⟩ := List.head?_eq_some_iff.mp hhead
  exact (sides (a := []) h).1.ne_nil rfl

theorem last_ne (h : Clean path) (hne : path ≠ []) : path.getLast hne ≠ '/' := by
  intro hlast
  rw [← List.dropLast_append_getLast hne, hlast] at h
  exact h.sides.2.ne_nil rfl

theorem trimStart_eq (h : Clean path) : trimStart path = path := trimStart_of_head h.head_ne

theorem trimEnd_eq (h : Clean path) : trimEnd path = path :=
  List.rdropWhile_eq_self_iff.mpr fun hne => by simpa using h.last_ne hne

end Clean

/-! ### Joined segments -/

/-- The segments after the first, each behind a slash. -/
def tail (segments : List (List Char)) : List Char := segments.flatMap ('/' :: ·)

theorem intercalate_eq (segment : List Char) (segments : List (List Char)) :
    ['/'].intercalate (segment :: segments) = segment ++ tail segments := by
  induction segments generalizing segment with
  | nil => rw [List.intercalate_singleton, tail, List.flatMap_nil, List.append_nil]
  | cons next segments ih =>
    have htail : tail (next :: segments) = '/' :: (next ++ tail segments) := by
      rw [tail, tail, List.flatMap_cons, List.cons_append]
    rw [List.intercalate_cons_cons, ih, htail, List.append_assoc]
    rfl

theorem path_eq_segments (path : List Char) :
    ∃ segment segments, path.splitOn '/' = segment :: segments ∧ path = segment ++ tail segments := by
  obtain ⟨segment, segments, hsplit⟩ := List.exists_cons_of_ne_nil (List.splitOn_ne_nil '/' path)
  refine ⟨segment, segments, hsplit, ?_⟩
  rw [← intercalate_eq, ← hsplit, List.intercalate_splitOn]

/-- What is in no segment of a path and is no slash is not in the path. -/
theorem not_mem_of_segments {path : List Char} {c : Char} (hc : c ≠ '/')
    (h : ∀ segment ∈ path.splitOn '/', c ∉ segment) : c ∉ path := by
  obtain ⟨segment, segments, hsplit, hpath⟩ := path_eq_segments path
  rw [hsplit, List.forall_mem_cons] at h
  rw [hpath, List.mem_append, tail, List.mem_flatMap]
  rintro (hfirst | ⟨segment', hmem, hlater⟩)
  · exact h.1 hfirst
  · exact h.2 segment' hmem ((List.mem_cons.mp hlater).resolve_left hc)

/-! ### URLs -/

/-- What `utf8_percent_encode` escapes: controls, and these. -/
def assetSegment (c : Char) : Bool :=
  c.toNat < 32 || c.toNat = 127 || " \"#%/<>?\\`\x7b\x7d".toList.contains c

def validateAssetPath (path : List Char) : Except AssetUrlError Unit :=
  if path.isEmpty || path.head? = some '/' || path.contains '?' || path.contains '#' then
    .error (.invalidPath path "must be a non-empty relative path without query or fragment")
  else validateSegments path path .invalidPath

/-- The path of a mount. -/
structure MountPath where
  text : List Char
  rooted : text.head? = some '/'
  clean : Clean (trimStart text)

theorem head?_trimEnd {value : List Char} (h : value.head? = some '/') (hne : trimEnd value ≠ []) :
    (trimEnd value).head? = some '/' := by
  obtain ⟨rest, hrest⟩ : trimEnd value <+: value := List.rdropWhile_prefix _ _
  obtain ⟨c, mount, hmount⟩ := List.exists_cons_of_ne_nil hne
  rw [← hrest, hmount] at h
  rw [hmount]
  exact h

def normalizeMount (value : List Char) : Except AssetUrlError MountPath :=
  if hroot : value.head? = some '/' then
    if value.contains '?' || value.contains '#' then
      .error (.invalidStaticUrl value "must be a root-relative path without query or fragment")
    else if hempty : trimEnd value = [] then .error (.invalidStaticUrl value "must not be the site root")
    else
      match hvalid : validateSegments (trimStart (trimEnd value)) value AssetUrlError.invalidStaticUrl with
      | .error e => .error e
      | .ok () => .ok ⟨trimEnd value, head?_trimEnd hroot hempty, clean_of_validateSegments hvalid⟩
  else .error (.invalidStaticUrl value "must be a root-relative path without query or fragment")

structure AssetUrls where
  staticUrl : List Char
  mountPath : MountPath

/-- The `url` crate. -/
class UrlCrate (υ : Type) where
  parse : List Char → Option υ
  scheme : υ → List Char
  host : υ → Option (List Char)
  username : υ → List Char
  password : υ → Option (List Char)
  query : υ → Option (List Char)
  fragment : υ → Option (List Char)
  path : υ → List Char
  setPath : υ → List Char → υ
  asStr : υ → List Char

namespace AssetUrls

def relative (value : List Char) : Except AssetUrlError AssetUrls := do
  let mountPath ← normalizeMount value
  .ok ⟨mountPath.text ++ ['/'], mountPath⟩

/-- The URL of a host and nothing but a path on it. -/
def checkAbsolute {υ : Type} [UrlCrate υ] (value : List Char) (url : υ) : Except AssetUrlError Unit :=
  if UrlCrate.scheme url ≠ "http".toList ∧ UrlCrate.scheme url ≠ "https".toList then
    .error (.invalidStaticUrl value "must use http or https")
  else if UrlCrate.host url = none ∨ UrlCrate.username url ≠ [] ∨ (UrlCrate.password url).isSome then
    .error (.invalidStaticUrl value "must include a host and no user credentials")
  else if (UrlCrate.query url).isSome ∨ (UrlCrate.fragment url).isSome then
    .error (.invalidStaticUrl value "must not contain a query or fragment")
  else .ok ()

def absolute (υ : Type) [UrlCrate υ] (value : List Char) : Except AssetUrlError AssetUrls :=
  match (UrlCrate.parse value : Option υ) with
  | none => .error (.invalidStaticUrl value "must be an absolute HTTP(S) URL or root-relative path")
  | some url => do
    checkAbsolute value url
    let mountPath ← normalizeMount (UrlCrate.path url)
    .ok ⟨trimEnd (UrlCrate.asStr (UrlCrate.setPath url mountPath.text)) ++ ['/'], mountPath⟩

def parse (υ : Type) [UrlCrate υ] (value : List Char) : Except AssetUrlError AssetUrls :=
  if value.head? = some '/' then relative value else absolute υ value

/-- The path of an asset as it is written in a URL. -/
def encoded (path : List Char) : List Char :=
  ['/'].intercalate ((path.splitOn '/').map (Percent.encode assetSegment))

def url (urls : AssetUrls) (path : List Char) : Except AssetUrlError (List Char) := do
  validateAssetPath path
  .ok (urls.staticUrl ++ encoded path)

end AssetUrls

/-! ### The paths of URLs -/

/-- A web URL of a host and nothing but a path on it. -/
structure HostOnly {υ : Type} [UrlCrate υ] (url : υ) : Prop where
  scheme : UrlCrate.scheme url = "http".toList ∨ UrlCrate.scheme url = "https".toList
  host : UrlCrate.host url ≠ none
  username : UrlCrate.username url = []
  password : UrlCrate.password url = none
  query : UrlCrate.query url = none
  fragment : UrlCrate.fragment url = none

/-- Such a URL is written as its scheme, its authority and its path; its own path without the slashes at
    the end can be set as it is. -/
structure UrlCrate.Lawful (υ : Type) [UrlCrate υ] : Prop where
  asStr_setPath : ∀ url : υ, HostOnly url → ∃ authority : List Char,
    (∀ c ∈ authority, c ≠ '/' ∧ c ≠ '?' ∧ c ≠ '#') ∧
    ∀ path, path.head? = some '/' → path = trimEnd (UrlCrate.path url) →
      UrlCrate.asStr (UrlCrate.setPath url path) = UrlCrate.scheme url ++ "://".toList ++ authority ++ path

theorem hostOnly_of_checkAbsolute {υ : Type} [UrlCrate υ] {value : List Char} {url : υ}
    (h : AssetUrls.checkAbsolute value url = .ok ()) : HostOnly url := by
  rw [AssetUrls.checkAbsolute] at h
  split at h
  next => exact nomatch h
  next hscheme =>
    split at h
    next => exact nomatch h
    next hhost =>
      split at h
      next => exact nomatch h
      next hquery =>
        simp only [not_or, not_not, Option.not_isSome_iff_eq_none] at hhost hquery
        exact ⟨by tauto, hhost.1, hhost.2.1, hhost.2.2, hquery.1, hquery.2⟩

/-- A mount is what it was made from without the slashes at the end, and a path only. -/
theorem normalizeMount_ok {value : List Char} {mount : MountPath} (h : normalizeMount value = .ok mount) :
    mount.text = trimEnd value ∧ '?' ∉ mount.text ∧ '#' ∉ mount.text := by
  rw [normalizeMount] at h
  split at h
  next =>
    split at h
    next => exact nomatch h
    next hpath =>
      rw [Bool.or_eq_true, List.contains_iff_mem, List.contains_iff_mem, not_or] at hpath
      have hsub : trimEnd value ⊆ value := (List.rdropWhile_prefix _ _).subset
      split at h
      next => exact nomatch h
      next =>
        split at h
        next => exact nomatch h
        next =>
          rw [← Except.ok.inj h]
          exact ⟨rfl, fun hmem => hpath.1 (hsub hmem), fun hmem => hpath.2 (hsub hmem)⟩
  next => exact nomatch h

/-- A mount is more than the site's root. -/
theorem MountPath.two_le_length (mount : MountPath) : 2 ≤ mount.text.length := by
  obtain ⟨below, hbelow⟩ := List.head?_eq_some_iff.mp mount.rooted
  have hnonempty := mount.clean.ne_nil
  rw [hbelow, trimStart, List.dropWhile_cons_of_pos (by decide)] at hnonempty
  have hpos : 0 < below.length := List.length_pos_of_ne_nil (by rintro rfl; exact hnonempty rfl)
  rw [hbelow, List.length_cons]
  omega

/-- A mount does not end in a slash. -/
theorem MountPath.trimEnd_append (mount : MountPath) (front : List Char) :
    trimEnd (front ++ mount.text) = front ++ mount.text := by
  refine List.rdropWhile_eq_self_iff.mpr fun hne => ?_
  have hsplit : front ++ mount.text =
      (front ++ mount.text.takeWhile (· = '/')) ++ trimStart mount.text := by
    rw [List.append_assoc, trimStart, List.takeWhile_append_dropWhile]
  have hlast : (front ++ mount.text).getLast hne = (trimStart mount.text).getLast mount.clean.ne_nil := by
    rw [List.getLast_congr hne (hsplit ▸ hne) hsplit]
    exact List.getLast_append_of_ne_nil _ mount.clean.ne_nil
  rw [hlast]
  simpa using mount.clean.last_ne mount.clean.ne_nil

/-- What is escaped is not in the path of an asset. -/
theorem not_mem_encoded {c : Char} (hset : assetSegment c = true) (hslash : c ≠ '/') (hpercent : c ≠ '%')
    (hhex : Percent.hexValue c = none) (path : List Char) : c ∉ AssetUrls.encoded path := by
  obtain ⟨segment, segments, hsplit, -⟩ := path_eq_segments path
  rw [AssetUrls.encoded, hsplit, List.map_cons, intercalate_eq, List.mem_append, tail, List.mem_flatMap]
  rintro (hfirst | ⟨other, hmem, hlater⟩)
  · exact Percent.not_mem_encode hset hpercent hhex _ hfirst
  · obtain ⟨other, -, rfl⟩ := List.mem_map.mp hmem
    exact Percent.not_mem_encode hset hpercent hhex _ ((List.mem_cons.mp hlater).resolve_left hslash)

/-- A URL of a scheme, an authority and a path. -/
theorem path_absolute {scheme authority path : List Char}
    (hscheme : scheme = "http".toList ∨ scheme = "https".toList)
    (hauthority : ∀ c ∈ authority, c ≠ '/' ∧ c ≠ '?' ∧ c ≠ '#') (hpath : path.head? = some '/')
    (hquery : '?' ∉ path) (hfragment : '#' ∉ path) :
    (Uri.parse (scheme ++ "://".toList ++ authority ++ path)).path = path := by
  have hdrop : Uri.splitAuthority ('/' :: '/' :: (authority ++ path)) = (some authority, path) := by
    obtain ⟨rest, rfl⟩ := List.head?_eq_some_iff.mp hpath
    have hall : ∀ c ∈ authority, (!(c = '/' || c = '?' || c = '#')) = true := by
      intro c hc
      simp [hauthority c hc]
    rw [Uri.splitAuthority, List.takeWhile_append_of_pos hall, List.dropWhile_append_of_pos hall]
    simp
  have hsplit : Uri.splitScheme (scheme ++ "://".toList ++ authority ++ path) =
      (some scheme, '/' :: '/' :: (authority ++ path)) := by
    rw [List.append_assoc, List.append_assoc]
    obtain rfl | rfl := hscheme <;> rfl
  have hwhole : Uri.splitPath path = (path, []) := Uri.splitPath_withQuery hquery hfragment none
  rw [Uri.parse, hsplit]
  dsimp only
  rw [hdrop]
  dsimp only
  rw [hwhole]

/-- The path of what stands below a static URL begins with its mount, if the URL is no network path. -/
theorem path_staticUrl {υ : Type} [UrlCrate υ] (hcrate : UrlCrate.Lawful υ) {value : List Char}
    {urls : AssetUrls} (h : AssetUrls.parse υ value = .ok urls) (hvalue : ¬['/', '/'] <+: value)
    {rest : List Char} (hquery : '?' ∉ rest) (hfragment : '#' ∉ rest) :
    (Uri.parse (urls.staticUrl ++ rest)).path = urls.mountPath.text ++ '/' :: rest := by
  have hbelow : ∀ {mount : MountPath} {c : Char}, c ∉ mount.text → c ∉ rest → c ≠ '/' →
      c ∉ mount.text ++ '/' :: rest := by
    intro mount c hmount hrest hslash hmem
    rcases List.mem_append.mp hmem with hmem | hmem
    · exact hmount hmem
    · exact hrest ((List.mem_cons.mp hmem).resolve_left hslash)
  have hroot : ∀ mount : MountPath, (mount.text ++ '/' :: rest).head? = some '/' := by
    intro mount
    rw [List.head?_append, mount.rooted, Option.some_or]
  rw [AssetUrls.parse] at h
  split at h
  next =>
    obtain ⟨mount, hnormal, hmount⟩ := Step.except_bind_ok.mp h
    obtain rfl := Except.ok.inj hmount
    obtain ⟨htext, hmountQuery, hmountFragment⟩ := normalizeMount_ok hnormal
    have hsingle : ¬['/', '/'] <+: mount.text ++ '/' :: rest := by
      intro hstart
      have hfront := List.prefix_of_prefix_length_le hstart (List.prefix_append _ _) mount.two_le_length
      exact hvalue (hfront.trans (htext ▸ List.rdropWhile_prefix _ _))
    have hpath : Uri.PathAndQuery (mount.text ++ '/' :: rest) none :=
      ⟨hsingle, hbelow hmountQuery hquery (by decide), hbelow hmountFragment hfragment (by decide), nofun⟩
    have hparse := Uri.parse_withQuery hpath (Uri.not_schemeLike_withQuery (hroot mount) none)
    rw [List.append_assoc]
    exact congrArg Uri.Reference.path hparse
  next =>
    rw [AssetUrls.absolute] at h
    cases hparse : (UrlCrate.parse value : Option υ) with
    | none =>
      rw [hparse] at h
      exact nomatch h
    | some url =>
      rw [hparse] at h
      obtain ⟨_, hcheck, hrest⟩ := Step.except_bind_ok.mp h
      obtain ⟨mount, hnormal, hmount⟩ := Step.except_bind_ok.mp hrest
      obtain rfl := Except.ok.inj hmount
      obtain ⟨htext, hmountQuery, hmountFragment⟩ := normalizeMount_ok hnormal
      have hhost := hostOnly_of_checkAbsolute hcheck
      obtain ⟨authority, hauthority, hstr⟩ := hcrate.asStr_setPath url hhost
      have hpath := hstr mount.text mount.rooted htext
      dsimp only
      rw [hpath, mount.trimEnd_append]
      simp only [List.append_assoc, List.singleton_append]
      have hfull := path_absolute hhost.scheme hauthority (hroot mount)
        (hbelow hmountQuery hquery (by decide)) (hbelow hmountFragment hfragment (by decide))
      rwa [List.append_assoc, List.append_assoc] at hfull

/-- Slashes that a text begins with are among its first ones. -/
theorem slashes_length_le {front text : List Char} (hfront : ∀ c ∈ front, c = '/') (h : front <+: text) :
    front.length ≤ (text.takeWhile (· = '/')).length := by
  obtain ⟨rest, rfl⟩ := h
  rw [List.takeWhile_append_of_pos fun c hc => decide_eq_true (hfront c hc), List.length_append]
  exact Nat.le_add_right _ _

/-- A slash in front of something else stands alone. -/
theorem slashes_single {text : List Char} (h : text.head? ≠ some '/') :
    (('/' :: text).takeWhile (· = '/')).length = 1 := by
  rw [List.takeWhile_cons_of_pos (by decide)]
  cases text with
  | nil => rfl
  | cons c rest => rw [List.takeWhile_cons_of_neg (by simpa using h)]; rfl

/-- A static URL that begins with two slashes is its own mount. -/
theorem relative_of_double {υ : Type} [UrlCrate υ] {value : List Char} {urls : AssetUrls}
    (h : AssetUrls.parse υ value = .ok urls) (hvalue : ['/', '/'] <+: value) :
    ['/', '/'] <+: urls.mountPath.text ∧ urls.staticUrl = urls.mountPath.text ++ ['/'] ∧
      '?' ∉ urls.mountPath.text ∧ '#' ∉ urls.mountPath.text := by
  have hroot : value.head? = some '/' := by
    obtain ⟨rest, rfl⟩ := hvalue
    rfl
  rw [AssetUrls.parse, if_pos hroot] at h
  obtain ⟨mount, hnormal, hmount⟩ := Step.except_bind_ok.mp h
  obtain rfl := Except.ok.inj hmount
  obtain ⟨htext, hquery, hfragment⟩ := normalizeMount_ok hnormal
  refine ⟨?_, rfl, hquery, hfragment⟩
  have hlength : 2 ≤ mount.text.length := mount.two_le_length
  exact List.prefix_of_prefix_length_le hvalue (htext ▸ List.rdropWhile_prefix _ _) hlength

/-- Behind its slashes a mount has a name, and what follows the name adds no slash to them. -/
theorem slashes_append {text : List Char} (hclean : Clean (trimStart text)) (rest : List Char) :
    (text ++ '/' :: rest).takeWhile (· = '/') = text.takeWhile (· = '/') := by
  obtain ⟨c, name, hname⟩ := List.exists_cons_of_ne_nil hclean.ne_nil
  have hfirst := hclean.head_ne
  rw [hname] at hfirst
  rw [trimStart] at hname
  have hstops : (c :: (name ++ '/' :: rest)).takeWhile (· = '/') = [] :=
    List.takeWhile_cons_of_neg (by simpa using hfirst)
  conv_lhs => rw [← List.takeWhile_append_dropWhile (p := (· = '/')) (l := text)]
  rw [hname, List.append_assoc, List.takeWhile_append_of_pos (fun c => List.mem_takeWhile_imp),
    List.cons_append, hstops, List.append_nil]

/-- What stands behind a host begins with one slash. -/
theorem slashes_behind_host {below rest : List Char} (hclean : Clean below) (hquery : '?' ∉ below)
    (hfragment : '#' ∉ below) (hrest : rest.head? ≠ some '/') :
    (((below ++ '/' :: rest).dropWhile fun c => !(c = '/' || c = '?' || c = '#')).takeWhile (· = '/')).length = 1 := by
  obtain ⟨segment, segments, hsplit, hsegments⟩ := path_eq_segments below
  rw [Clean, hsplit, List.forall_mem_cons] at hclean
  have hhost : ∀ c ∈ segment, (!(c = '/' || c = '?' || c = '#')) = true := by
    intro c hc
    have hmem : c ∈ below := by simp [hsegments, hc]
    have hslash := ne_of_mem_of_not_mem hc hclean.1.noSlash
    simp [hslash, ne_of_mem_of_not_mem hmem hquery, ne_of_mem_of_not_mem hmem hfragment]
  have hfirst : ∃ text, tail segments ++ '/' :: rest = '/' :: text ∧ text.head? ≠ some '/' := by
    cases segments with
    | nil => exact ⟨rest, rfl, hrest⟩
    | cons name names =>
      have hname := hclean.2 name List.mem_cons_self
      obtain ⟨c, more, rfl⟩ := List.exists_cons_of_ne_nil hname.nonempty
      refine ⟨_, by rw [tail, List.flatMap_cons]; rfl, ?_⟩
      have hc : c ≠ '/' := fun hc => hname.noSlash (hc ▸ List.mem_cons_self)
      simpa using hc
  obtain ⟨text, htext, hsingle⟩ := hfirst
  rw [hsegments, List.append_assoc, List.dropWhile_append_of_pos hhost, htext,
    List.dropWhile_cons_of_neg (by decide), slashes_single hsingle]

/-- Below a mount that begins with two slashes the URL is a network path: its host is taken for the
    beginning of the mount, and its own path begins with fewer slashes. -/
theorem slashes_not_prefix {mount : MountPath} (hdouble : ['/', '/'] <+: mount.text) (hquery : '?' ∉ mount.text)
    (hfragment : '#' ∉ mount.text) {rest : List Char} (hrest : rest.head? ≠ some '/') :
    ¬mount.text.takeWhile (· = '/') <+: (Uri.parse (mount.text ++ '/' :: rest)).path := by
  obtain ⟨below, hbelow⟩ := hdouble
  replace hbelow : mount.text = '/' :: '/' :: below := hbelow.symm
  have hclean := mount.clean
  rw [hbelow] at hquery hfragment hclean ⊢
  rw [List.takeWhile_cons_of_pos (by decide), List.takeWhile_cons_of_pos (by decide)]
  rw [trimStart, List.dropWhile_cons_of_pos (by decide), List.dropWhile_cons_of_pos (by decide)] at hclean
  intro h
  -- The path is what stands behind the host.
  have hpath : (Uri.parse ('/' :: '/' :: below ++ '/' :: rest)).path <+:
      (below ++ '/' :: rest).dropWhile fun c => !(c = '/' || c = '?' || c = '#') := by
    rw [Uri.parse, List.cons_append, Uri.splitScheme_of_not_schemeLike (Uri.not_schemeLike_slash _)]
    exact List.takeWhile_prefix _
  have hslashes : ∀ c ∈ '/' :: '/' :: below.takeWhile (· = '/'), c = '/' := by
    simp only [List.mem_cons, forall_eq_or_imp, true_and]
    intro c hc
    have hslash := List.mem_takeWhile_imp hc
    simpa using hslash
  have hcount := slashes_length_le hslashes (h.trans hpath)
  simp only [List.length_cons] at hcount
  by_cases hhead : below.head? = some '/'
  · -- The host is empty: the path is all that stands behind two slashes.
    obtain ⟨more, rfl⟩ := List.head?_eq_some_iff.mp hhead
    rw [List.cons_append, List.dropWhile_cons_of_neg (by decide), ← List.cons_append,
      slashes_append hclean] at hcount
    omega
  · rw [← trimStart, trimStart_of_head hhead] at hclean
    have hmem : ∀ {c : Char}, c ∉ '/' :: '/' :: below → c ∉ below := fun hnot hc =>
      hnot (List.mem_cons_of_mem _ (List.mem_cons_of_mem _ hc))
    rw [slashes_behind_host hclean (hmem hquery) (hmem hfragment) hrest] at hcount
    omega

end Vyuh.Assets
