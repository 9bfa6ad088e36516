import Vyuh.Assets.Serve
import Vyuh.Lib.StdPath

/-! The files of static pages and assets (`collectors/path.rs`). A URL that is accepted names a file below
    the output directory; its relative path may begin with a `.`, which the file's own path leaves out. -/

namespace Vyuh.Collectors

open Lib Lib.StdPath Assets

inductive StaticAssetError
  | invalidOptions (reason : String)
  | nonPublicAsset (path : List Char)
  | outputEscape (path : List Char)
  | pageConflict (path page : PathBuf)
  | io (path : PathBuf)
  deriving DecidableEq

inductive StaticExportError
  | invalidExportOptions (reason : String)
  | invalidUrl (url : List Char) (reason : String)
  | outputEscape (url : List Char)
  | duplicateOutputPath (left right : List Char) (path : PathBuf)
  | nonSuccess (url : List Char) (status : ℕ)
  | renderFailed (url : List Char)
  | asset (error : StaticAssetError)
  | io (path : PathBuf)
  deriving DecidableEq

/-! ### Paths -/

def validateSegment (path segment : List Char) : Except StaticExportError Unit :=
  if segment = "..".toList then .error (.invalidUrl path "parent directory segments are not allowed")
  else if segment.getLast? = some ':' then
    .error (.invalidUrl path "Windows drive prefixes are not allowed")
  else .ok ()

def validateUrl (path : List Char) : Except StaticExportError Unit :=
  if path.head? ≠ some '/' then .error (.invalidUrl path "URL must start with '/'")
  else if path.contains '?' then .error (.invalidUrl path "query strings are not supported")
  else if path.contains '#' then .error (.invalidUrl path "fragments are not supported")
  else if path.contains '\\' then .error (.invalidUrl path "backslashes are not allowed")
  else if path.contains '\x00' then .error (.invalidUrl path "NUL bytes are not allowed")
  else forM (path.splitOn '/') (validateSegment path)

def indexHtml : PathBuf := [.normal "index.html".toList]

def urlToRelativePath (url : List Char) : Except StaticExportError PathBuf := do
  validateUrl url
  let stripped := trimStart url
  if stripped.isEmpty then .ok indexHtml
  else if url.getLast? = some '/' then .ok (join (parse (trimEnd stripped)) indexHtml)
  else if (extension (parse stripped)).isSome then .ok (parse stripped)
  else .ok (setExtension (parse stripped) "html".toList)

def pushComponent (out : PathBuf) : Component → Option PathBuf
  | .normal part => some (join out [.normal part])
  | .curDir => some out
  | .parentDir | .rootDir => none

/-- The path without a `.`; nothing, if it may leave the directory that it is joined to. -/
def safeRelativePath (path : PathBuf) : Option PathBuf := path.foldlM pushComponent []

def safeJoin (base rel : PathBuf) : Option PathBuf := (safeRelativePath rel).map (join base)

def urlToOutputPath (outputDir : PathBuf) (url : List Char) : Except StaticExportError PathBuf := do
  validateUrl url
  let rel ← urlToRelativePath url
  match safeJoin outputDir rel with
  | none => .error (.outputEscape url)
  | some out => .ok out

def assetRelativePath (path : List Char) : Except StaticAssetError PathBuf :=
  let rel := path.map fun c => if c = '\\' then '/' else c
  match rel.dropPrefix? "public/".toList with
  | none => .error (.nonPublicAsset rel)
  | some stripped =>
    match safeRelativePath (parse stripped) with
    | none => .error (.outputEscape stripped)
    | some rel => .ok rel

/-! ### Paths below a directory -/

/-- A path of plain names only. -/
def Below (path : PathBuf) : Prop := ∃ names : List (List Char), (∀ name ∈ names, Plain name) ∧ path = names.map .normal

theorem foldlM_names (out : PathBuf) (names : List (List Char)) :
    (names.map .normal).foldlM pushComponent out = some (out ++ names.map .normal) := by
  induction names generalizing out with
  | nil => exact congrArg some (List.append_nil out).symm
  | cons name names ih =>
    rw [List.map_cons, List.foldlM_cons]
    refine (ih (out ++ [.normal name])).trans ?_
    rw [List.append_assoc, List.singleton_append]

namespace Below

variable {path : PathBuf}

theorem safeRelativePath_eq (h : Below path) {dot : PathBuf} (hdot : Dot dot) :
    safeRelativePath (dot ++ path) = some path := by
  obtain ⟨names, -, rfl⟩ := h
  rcases hdot with rfl | rfl
  · exact foldlM_names [] names
  · exact foldlM_names [] names

theorem join_eq (h : Below path) (base : PathBuf) : join base path = base ++ path := by
  obtain ⟨names, -, rfl⟩ := h
  exact join_names base names

theorem append {path' : PathBuf} (h : Below path) (h' : Below path') : Below (path ++ path') := by
  obtain ⟨names, hnames, rfl⟩ := h
  obtain ⟨names', hnames', rfl⟩ := h'
  refine ⟨names ++ names', fun name hmem => ?_, List.map_append.symm⟩
  exact (List.mem_append.mp hmem).elim (hnames name) (hnames' name)

theorem of_append {front : PathBuf} (h : Below (front ++ path)) : Below path := by
  obtain ⟨names, hplain, hnames⟩ := h
  obtain ⟨first, rest, rfl, -, hrest⟩ := List.map_eq_append_iff.mp hnames.symm
  exact ⟨rest, fun name hmem => hplain name (List.mem_append_right _ hmem), hrest.symm⟩

end Below

/-- A text of plain segments is the path of them. -/
theorem parse_clean {text : List Char} (h : Clean text) : parse text = (text.splitOn '/').map .normal := by
  have hcomponent : ∀ segment ∈ text.splitOn '/', component segment = some (.normal segment) := fun segment hmem =>
    component_named (h segment hmem).nonempty (h segment hmem).notSelf (h segment hmem).notParent
  obtain ⟨first, rest, hsplit⟩ := List.exists_cons_of_ne_nil (List.splitOn_ne_nil '/' text)
  rw [Clean, hsplit, List.forall_mem_cons] at h
  rw [hsplit, List.forall_mem_cons] at hcomponent
  rw [parse, hsplit]
  dsimp only
  rw [if_neg fun hroot => h.1.nonempty hroot.1, if_neg h.1.notSelf, hcomponent.1, List.map_cons,
    List.filterMap_congr hcomponent.2, List.filterMap_eq_map']
  rfl

/-- What is safe to join is made of names. -/
theorem safeRelativePath_names {path rel : PathBuf} (h : safeRelativePath path = some rel) :
    ∃ names : List (List Char), rel = names.map .normal := by
  have hfold : ∀ (path out rel : PathBuf), (∃ names : List (List Char), out = names.map .normal) →
      path.foldlM pushComponent out = some rel → ∃ names : List (List Char), rel = names.map .normal := by
    intro path
    induction path with
    | nil =>
      rintro out rel hout h
      exact Option.some.inj h ▸ hout
    | cons component path ih =>
      rintro out rel ⟨names, rfl⟩ h
      rw [List.foldlM_cons] at h
      obtain ⟨next, hnext, hrest⟩ := Option.bind_eq_some_iff.mp h
      refine ih next rel ?_ hrest
      cases component with
      | normal part =>
        refine ⟨names ++ [part], ?_⟩
        rw [List.map_append]
        exact (Option.some.inj hnext).symm
      | curDir => exact ⟨names, (Option.some.inj hnext).symm⟩
      | parentDir => exact nomatch hnext
      | rootDir => exact nomatch hnext
  exact hfold path [] rel ⟨[], rfl⟩ h

theorem assetRelativePath_names {path : List Char} {rel : PathBuf} (h : assetRelativePath path = .ok rel) :
    ∃ names : List (List Char), rel = names.map .normal := by
  rw [assetRelativePath] at h
  split at h
  next => exact nomatch h
  next =>
    split at h
    next => exact nomatch h
    next hsafe => exact Except.ok.inj h ▸ safeRelativePath_names hsafe

theorem safeJoin_names (base : PathBuf) (names : List (List Char)) :
    safeJoin base (names.map .normal) = some (base ++ names.map .normal) := by
  rw [safeJoin, safeRelativePath, foldlM_names, List.nil_append, Option.map_some, join_names]

/-- Every path of names is the relative path of an asset. -/
theorem assetRelativePath_below {path : PathBuf} (h : Below path) (hne : path ≠ []) :
    ∃ text, assetRelativePath text = .ok path := by
  obtain ⟨names, hplain, rfl⟩ := h
  obtain ⟨name, rest, rfl⟩ := List.exists_cons_of_ne_nil (fun hnil => hne (congrArg (List.map Component.normal) hnil))
  have hsplit : (['/'].intercalate (name :: rest)).splitOn '/' = name :: rest :=
    List.splitOn_intercalate '/' (fun segment hmem => (hplain segment hmem).noSlash) (by simp)
  have hclean : Clean (['/'].intercalate (name :: rest)) := by
    intro segment hmem
    exact hplain segment (hsplit ▸ hmem)
  have hbackslash : '\\' ∉ "public/".toList ++ ['/'].intercalate (name :: rest) := by
    refine fun hmem => (List.mem_append.mp hmem).elim (by decide) ?_
    exact not_mem_of_segments (by decide) fun segment hin => (hclean segment hin).noBackslash
  refine ⟨"public/".toList ++ ['/'].intercalate (name :: rest), ?_⟩
  have hmap : ("public/".toList ++ ['/'].intercalate (name :: rest)).map (fun c => if c = '\\' then '/' else c) =
      "public/".toList ++ ['/'].intercalate (name :: rest) := by
    conv_rhs => rw [← List.map_id ("public/".toList ++ ['/'].intercalate (name :: rest))]
    refine List.map_congr_left fun c hmem => if_neg ?_
    rintro rfl
    exact hbackslash hmem
  rw [assetRelativePath, hmap, List.dropPrefix?_append_of_beq _ (beq_self_eq_true _)]
  dsimp only
  rw [parse_clean hclean, hsplit, safeRelativePath, foldlM_names]
  rfl

/-! ### URLs that are accepted -/

/-- What a URL's segments are made of. -/
structure Accepted (segment : List Char) : Prop where
  notParent : segment ≠ ['.', '.']
  noSlash : '/' ∉ segment
  noBackslash : '\\' ∉ segment
  noNul : '\x00' ∉ segment

theorem accepted_of_validateUrl {url : List Char} (h : validateUrl url = .ok ()) :
    url.head? = some '/' ∧ ∀ segment ∈ url.splitOn '/', Accepted segment := by
  rw [validateUrl] at h
  obtain ⟨hroot, h⟩ := Step.except_check_ok.mp h
  obtain ⟨-, h⟩ := Step.except_check_ok.mp h
  obtain ⟨-, h⟩ := Step.except_check_ok.mp h
  obtain ⟨hbackslash, h⟩ := Step.except_check_ok.mp h
  obtain ⟨hnul, h⟩ := Step.except_check_ok.mp h
  rw [List.contains_iff_mem] at hbackslash hnul
  refine ⟨not_not.mp hroot, fun segment hmem => ?_⟩
  obtain ⟨hslash, hsub⟩ := of_mem_splitOn hmem
  refine ⟨?_, hslash, fun hin => hbackslash (hsub hin), fun hin => hnul (hsub hin)⟩
  generalize url.splitOn '/' = segments at h hmem
  induction segments with
  | nil => exact nomatch hmem
  | cons first segments ih =>
    rw [List.forM_cons] at h
    obtain ⟨_, hfirst, hrest⟩ := Step.except_bind_ok.mp h
    obtain rfl | hmem := List.mem_cons.mp hmem
    · exact (Step.except_check_ok.mp hfirst).1
    · exact ih hrest hmem

theorem splitOn_trimStart_subset (text : List Char) : (trimStart text).splitOn '/' ⊆ text.splitOn '/' := by
  induction text with
  | nil => exact List.Subset.refl _
  | cons c text ih =>
    rw [trimStart, List.dropWhile_cons]
    split
    next hslash =>
      obtain rfl := of_decide_eq_true hslash
      refine List.Subset.trans ih ?_
      rw [← List.nil_append ('/' :: text), List.splitOn_append_cons_self]
      exact List.subset_append_right _ _
    next => exact List.Subset.refl _

theorem splitOn_trimEnd_subset (text : List Char) : (trimEnd text).splitOn '/' ⊆ text.splitOn '/' := by
  induction text using List.reverseRecOn with
  | nil => exact List.Subset.refl _
  | append_singleton text c ih =>
    rw [trimEnd, List.rdropWhile_concat]
    split
    next hslash =>
      obtain rfl := of_decide_eq_true hslash
      refine List.Subset.trans ih ?_
      rw [List.splitOn_append_cons_self]
      exact List.subset_append_left _ _
    next => exact List.Subset.refl _

/-- The path of what is left of a URL. -/
theorem parse_accepted {text : List Char} (hroot : text.head? ≠ some '/')
    (h : ∀ segment ∈ text.splitOn '/', Accepted segment) :
    ∃ dot path, Dot dot ∧ Below path ∧ parse text = dot ++ path := by
  have hnames : Below ((text.splitOn '/').filterMap component) := by
    generalize text.splitOn '/' = segments at h
    induction segments with
    | nil => exact ⟨[], fun _ hmem => (nomatch hmem), rfl⟩
    | cons segment segments ih =>
      obtain ⟨names, hplain, hrest⟩ := ih fun segment' hmem => h segment' (List.mem_cons_of_mem _ hmem)
      have hsegment := h segment List.mem_cons_self
      rw [List.filterMap_cons, hrest, component]
      by_cases hempty : segment = [] ∨ segment = ['.']
      · rw [if_pos hempty]
        exact ⟨names, hplain, rfl⟩
      · rw [if_neg hempty, if_neg hsegment.notParent]
        obtain ⟨hne, hdot⟩ := not_or.mp hempty
        refine ⟨segment :: names, fun name hmem => ?_, rfl⟩
        obtain rfl | hmem := List.mem_cons.mp hmem
        · exact ⟨hne, hdot, hsegment.notParent, hsegment.noSlash, hsegment.noBackslash, hsegment.noNul⟩
        · exact hplain name hmem
  obtain ⟨dot, hdot, hparse⟩ := parse_relative hroot
  exact ⟨dot, _, hdot, hnames, hparse⟩

theorem plain_append_html {name : List Char} (h : Plain name) : Plain (name ++ ".html".toList) := by
  have hmem : ∀ {c : Char}, c ∉ name → c ∉ ".html".toList → c ∉ name ++ ".html".toList := fun hname hhtml hmem =>
    (List.mem_append.mp hmem).elim hname hhtml
  have hlength : 5 < (name ++ ".html".toList).length := by
    rw [List.length_append]
    exact Nat.lt_add_of_pos_left (List.length_pos_of_ne_nil h.nonempty)
  refine ⟨fun heq => ?_, fun heq => ?_, fun heq => ?_, hmem h.noSlash (by decide), hmem h.noBackslash (by decide),
    hmem h.noNul (by decide)⟩
  all_goals
    rw [heq] at hlength
    exact absurd hlength (by decide)

/-- A page without an extension becomes an HTML file. -/
theorem setExtension_below {dot path : PathBuf} (hdot : Dot dot) (h : Below path)
    (hext : extension (dot ++ path) = none) :
    ∃ path', Below path' ∧ setExtension (dot ++ path) "html".toList = dot ++ path' := by
  obtain ⟨names, hplain, rfl⟩ := h
  rcases List.eq_nil_or_concat' names with rfl | ⟨front, name, rfl⟩
  · refine ⟨[], ⟨[], hplain, rfl⟩, ?_⟩
    rcases hdot with rfl | rfl <;> rfl
  · rw [List.map_append, List.map_singleton, ← List.append_assoc] at hext ⊢
    refine ⟨(front ++ [name ++ ".html".toList]).map .normal, ⟨_, fun other hmem => ?_, rfl⟩, ?_⟩
    · rcases List.mem_append.mp hmem with hfront | hlast
      · exact hplain other (List.mem_append_left _ hfront)
      · rw [List.mem_singleton.mp hlast]
        exact plain_append_html (hplain name (List.mem_append_right _ (List.mem_singleton_self _)))
    · rw [setExtension_concat hext, List.map_append, List.append_assoc]
      rfl

theorem trimStart_head (text : List Char) : (trimStart text).head? ≠ some '/' := by
  intro hhead
  have hnot := List.head?_dropWhile_not (fun c : Char => decide (c = '/')) text
  rw [trimStart] at hhead
  rw [hhead] at hnot
  exact absurd hnot (by decide)

/-- The relative path of an accepted URL has plain names, behind a `.` at most. -/
theorem urlToRelativePath_cases {url : List Char} (h : validateUrl url = .ok ()) :
    ∃ dot path, Dot dot ∧ Below path ∧ urlToRelativePath url = .ok (dot ++ path) := by
  obtain ⟨-, haccepted⟩ := accepted_of_validateUrl h
  have hstripped : ∀ segment ∈ (trimStart url).splitOn '/', Accepted segment := fun segment hmem =>
    haccepted segment (splitOn_trimStart_subset url hmem)
  have hindex : Below indexHtml := ⟨["index.html".toList], by decide, rfl⟩
  have hurl : urlToRelativePath url = if (trimStart url).isEmpty then .ok indexHtml
      else if url.getLast? = some '/' then .ok (join (parse (trimEnd (trimStart url))) indexHtml)
      else if (extension (parse (trimStart url))).isSome then .ok (parse (trimStart url))
      else .ok (setExtension (parse (trimStart url)) "html".toList) := by
    rw [urlToRelativePath, h]
    rfl
  rw [hurl]
  by_cases hempty : (trimStart url).isEmpty = true
  · rw [if_pos hempty]
    exact ⟨[], _, .inl rfl, hindex, rfl⟩
  rw [if_neg hempty]
  by_cases hslash : url.getLast? = some '/'
  · have hroot : (trimEnd (trimStart url)).head? ≠ some '/' := fun hhead => by
      obtain ⟨rest, hrest⟩ := List.rdropWhile_prefix (fun c : Char => decide (c = '/')) (trimStart url)
      refine trimStart_head url ?_
      rw [← hrest, List.head?_append, ← trimEnd, hhead]
      rfl
    obtain ⟨dot, path, hdot, hbelow, hparse⟩ := parse_accepted hroot fun segment hmem =>
      hstripped segment (splitOn_trimEnd_subset _ hmem)
    refine ⟨dot, path ++ indexHtml, hdot, hbelow.append hindex, ?_⟩
    rw [if_pos hslash, hindex.join_eq, hparse, List.append_assoc]
  rw [if_neg hslash]
  obtain ⟨dot, path, hdot, hbelow, hparse⟩ := parse_accepted (trimStart_head url) hstripped
  rw [hparse]
  by_cases hext : (extension (dot ++ path)).isSome = true
  · exact ⟨dot, path, hdot, hbelow, if_pos hext⟩
  · obtain ⟨path', hbelow', hset⟩ := setExtension_below hdot hbelow (Option.not_isSome_iff_eq_none.mp hext)
    rw [if_neg hext, hset]
    exact ⟨dot, path', hdot, hbelow', rfl⟩

/-- An accepted URL is written below the output directory. -/
theorem urlToOutputPath_eq {url : List Char} (h : validateUrl url = .ok ()) {dot path : PathBuf}
    (hdot : Dot dot) (hbelow : Below path) (hrel : urlToRelativePath url = .ok (dot ++ path))
    (outputDir : PathBuf) : urlToOutputPath outputDir url = .ok (outputDir ++ path) := by
  rw [urlToOutputPath, h, hrel]
  show (match safeJoin outputDir (dot ++ path) with | none => _ | some out => Except.ok out) = _
  rw [safeJoin, hbelow.safeRelativePath_eq hdot, Option.map_some, hbelow.join_eq]

end Vyuh.Collectors
