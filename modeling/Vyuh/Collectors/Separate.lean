import Mathlib
import Vyuh.Collectors.Export

/-! Which exports keep the files of their pages and assets apart. -/

namespace Vyuh.Collectors

open Lib Lib.StdPath Assets

variable {pages : List Page} {outputPaths : OutputPaths} {urls : List (List Char)} {written : Written}

/-! ### What keeps files apart -/

/-- Every file lies below the output directory, and no two pages are written to one file, unless the export
    ends because two URLs have the same path. -/
structure Separate (output : PathBuf) (run : Except StaticExportError ℕ × List Written) : Prop where
  below : ∀ written ∈ run.2, startsWith written.file output ∧ written.file ≠ output
  apart : (∃ left right path, run.1 = .error (.duplicateOutputPath left right path)) ∨
    ∀ written ∈ run.2, ∀ other ∈ run.2, written.file = other.file → written.source = other.source

/-- No asset is written over a page. -/
def NoOverwrite (run : Except StaticExportError StaticExportReport × List Written) : Prop :=
  ∀ written ∈ run.2, ∀ other ∈ run.2, ∀ url path, written.source = .page url → other.source = .asset path →
    written.file ≠ other.file

/-- A page that is answered and can be written, to a file and not to the output directory itself. -/
def Page.exported (output : PathBuf) (page : Page) : Bool :=
  page.rendered.any (fun answer => answer.1 = 200) && page.storing = .stored &&
    urlToOutputPath output page.info.path ≠ .ok output

/-- The URLs up to the first page that cannot be exported, with its own. -/
def reached (output : PathBuf) : List Page → List (List Char)
  | [] => []
  | page :: pages => page.info.path :: if page.exported output then reached output pages else []

/-- Two of the URLs have the same relative path. -/
def Repeated (urls : List (List Char)) : Prop := ¬(urls.map urlToRelativePath).Nodup

/-- The first URL's relative path is the other's behind a `.`. -/
def Alias (url other : List Char) : Prop :=
  ∃ rel, urlToRelativePath other = .ok rel ∧ urlToRelativePath url = .ok (.curDir :: rel)

/-- Unless a relative path is repeated, no page that is exported is another one behind a `.`; and when the
    assets' turn comes, the pages among the assets are found without a `.` in the URLs collected for it. -/
structure KeptApart (options : StaticExportOptions) (mount : MountPath) (prepared : Bool) (urls : List Page)
    (later : List UrlInfo) : Prop where
  pages : ∀ pages, selectPages options prepared urls = .ok pages → ¬Repeated (reached options.output pages) →
    ∀ page ∈ pages.takeWhile (Page.exported options.output), ∀ other ∈ pages.takeWhile (Page.exported options.output),
      ¬Alias page.info.path other.info.path
  assets : ∀ pages, options.glob = none → selectPages options prepared urls = .ok pages →
    (∀ page ∈ pages, page.exported options.output) → ¬Repeated (pages.map (·.info.path)) →
    ¬Repeated (staticUrls later) → ∀ page ∈ pages, ∀ path ≠ [],
      urlToOutputPath options.output page.info.path = .ok (options.output ++ (staticAssetPath mount ++ path)) →
      ∃ url ∈ staticUrls later, urlToRelativePath url = .ok (staticAssetPath mount ++ path)

theorem takeWhile_reached {output : PathBuf} {page : Page}
    (h : page ∈ pages.takeWhile (Page.exported output)) : page.info.path ∈ reached output pages := by
  induction pages with
  | nil => exact nomatch h
  | cons first pages ih =>
    rw [List.takeWhile_cons] at h
    rw [reached]
    split at h
    next hexported =>
      rw [if_pos hexported]
      obtain rfl | h := List.mem_cons.mp h
      · exact List.mem_cons_self
      · exact List.mem_cons_of_mem _ (ih h)
    next => exact nomatch h

/-! ### Relative paths that are new -/

/-- The URLs have relative paths of their own, which are not among the ones seen. -/
structure Fresh (outputPaths : OutputPaths) (urls : List (List Char)) : Prop where
  nodup : (urls.map urlToRelativePath).Nodup
  unseen : ∀ url ∈ urls, ∀ rel, urlToRelativePath url = .ok rel → outputPaths rel = none

theorem fresh_empty_iff : Fresh FMap.empty urls ↔ ¬Repeated urls := by
  rw [Repeated, not_not]
  exact ⟨Fresh.nodup, fun h => ⟨h, fun _ _ _ _ => rfl⟩⟩

theorem fresh_cons_iff {url : List Char} {rel : PathBuf} (h : urlToRelativePath url = .ok rel) :
    Fresh outputPaths (url :: urls) ↔ outputPaths rel = none ∧ Fresh (outputPaths.insert rel url) urls := by
  constructor
  · rintro ⟨hnodup, hunseen⟩
    rw [List.map_cons, List.nodup_cons] at hnodup
    refine ⟨hunseen url List.mem_cons_self rel h, hnodup.2, fun other hmem path hpath => ?_⟩
    rw [FMap.insert_of_ne]
    · exact hunseen other (List.mem_cons_of_mem _ hmem) path hpath
    · rintro rfl
      exact hnodup.1 (h ▸ hpath ▸ List.mem_map_of_mem hmem)
  · rintro ⟨hnone, hnodup, hunseen⟩
    have hother : ∀ other ∈ urls, ∀ path, urlToRelativePath other = .ok path → path ≠ rel ∧ outputPaths path = none := by
      intro other hmem path hpath
      have hinserted := hunseen other hmem path hpath
      rw [FMap.insert_apply] at hinserted
      split at hinserted
      next => exact nomatch hinserted
      next hne => exact ⟨hne, hinserted⟩
    refine ⟨?_, fun other hmem path hpath => ?_⟩
    · rw [List.map_cons, List.nodup_cons]
      refine ⟨fun hmem => ?_, hnodup⟩
      obtain ⟨other, hin, hsame⟩ := List.mem_map.mp hmem
      exact (hother other hin rel (hsame.trans h)).1 rfl
    · obtain rfl | hmem := List.mem_cons.mp hmem
      · exact Except.ok.inj (h.symm.trans hpath) ▸ hnone
      · exact (hother other hmem path hpath).2

/-! ### Pages -/

/-- A page's file. -/
structure Writes (output : PathBuf) (page : Page) (written : Written) : Prop where
  source : written.source = .page page.info.path
  file : urlToOutputPath output page.info.path = .ok written.file
  below : written.file ≠ output

def Duplicate {α : Type} (result : Except StaticExportError α) : Prop :=
  ∃ left right path, result = .error (.duplicateOutputPath left right path)

section

variable {output : PathBuf} {page : Page} {log : List Written}

theorem store_stored {ε : Type} {io : PathBuf → ε} {dir file : PathBuf} {source : Source} {bytes : List UInt8}
    (h : file ≠ dir) : store io dir file .stored source (.ok bytes) log = (.ok (), log ++ [⟨source, file, bytes⟩]) := by
  show (if file = dir then _ else _ : Export ε Unit) log = _
  rw [if_neg h]
  rfl

theorem renderPage_exported (h : validateUrl page.info.path = .ok ()) (hpage : page.exported output = true) :
    ∃ written, Writes output page written ∧ renderPage output page log = (.ok (), log ++ [written]) := by
  obtain ⟨dot, path, hdot, hbelow, hrel⟩ := urlToRelativePath_cases h
  have hout := urlToOutputPath_eq h hdot hbelow hrel output
  rw [Page.exported, Bool.and_eq_true, Bool.and_eq_true, decide_eq_true_eq, decide_eq_true_eq, hout] at hpage
  obtain ⟨⟨hrendered, hstoring⟩, hne⟩ := hpage
  obtain ⟨⟨status, body⟩, hanswer, hstatus⟩ := (Option.any_eq_true _ _).mp hrendered
  obtain rfl : status = 200 := of_decide_eq_true hstatus
  have hfile : output ++ path ≠ output := fun heq => hne (congrArg Except.ok heq)
  refine ⟨⟨.page page.info.path, output ++ path, body⟩, ⟨rfl, hout, hfile⟩, ?_⟩
  rw [renderPage, hout, hanswer, hstoring]
  exact store_stored hfile

theorem renderPage_refused (h : validateUrl page.info.path = .ok ()) (hpage : ¬page.exported output = true) :
    ∃ error, renderPage output page log = (.error error, log) ∧ ¬Duplicate (.error (α := Unit) error) := by
  obtain ⟨dot, path, hdot, hbelow, hrel⟩ := urlToRelativePath_cases h
  have hout := urlToOutputPath_eq h hdot hbelow hrel output
  rw [Page.exported, Bool.and_eq_true, Bool.and_eq_true, decide_eq_true_eq, decide_eq_true_eq, hout] at hpage
  have hother : ∀ {error : StaticExportError}, (∀ left right path, error ≠ .duplicateOutputPath left right path) →
      ¬Duplicate (.error (α := Unit) error) := by
    rintro error hne ⟨left, right, path, heq⟩
    exact hne left right path (Except.error.inj heq)
  rw [renderPage, hout]
  cases hrendered : page.rendered with
  | none => exact ⟨_, rfl, hother fun _ _ _ => nofun⟩
  | some answer =>
    obtain ⟨status, body⟩ := answer
    show ∃ error, (if status ≠ 200 then _ else _ : Export _ _) log = _ ∧ _
    split
    next => exact ⟨_, rfl, hother fun _ _ _ => nofun⟩
    next hstatus =>
      cases hstoring : page.storing with
      | noParent => exact ⟨_, rfl, hother fun _ _ _ => nofun⟩
      | unwritable => exact ⟨_, rfl, hother fun _ _ _ => nofun⟩
      | stored =>
        have hfile : output ++ path = output := by
          by_contra hne
          refine hpage ⟨⟨?_, hstoring⟩, fun heq => hne (Except.ok.inj heq)⟩
          rw [hrendered]
          exact decide_eq_true (not_not.mp hstatus)
        refine ⟨.io (output ++ path), ?_, hother fun _ _ _ => nofun⟩
        show (if output ++ path = output then _ else _ : Export _ _) log = _
        rw [if_pos hfile]
        rfl

section

variable {outputPaths : OutputPaths} {pages : List Page} {rel : PathBuf}

theorem writePages_seen {existing : List Char} (hrel : urlToRelativePath page.info.path = .ok rel)
    (hseen : outputPaths rel = some existing) : writePages output outputPaths (page :: pages) log =
      (.error (.duplicateOutputPath existing page.info.path rel), log) := by
  rw [writePages, hrel, Step.bind_run, Step.lift_run]
  simp only [hseen]
  rfl

theorem writePages_next (hrel : urlToRelativePath page.info.path = .ok rel) (hnone : outputPaths rel = none)
    {log' : List Written} (hpage : renderPage output page log = (.ok (), log')) :
    writePages output outputPaths (page :: pages) log =
      ((writePages output (outputPaths.insert rel page.info.path) pages log').1.map (· + 1),
        (writePages output (outputPaths.insert rel page.info.path) pages log').2) := by
  rw [writePages, hrel, Step.bind_run, Step.lift_run]
  simp only [hnone]
  rw [Step.bind_run, hpage]
  show (writePages _ _ pages >>= fun _ => _ : Export _ _) log' = _
  rw [Step.bind_run]
  rcases writePages output (outputPaths.insert rel page.info.path) pages log' with ⟨_ | _, _⟩ <;> rfl

theorem writePages_stop (hrel : urlToRelativePath page.info.path = .ok rel) (hnone : outputPaths rel = none)
    {error : StaticExportError} (hpage : renderPage output page log = (.error error, log)) :
    writePages output outputPaths (page :: pages) log = (.error error, log) := by
  rw [writePages, hrel, Step.bind_run, Step.lift_run]
  simp only [hnone]
  rw [Step.bind_run, hpage]

end

theorem duplicate_map {α β : Type} {result : Except StaticExportError α} {f : α → β} :
    Duplicate (result.map f) ↔ Duplicate result := by
  cases result with
  | error error =>
    exact exists_congr fun _ => exists_congr fun _ => exists_congr fun _ =>
      ⟨fun h => congrArg _ (Except.error.inj h), fun h => congrArg _ (Except.error.inj h)⟩
  | ok a => exact ⟨fun ⟨_, _, _, h⟩ => (nomatch h), fun ⟨_, _, _, h⟩ => (nomatch h)⟩

/-- What the loop over the pages comes to: its result, and the files it has written. -/
structure PagesRun (output : PathBuf) (pages : List Page) (result : Except StaticExportError ℕ)
    (written : List Written) : Prop where
  origins : ∀ file ∈ written, ∃ page ∈ pages.takeWhile (Page.exported output), Writes output page file
  files : ∀ page ∈ pages.takeWhile (Page.exported output), ∃ file ∈ written, Writes output page file
  unique : ¬Duplicate result
  ok : (∃ n, result = .ok n) ↔ ∀ page ∈ pages, page.exported output = true

/-- Without a repeated path the files of the pages are written up to the first that cannot be exported. -/
theorem writePages_fresh {outputPaths : OutputPaths} {pages : List Page}
    (hvalid : ∀ page ∈ pages, validateUrl page.info.path = .ok ())
    (hfresh : Fresh outputPaths (reached output pages)) :
    ∃ result written, writePages output outputPaths pages log = (result, log ++ written) ∧
      PagesRun output pages result written := by
  induction pages generalizing outputPaths log with
  | nil =>
    refine ⟨.ok 0, [], ?_, ⟨fun _ hmem => (nomatch hmem), fun _ hmem => (nomatch hmem),
      fun ⟨_, _, _, h⟩ => (nomatch h), fun _ _ hmem => (nomatch hmem), fun _ => ⟨0, rfl⟩⟩⟩
    rw [List.append_nil]
    rfl
  | cons page pages ih =>
    obtain ⟨hpage, hpages⟩ := List.forall_mem_cons.mp hvalid
    obtain ⟨dot, path, -, -, hrel⟩ := urlToRelativePath_cases hpage
    obtain ⟨hnone, hrest⟩ := (fresh_cons_iff hrel).mp hfresh
    by_cases hexported : page.exported output = true
    · rw [if_pos hexported] at hrest
      obtain ⟨written, hwrites, hrun⟩ := @renderPage_exported output page log hpage hexported
      obtain ⟨result, others, hloop, hothers⟩ := @ih (log ++ [written]) _ hpages hrest
      have htaken : (page :: pages).takeWhile (Page.exported output) =
          page :: pages.takeWhile (Page.exported output) := List.takeWhile_cons_of_pos hexported
      refine ⟨result.map (· + 1), written :: others, ?_, ?_, ?_, ?_, ?_⟩
      · rw [writePages_next hrel hnone hrun, hloop, List.append_assoc, List.singleton_append]
      · rw [htaken, List.forall_mem_cons]
        refine ⟨⟨page, List.mem_cons_self, hwrites⟩, fun file hmem => ?_⟩
        obtain ⟨other, hin, hother⟩ := hothers.origins file hmem
        exact ⟨other, List.mem_cons_of_mem _ hin, hother⟩
      · rw [htaken, List.forall_mem_cons]
        refine ⟨⟨written, List.mem_cons_self, hwrites⟩, fun other hmem => ?_⟩
        obtain ⟨file, hin, hfile⟩ := hothers.files other hmem
        exact ⟨file, List.mem_cons_of_mem _ hin, hfile⟩
      · exact fun h => hothers.unique (duplicate_map.mp h)
      · rw [List.forall_mem_cons, ← hothers.ok]
        cases result with
        | error error => exact ⟨fun ⟨_, h⟩ => (nomatch h), fun ⟨_, _, h⟩ => (nomatch h)⟩
        | ok n => exact ⟨fun _ => ⟨hexported, n, rfl⟩, fun _ => ⟨n + 1, rfl⟩⟩
    · obtain ⟨error, hrun, hduplicate⟩ := @renderPage_refused output page log hpage hexported
      refine ⟨.error error, [], ?_, fun _ hmem => (nomatch hmem), ?_, ?_, ?_⟩
      · rw [writePages_stop hrel hnone hrun, List.append_nil]
      · rw [List.takeWhile_cons_of_neg hexported]
        exact fun _ hmem => nomatch hmem
      · rintro ⟨left, right, path, h⟩
        exact hduplicate ⟨left, right, path, congrArg _ (Except.error.inj h)⟩
      · exact ⟨fun ⟨_, h⟩ => (nomatch h), fun h => absurd (h page List.mem_cons_self) hexported⟩

/-- A repeated path ends the loop, after files of some pages. -/
theorem writePages_repeated {outputPaths : OutputPaths} {pages : List Page}
    (hvalid : ∀ page ∈ pages, validateUrl page.info.path = .ok ())
    (hfresh : ¬Fresh outputPaths (reached output pages)) :
    ∃ result written, writePages output outputPaths pages log = (result, log ++ written) ∧ Duplicate result ∧
      ∀ file ∈ written, ∃ page ∈ pages, Writes output page file := by
  induction pages generalizing outputPaths log with
  | nil => exact absurd ⟨List.nodup_nil, fun _ h => nomatch h⟩ hfresh
  | cons page pages ih =>
    obtain ⟨hpage, hpages⟩ := List.forall_mem_cons.mp hvalid
    obtain ⟨dot, path, -, -, hrel⟩ := urlToRelativePath_cases hpage
    rw [reached, fresh_cons_iff hrel] at hfresh
    cases hseen : outputPaths (dot ++ path) with
    | some existing =>
      refine ⟨_, [], ?_, ⟨existing, page.info.path, dot ++ path, rfl⟩, fun _ hmem => nomatch hmem⟩
      rw [writePages_seen hrel hseen, List.append_nil]
    | none =>
      have hrest := fun h => hfresh ⟨hseen, h⟩
      by_cases hexported : page.exported output = true
      · rw [if_pos hexported] at hrest
        obtain ⟨written, hwrites, hrun⟩ := @renderPage_exported output page log hpage hexported
        obtain ⟨result, others, hloop, hduplicate, hothers⟩ := @ih (log ++ [written]) _ hpages hrest
        refine ⟨result.map (· + 1), written :: others, ?_, duplicate_map.mpr hduplicate, fun file hmem => ?_⟩
        · rw [writePages_next hrel hseen hrun, hloop, List.append_assoc, List.singleton_append]
        · obtain rfl | hmem := List.mem_cons.mp hmem
          · exact ⟨page, List.mem_cons_self, hwrites⟩
          · obtain ⟨other, hin, hother⟩ := hothers file hmem
            exact ⟨other, List.mem_cons_of_mem _ hin, hother⟩
      · rw [if_neg hexported] at hrest
        exact absurd ⟨List.nodup_nil, fun _ h => nomatch h⟩ hrest

/-- Pages that are written to one file have the same path, or are the same behind a `.`. -/
theorem same_file {page other : Page} {written written' : Written} (hpage : validateUrl page.info.path = .ok ())
    (hother : validateUrl other.info.path = .ok ()) (hwrites : Writes output page written)
    (hwrites' : Writes output other written') (hfile : written.file = written'.file) :
    urlToRelativePath page.info.path = urlToRelativePath other.info.path ∨
      Alias page.info.path other.info.path ∨ Alias other.info.path page.info.path := by
  obtain ⟨dot, path, hdot, hbelow, hrel⟩ := urlToRelativePath_cases hpage
  obtain ⟨dot', path', hdot', hbelow', hrel'⟩ := urlToRelativePath_cases hother
  have hout := Except.ok.inj ((urlToOutputPath_eq hpage hdot hbelow hrel output).symm.trans hwrites.file)
  have hout' := Except.ok.inj ((urlToOutputPath_eq hother hdot' hbelow' hrel' output).symm.trans hwrites'.file)
  obtain rfl : path = path' := List.append_cancel_left (hout.trans (hfile.trans hout'.symm))
  rcases hdot with rfl | rfl
  · rcases hdot' with rfl | rfl
    · exact .inl (hrel.trans hrel'.symm)
    · exact .inr (.inr ⟨path, hrel, hrel'⟩)
  · rcases hdot' with rfl | rfl
    · exact .inr (.inl ⟨path, hrel', hrel⟩)
    · exact .inl (hrel.trans hrel'.symm)

/-- A page behind a `.` is written to the other page's file. -/
theorem Alias.same_file {page other : Page} {written written' : Written}
    (h : Alias page.info.path other.info.path) (hpage : validateUrl page.info.path = .ok ())
    (hother : validateUrl other.info.path = .ok ()) (hwrites : Writes output page written)
    (hwrites' : Writes output other written') : written.file = written'.file := by
  obtain ⟨rel, hrel', hrel⟩ := h
  obtain ⟨dot, path, hdot, hbelow, hpath⟩ := urlToRelativePath_cases hpage
  have hdotted : .curDir :: rel = dot ++ path := Except.ok.inj (hrel.symm.trans hpath)
  have hcur : Component.curDir ∉ path := by
    obtain ⟨names, -, rfl⟩ := hbelow
    intro hmem
    obtain ⟨name, -, hname⟩ := List.mem_map.mp hmem
    exact nomatch hname
  rcases hdot with rfl | rfl
  · exact absurd (show Component.curDir ∈ [] ++ path from hdotted ▸ List.mem_cons_self) hcur
  · obtain rfl : rel = path := (List.cons.inj hdotted).2
    have hout := urlToOutputPath_eq hpage (.inr rfl) hbelow hrel output
    have hout' := urlToOutputPath_eq hother (.inl rfl) hbelow hrel' output
    exact Except.ok.inj (hwrites.file.symm.trans (hout.trans (hout'.symm.trans hwrites'.file)))

end

section

variable {options : StaticExportOptions} {prepared : Bool} {urls : List Page} {log : List Written}

/-- Only static pages are selected. -/
theorem selectPages_subset (h : selectPages options prepared urls = .ok pages) :
    ∀ page ∈ pages, page ∈ urls ∧ page.info.isStatic = true := by
  rw [selectPages] at h
  split at h
  next => exact nomatch h
  next =>
    split at h
    next => exact nomatch h
    next matcher _ =>
      cases h
      intro page hmem
      obtain ⟨hin, hselected⟩ := List.mem_filter.mp hmem
      exact ⟨hin, (Bool.and_eq_true _ _ ▸ hselected).1⟩
    next =>
      cases h
      exact fun page hmem => List.mem_filter.mp hmem

theorem exportPages_of_select (h : selectPages options prepared urls = .ok pages) :
    exportPages options prepared urls log = writePages options.output FMap.empty pages log := by
  rw [exportPages, h]
  rfl

/-- The pages with paths of their own, or the pages up to a repeated path. -/
theorem exportPages_cases (hvalid : ∀ page ∈ urls, page.info.isStatic → validateUrl page.info.path = .ok ())
    (h : selectPages options prepared urls = .ok pages) :
    ∃ result written, exportPages options prepared urls [] = (result, written) ∧
      (¬Repeated (reached options.output pages) ∧ PagesRun options.output pages result written ∨
        Repeated (reached options.output pages) ∧ Duplicate result ∧
          ∀ file ∈ written, ∃ page ∈ pages, Writes options.output page file) := by
  have hpages : ∀ page ∈ pages, validateUrl page.info.path = .ok () := fun page hmem =>
    hvalid page (selectPages_subset h page hmem).1 (selectPages_subset h page hmem).2
  rw [exportPages_of_select h]
  by_cases hfresh : Fresh FMap.empty (reached options.output pages)
  · obtain ⟨result, written, hrun, hpagesRun⟩ := @writePages_fresh options.output [] _ pages hpages hfresh
    exact ⟨result, written, hrun, .inl ⟨fresh_empty_iff.mp hfresh, hpagesRun⟩⟩
  · obtain ⟨result, written, hrun, hduplicate, hwritten⟩ := @writePages_repeated options.output [] _ pages hpages hfresh
    exact ⟨result, written, hrun, .inr ⟨not_not.mp (mt fresh_empty_iff.mpr hfresh), hduplicate, hwritten⟩⟩

theorem exportPages_of_error {error : StaticExportError} (h : selectPages options prepared urls = .error error) :
    exportPages options prepared urls log = (.error error, log) := by
  rw [exportPages, h]
  rfl

/-- The pages' part: without a repeated path, it is the pages behind a `.` that matter. -/
theorem exportPages_separate_iff (hvalid : ∀ page ∈ urls, page.info.isStatic → validateUrl page.info.path = .ok ()) :
    Separate options.output (exportPages options prepared urls []) ↔
      ∀ pages, selectPages options prepared urls = .ok pages → ¬Repeated (reached options.output pages) →
        ∀ page ∈ pages.takeWhile (Page.exported options.output),
          ∀ other ∈ pages.takeWhile (Page.exported options.output), ¬Alias page.info.path other.info.path := by
  cases hselect : selectPages options prepared urls with
  | error error =>
    rw [exportPages_of_error hselect]
    exact ⟨fun _ _ h => (nomatch h), fun _ => ⟨fun _ hmem => (nomatch hmem), .inr fun _ hmem => (nomatch hmem)⟩⟩
  | ok pages =>
    have hpages : ∀ page ∈ pages, validateUrl page.info.path = .ok () := fun page hmem =>
      hvalid page (selectPages_subset hselect page hmem).1 (selectPages_subset hselect page hmem).2
    have hbelow : ∀ {page written}, page ∈ pages → Writes options.output page written →
        startsWith written.file options.output ∧ written.file ≠ options.output := by
      intro page written hmem hwrites
      obtain ⟨dot, path, hdot, hbelow, hrel⟩ := urlToRelativePath_cases (hpages page hmem)
      have hout := urlToOutputPath_eq (hpages page hmem) hdot hbelow hrel options.output
      rw [← Except.ok.inj (hout.symm.trans hwrites.file)]
      exact ⟨List.prefix_append _ _, fun heq => hwrites.below (Except.ok.inj (hwrites.file.symm.trans hout) ▸ heq)⟩
    obtain ⟨result, written, hrun, ⟨hfresh, hpagesRun⟩ | ⟨hrepeated, hduplicate, hwritten⟩⟩ :=
      exportPages_cases hvalid hselect
    · have hin : ∀ {page}, page ∈ pages.takeWhile (Page.exported options.output) → page ∈ pages := fun hmem =>
        (List.takeWhile_subset _) hmem
      rw [hrun]
      constructor
      · rintro ⟨-, hduplicate | happart⟩ pages' h -
        · exact absurd hduplicate hpagesRun.unique
        cases h
        intro page hpage other hother halias
        obtain ⟨file, hfile, hwrites⟩ := hpagesRun.files page hpage
        obtain ⟨file', hfile', hwrites'⟩ := hpagesRun.files other hother
        have hsame := halias.same_file (hpages page (hin hpage)) (hpages other (hin hother)) hwrites hwrites'
        have hsource := happart file hfile file' hfile' hsame
        rw [hwrites.source, hwrites'.source] at hsource
        obtain ⟨rel, hrel, hrel'⟩ := halias
        rw [Source.page.inj hsource] at hrel'
        have hlength := congrArg List.length (Except.ok.inj (hrel.symm.trans hrel'))
        rw [List.length_cons] at hlength
        exact absurd hlength (by omega)
      · intro halias
        refine ⟨fun file hmem => ?_, .inr fun file hmem file' hmem' hfile => ?_⟩
        · obtain ⟨page, hpage, hwrites⟩ := hpagesRun.origins file hmem
          exact hbelow (hin hpage) hwrites
        · obtain ⟨page, hpage, hwrites⟩ := hpagesRun.origins file hmem
          obtain ⟨other, hother, hwrites'⟩ := hpagesRun.origins file' hmem'
          have hnone := halias pages rfl hfresh
          rcases same_file (hpages page (hin hpage)) (hpages other (hin hother)) hwrites hwrites' hfile with
            hrel | hbehind | hbehind
          · rw [hwrites.source, hwrites'.source]
            exact congrArg Source.page (List.inj_on_of_nodup_map (not_not.mp hfresh) (takeWhile_reached hpage)
              (takeWhile_reached hother) hrel)
          · exact absurd hbehind (hnone page hpage other hother)
          · exact absurd hbehind (hnone other hother page hpage)
    · rw [hrun]
      refine ⟨fun _ pages' h hfresh => ?_, fun _ => ⟨fun file hmem => ?_, .inl hduplicate⟩⟩
      · cases h
        exact absurd hrepeated hfresh
      · obtain ⟨page, hin, hwrites⟩ := hwritten file hmem
        exact hbelow hin hwrites

end

/-! ### Assets -/

theorem renderedPagePaths_cons {url : List Char} {rel : PathBuf} (hrel : urlToRelativePath url = .ok rel) :
    renderedPagePaths outputPaths (url :: urls) =
      match outputPaths rel with
      | some existing => .error (.duplicateOutputPath existing url rel)
      | none => renderedPagePaths (outputPaths.insert rel url) urls := by
  rw [renderedPagePaths, hrel]
  rfl

/-- The paths that are kept from the assets are those of the URLs. -/
theorem renderedPagePaths_fresh (hvalid : ∀ url ∈ urls, validateUrl url = .ok ())
    (hfresh : Fresh outputPaths urls) :
    ∃ reserved, renderedPagePaths outputPaths urls = .ok reserved ∧ ∀ path, (reserved path).isSome ↔
      (outputPaths path).isSome ∨ ∃ url ∈ urls, urlToRelativePath url = .ok path := by
  induction urls generalizing outputPaths with
  | nil => exact ⟨outputPaths, rfl, fun path => (or_iff_left fun ⟨_, hmem, _⟩ => nomatch hmem).symm⟩
  | cons url urls ih =>
    obtain ⟨hurl, hurls⟩ := List.forall_mem_cons.mp hvalid
    obtain ⟨dot, rel, -, -, hrel⟩ := urlToRelativePath_cases hurl
    obtain ⟨hnone, hrest⟩ := (fresh_cons_iff hrel).mp hfresh
    obtain ⟨reserved, hrun, hreserved⟩ := ih hurls hrest
    refine ⟨reserved, ?_, fun path => ?_⟩
    · rw [renderedPagePaths_cons hrel, hnone]
      exact hrun
    · rw [hreserved, FMap.insert_apply, List.exists_mem_cons_iff, hrel, ← or_assoc]
      refine or_congr ?_ Iff.rfl
      split
      next heq => exact ⟨fun _ => .inr (congrArg _ heq.symm), fun _ => rfl⟩
      next hne => exact (or_iff_left fun heq => hne (Except.ok.inj heq).symm).symm

theorem renderedPagePaths_repeated (hvalid : ∀ url ∈ urls, validateUrl url = .ok ())
    (hfresh : ¬Fresh outputPaths urls) :
    ∃ error, renderedPagePaths outputPaths urls = .error error := by
  induction urls generalizing outputPaths with
  | nil => exact absurd ⟨List.nodup_nil, fun _ h => nomatch h⟩ hfresh
  | cons url urls ih =>
    obtain ⟨hurl, hurls⟩ := List.forall_mem_cons.mp hvalid
    obtain ⟨dot, rel, -, -, hrel⟩ := urlToRelativePath_cases hurl
    rw [fresh_cons_iff hrel] at hfresh
    rw [renderedPagePaths_cons hrel]
    cases hseen : outputPaths (dot ++ rel) with
    | some existing => exact ⟨_, rfl⟩
    | none => exact ih hurls fun hrest => hfresh ⟨hseen, hrest⟩

/-- A file of an asset that is written is not kept for a page. -/
structure Copies (output reservedBase : PathBuf) (reserved : OutputPaths) (file : Written) : Prop where
  source : ∃ path, file.source = .asset path
  place : ∃ rel ≠ [], file.file = output ++ rel ∧ reserved (reservedBase ++ rel) = none

section

variable {output reservedBase : PathBuf} {reserved : OutputPaths} {log : List Written}

theorem store_written {ε : Type} {io : PathBuf → ε} {dir file : PathBuf} {storing : Storing}
    {source : Source} {read : Except ε (List UInt8)}
    (h : written ∈ (store io dir file storing source read log).2) :
    written ∈ log ∨ written.source = source ∧ written.file = file ∧ file ≠ dir := by
  cases storing with
  | noParent => exact .inl h
  | unwritable => cases read <;> exact .inl h
  | stored =>
    cases read with
    | error error => exact .inl h
    | ok bytes =>
      replace h : written ∈ ((if file = dir then Step.fail (io file)
        else Step.modify (· ++ [⟨source, file, bytes⟩]) : Export ε Unit) log).2 := h
      split at h
      next => exact .inl h
      next hne =>
        obtain h | h := List.mem_append.mp h
        · exact .inl h
        · rw [List.mem_singleton.mp h]
          exact .inr ⟨rfl, rfl, hne⟩

theorem copyAssets_written {seen : List PathBuf} {files : List Asset}
    (h : written ∈ (copyAssets output reserved reservedBase seen files log).2) :
    written ∈ log ∨ Copies output reservedBase reserved written := by
  induction files generalizing seen log with
  | nil => exact .inl h
  | cons file files ih =>
    rw [copyAssets] at h
    cases hrel : assetRelativePath file.path with
    | error error =>
      rw [hrel] at h
      exact ih h
    | ok rel =>
      rw [hrel] at h
      dsimp only at h
      split at h
      next => exact ih h
      next =>
        obtain ⟨names, rfl⟩ := assetRelativePath_names hrel
        rw [safeJoin_names] at h
        dsimp only at h
        split at h
        next => exact .inl h
        next hfree =>
          have hstored : ∀ written ∈ (store StaticAssetError.io output (output ++ names.map .normal) file.storing
              (.asset file.path) (file.bytes.elim (.error (.io (parse file.path))) .ok) log).2,
              written ∈ log ∨ Copies output reservedBase reserved written := by
            intro written hmem
            obtain hmem | ⟨hsource, hfile, hne⟩ := store_written hmem
            · exact .inl hmem
            · refine .inr ⟨⟨_, hsource⟩, names.map .normal, fun hnil => hne ?_, hfile, ?_⟩
              · rw [hnil, List.append_nil]
              · rw [← join_names]
                exact Option.not_isSome_iff_eq_none.mp hfree
          rw [Step.bind_run] at h
          split at h
          next _ log' hrun =>
            rw [hrun] at hstored
            have hrest : written ∈ (copyAssets output reserved reservedBase (names.map .normal :: seen) files log').2 := by
              rw [Step.bind_run] at h
              rcases hcopied : copyAssets output reserved reservedBase (names.map .normal :: seen) files log' with
                ⟨_ | _, _⟩
              all_goals
                rw [hcopied] at h
                exact h
            exact (ih hrest).elim (hstored written) .inr
          next hrun =>
            rw [hrun] at hstored
            exact hstored written h

/-- An asset that nothing keeps from its place is written there. -/
theorem copyAssets_free {path : PathBuf} {asset : List Char} (hasset : assetRelativePath asset = .ok path)
    (hne : path ≠ []) (hfree : reserved (reservedBase ++ path) = none) :
    copyAssets output reserved reservedBase [] [⟨asset, some [], .stored⟩] log =
      (.ok 1, log ++ [⟨.asset asset, output ++ path, []⟩]) := by
  obtain ⟨names, rfl⟩ := assetRelativePath_names hasset
  have hcontains : reserved.contains (join reservedBase (names.map .normal)) = false := by
    rw [join_names, FMap.contains, hfree]
    rfl
  have hplace : output ++ names.map .normal ≠ output := fun heq => hne (List.append_right_eq_self.mp heq)
  rw [copyAssets, hasset]
  dsimp only
  rw [if_neg List.not_mem_nil, safeJoin_names]
  dsimp only
  rw [hcontains, if_neg (by decide), Step.bind_run, Option.elim_some, store_stored hplace]
  rfl

end

section

variable {options : StaticExportOptions} {prepared : Bool} {urls : List Page} {mount : MountPath}
  {later : List UrlInfo}

theorem staticAssetPath_below (mount : MountPath) : Below (staticAssetPath mount) :=
  ⟨_, mount.clean, parse_clean mount.clean⟩

theorem reached_eq {output : PathBuf} (h : ∀ page ∈ pages, page.exported output = true) :
    reached output pages = pages.map (·.info.path) := by
  induction pages with
  | nil => rfl
  | cons page pages ih =>
    obtain ⟨hpage, hpages⟩ := List.forall_mem_cons.mp h
    rw [reached, if_pos hpage, ih hpages, List.map_cons]

theorem staticUrls_valid (h : ∀ info ∈ later, info.isStatic → validateUrl info.path = .ok ()) :
    ∀ url ∈ staticUrls later, validateUrl url = .ok () := by
  intro url hmem
  obtain ⟨info, hinfo, rfl⟩ := List.mem_map.mp hmem
  obtain ⟨hin, hstatic⟩ := List.mem_filter.mp hinfo
  exact h info hin hstatic

/-- The assets are collected after all pages. -/
theorem exportStatic_files {assetsPrepared : Bool} {files : List Asset} {n : ℕ} {log : List Written}
    {reserved : OutputPaths} (hglob : options.glob = none)
    (hpages : exportPages options prepared urls [] = (.ok n, log))
    (hreserved : renderedPagePaths FMap.empty (staticUrls later) = .ok reserved) :
    (exportStatic options mount prepared urls later assetsPrepared files []).2 =
      (collectAssetsReserved (join options.output (staticAssetPath mount)) reserved (staticAssetPath mount)
        assetsPrepared files log).2 := by
  rw [exportStatic, hglob, Option.isSome_none, Bool.false_and, if_neg (by decide), Step.bind_run, hpages]
  dsimp only
  rw [if_neg (by decide), hreserved]
  rcases hcollected : collectAssetsReserved (join options.output (staticAssetPath mount)) reserved
    (staticAssetPath mount) assetsPrepared files log with ⟨_ | _, _⟩
  all_goals
    show ((Step.mapError StaticExportError.asset (collectAssetsReserved _ _ _ _ _) >>= fun _ => _ : Export _ _) log).2 = _
    rw [Step.bind_run, Step.mapError, hcollected]
    rfl

/-- A file is a page's, or an asset's after all pages. -/
theorem exportStatic_written {assetsPrepared : Bool} {files : List Asset}
    (h : written ∈ (exportStatic options mount prepared urls later assetsPrepared files []).2) :
    written ∈ (exportPages options prepared urls []).2 ∨ options.glob = none ∧
      (∃ n, (exportPages options prepared urls []).1 = .ok n) ∧ ∃ reserved,
        renderedPagePaths FMap.empty (staticUrls later) = .ok reserved ∧
        Copies (join options.output (staticAssetPath mount)) (staticAssetPath mount) reserved written := by
  have hcollected := h
  rw [exportStatic] at h
  split at h
  next => exact nomatch h
  next =>
    rw [Step.bind_run] at h
    rcases hpages : exportPages options prepared urls [] with ⟨error | n, log⟩
    · rw [hpages] at h
      exact .inl h
    · rw [hpages] at h
      dsimp only at h ⊢
      cases hglob : options.glob with
      | some glob =>
        rw [hglob] at h
        exact .inl h
      | none =>
        cases hreserved : renderedPagePaths FMap.empty (staticUrls later) with
        | error error =>
          rw [hglob, if_neg (by decide), hreserved] at h
          exact .inl h
        | ok reserved =>
          rw [exportStatic_files hglob hpages hreserved, collectAssetsReserved] at hcollected
          split at hcollected
          next => exact .inl hcollected
          next =>
            obtain hmem | hcopies := copyAssets_written hcollected
            · exact .inl hmem
            · exact .inr ⟨rfl, ⟨n, rfl⟩, reserved, rfl, hcopies⟩

/-- What it takes for the assets to be collected. -/
theorem exportPages_ok_iff
    (hvalid : ∀ page ∈ urls, page.info.isStatic → validateUrl page.info.path = .ok ())
    (hselect : selectPages options prepared urls = .ok pages) :
    (∃ n, (exportPages options prepared urls []).1 = .ok n) ↔
      (∀ page ∈ pages, page.exported options.output = true) ∧ ¬Repeated (pages.map (·.info.path)) := by
  obtain ⟨result, written, hrun, ⟨hfresh, hpagesRun⟩ | ⟨hrepeated, ⟨left, right, path, rfl⟩, -⟩⟩ :=
    exportPages_cases hvalid hselect
  · rw [hrun, hpagesRun.ok]
    exact ⟨fun hall => ⟨hall, reached_eq hall ▸ hfresh⟩, And.left⟩
  · rw [hrun]
    exact ⟨fun ⟨_, h⟩ => (nomatch h), fun ⟨hall, hunique⟩ => absurd (reached_eq hall ▸ hrepeated) hunique⟩

theorem exportPages_written
    (hvalid : ∀ page ∈ urls, page.info.isStatic → validateUrl page.info.path = .ok ())
    (hselect : selectPages options prepared urls = .ok pages)
    (h : written ∈ (exportPages options prepared urls []).2) :
    ∃ page ∈ pages, Writes options.output page written := by
  obtain ⟨result, files, hrun, ⟨-, hpagesRun⟩ | ⟨-, -, hwritten⟩⟩ := exportPages_cases hvalid hselect
  · rw [hrun] at h
    obtain ⟨page, hmem, hwrites⟩ := hpagesRun.origins written h
    exact ⟨page, List.takeWhile_subset _ hmem, hwrites⟩
  · rw [hrun] at h
    exact hwritten written h

/-- After all pages, each has its file. -/
theorem exportPages_files {n : ℕ}
    (hvalid : ∀ page ∈ urls, page.info.isStatic → validateUrl page.info.path = .ok ())
    (hselect : selectPages options prepared urls = .ok pages)
    (hok : (exportPages options prepared urls []).1 = .ok n) :
    ∀ page ∈ pages, ∃ written ∈ (exportPages options prepared urls []).2, Writes options.output page written := by
  obtain ⟨result, files, hrun, ⟨-, hpagesRun⟩ | ⟨-, ⟨left, right, path, rfl⟩, -⟩⟩ := exportPages_cases hvalid hselect
  · rw [hrun] at hok ⊢
    have hall := hpagesRun.ok.mp ⟨n, hok⟩
    have hfiles := hpagesRun.files
    rwa [List.takeWhile_eq_self_iff.mpr hall] at hfiles
  · rw [hrun] at hok
    exact nomatch hok

/-- The assets' part: a page among the assets must be found again without a `.`. -/
theorem exportStatic_noOverwrite_iff
    (hvalid : ∀ page ∈ urls, page.info.isStatic → validateUrl page.info.path = .ok ())
    (hlater : ∀ info ∈ later, info.isStatic → validateUrl info.path = .ok ()) :
    (∀ assetsPrepared files, NoOverwrite (exportStatic options mount prepared urls later assetsPrepared files [])) ↔
      ∀ pages, options.glob = none → selectPages options prepared urls = .ok pages →
        (∀ page ∈ pages, page.exported options.output) → ¬Repeated (pages.map (·.info.path)) →
        ¬Repeated (staticUrls later) → ∀ page ∈ pages, ∀ path ≠ [],
          urlToOutputPath options.output page.info.path = .ok (options.output ++ (staticAssetPath mount ++ path)) →
          ∃ url ∈ staticUrls later, urlToRelativePath url = .ok (staticAssetPath mount ++ path) := by
  have hplace : ∀ rel, join options.output (staticAssetPath mount) ++ rel =
      options.output ++ (staticAssetPath mount ++ rel) := fun rel => by
    rw [(staticAssetPath_below mount).join_eq, List.append_assoc]
  constructor
  · intro h pages hglob hselect hall hrepeated hlaterRepeated page hmem path hne hout
    by_contra hnone
    obtain ⟨n, hok⟩ := (exportPages_ok_iff hvalid hselect).mpr ⟨hall, hrepeated⟩
    obtain ⟨reserved, hreserved, hkept⟩ :=
      renderedPagePaths_fresh (staticUrls_valid hlater) (fresh_empty_iff.mpr hlaterRepeated)
    have hfree : reserved (staticAssetPath mount ++ path) = none := by
      rw [← Option.not_isSome_iff_eq_none, hkept]
      exact fun hin => hnone (hin.resolve_left fun hempty => nomatch hempty)
    have hpage := hvalid page (selectPages_subset hselect page hmem).1 (selectPages_subset hselect page hmem).2
    have hbelow : Below path := by
      obtain ⟨dot, whole, hdot, hwhole, hrel⟩ := urlToRelativePath_cases hpage
      have heq := Except.ok.inj ((urlToOutputPath_eq hpage hdot hwhole hrel options.output).symm.trans hout)
      exact Below.of_append (List.append_cancel_left heq ▸ hwhole)
    obtain ⟨asset, hasset⟩ := assetRelativePath_below hbelow hne
    have hfiles := h true [⟨asset, some [], .stored⟩]
    rw [NoOverwrite, exportStatic_files hglob (Prod.ext hok rfl) hreserved, collectAssetsReserved,
      if_neg (by decide), copyAssets_free hasset hne hfree] at hfiles
    obtain ⟨written, hin, hwrites⟩ := exportPages_files hvalid hselect hok page hmem
    refine hfiles written (List.mem_append_left _ hin) _ (List.mem_append_right _ (List.mem_singleton_self _)) _ _
      hwrites.source rfl ?_
    exact (Except.ok.inj (hwrites.file.symm.trans hout)).trans (hplace path).symm
  · intro h assetsPrepared files written hwritten other hother url path hpage hasset hfile
    have hfirst := (exportStatic_written hwritten).resolve_right fun ⟨_, _, _, _, hcopies⟩ => by
      obtain ⟨path', hsource⟩ := hcopies.source
      exact nomatch hpage.symm.trans hsource
    cases hselect : selectPages options prepared urls with
    | error error =>
      rw [exportPages_of_error hselect] at hfirst
      exact nomatch hfirst
    | ok pages =>
      obtain ⟨page, hmem, hwrites⟩ := exportPages_written hvalid hselect hfirst
      rcases exportStatic_written hother with hpages | ⟨hglob, hok, reserved, hreserved, hcopies⟩
      · obtain ⟨page', -, hwrites'⟩ := exportPages_written hvalid hselect hpages
        exact nomatch hwrites'.source.symm.trans hasset
      obtain ⟨hall, hrepeated⟩ := (exportPages_ok_iff hvalid hselect).mp hok
      obtain ⟨rel, hne, hplaced, hfree⟩ := hcopies.place
      have hlaterFresh : Fresh FMap.empty (staticUrls later) := by
        by_contra hfresh
        obtain ⟨error, herror⟩ := renderedPagePaths_repeated (staticUrls_valid hlater) hfresh
        exact nomatch hreserved.symm.trans herror
      obtain ⟨reserved', hreserved', hkept⟩ := renderedPagePaths_fresh (staticUrls_valid hlater) hlaterFresh
      obtain rfl := Except.ok.inj (hreserved.symm.trans hreserved')
      have hout := hwrites.file
      rw [hfile, hplaced, hplace] at hout
      have hfound := h pages hglob hselect hall hrepeated (fresh_empty_iff.mp hlaterFresh) page hmem rel hne hout
      have hreserve := (hkept (staticAssetPath mount ++ rel)).mpr (.inr hfound)
      rw [hfree] at hreserve
      exact nomatch hreserve

end

/-- The export keeps files apart exactly when the pages behind a `.` do not matter. -/
theorem export_kept_apart_iff (options : StaticExportOptions) (mount : MountPath) (prepared : Bool)
    {urls : List Page} {later : List UrlInfo}
    (hvalid : ∀ page ∈ urls, page.info.isStatic → validateUrl page.info.path = .ok ())
    (hlater : ∀ info ∈ later, info.isStatic → validateUrl info.path = .ok ()) :
    (Separate options.output (exportPages options prepared urls []) ∧ ∀ assetsPrepared files,
      NoOverwrite (exportStatic options mount prepared urls later assetsPrepared files [])) ↔
      KeptApart options mount prepared urls later := by
  rw [exportPages_separate_iff hvalid, exportStatic_noOverwrite_iff hvalid hlater]
  exact ⟨fun h => ⟨h.1, h.2⟩, fun h => ⟨h.pages, h.assets⟩⟩

/-- An export to `dist` without a pattern. -/
def distOptions : StaticExportOptions := ⟨[.normal "dist".toList], false, none⟩

theorem staticMount_rooted : "/static".toList.head? = some '/' := rfl

theorem staticMount_clean : Clean (trimStart "/static".toList) := by decide

def staticMount : MountPath := ⟨"/static".toList, staticMount_rooted, staticMount_clean⟩

def staticPage (url : String) (byte : UInt8) : Page := ⟨⟨url.toList, true⟩, some (200, [byte]), .stored⟩

/-- Two pages, and one in the directory of the assets. -/
def sitePages : List Page := [staticPage "/about" 1, staticPage "/blog/" 2, staticPage "/static/app.css" 3]

theorem site_pages_are_kept_apart :
    Separate distOptions.output (exportPages distOptions true sitePages []) ∧
      ∀ assetsPrepared files, NoOverwrite (exportStatic distOptions staticMount true sitePages
        (sitePages.map Page.info) assetsPrepared files []) := by
  have hvalid : ∀ page ∈ sitePages, validateUrl page.info.path = .ok () := by decide +kernel
  have hplain : ∀ page ∈ sitePages,
      (urlToRelativePath page.info.path).toOption.bind List.head? ≠ some .curDir := by decide +kernel
  have hplaced : ∀ page ∈ sitePages, urlToOutputPath distOptions.output page.info.path =
      (urlToRelativePath page.info.path).map (distOptions.output ++ ·) := by decide +kernel
  refine (export_kept_apart_iff distOptions staticMount true (fun page hmem _ => hvalid page hmem)
    (fun info hmem _ => ?_)).mpr ⟨?_, ?_⟩
  · obtain ⟨page, hpage, rfl⟩ := List.mem_map.mp hmem
    exact hvalid page hpage
  · rintro pages hselect - page hpage other - ⟨rel, -, halias⟩
    cases hselect
    have hhead := hplain page (List.takeWhile_subset _ hpage)
    rw [halias] at hhead
    exact hhead rfl
  · rintro pages - hselect - - - page hmem path - hfile
    cases hselect
    rw [hplaced page hmem] at hfile
    cases hrel : urlToRelativePath page.info.path with
    | error error =>
      rw [hrel] at hfile
      cases hfile
    | ok rel =>
      -- the page is placed under its own relative path
      rw [hrel] at hfile
      refine ⟨page.info.path, ?_, hrel.trans (congrArg _ (List.append_cancel_left (Except.ok.inj hfile)))⟩
      have hcollected : staticUrls (sitePages.map Page.info) = sitePages.map fun page => page.info.path := rfl
      rw [hcollected]
      exact List.mem_map_of_mem hmem

/-- `/./a` and `/a` are two pages in one file, and an asset is written over `/./static/app.css`. -/
theorem page_behind_dot_is_overwritten :
    (∀ url ∈ ["/./a", "/a", "/./static/app.css"], validateUrl url.toList = .ok ()) ∧
    exportPages distOptions true [staticPage "/./a" 1, staticPage "/a" 2] [] =
      (.ok 2, [⟨.page "/./a".toList, [.normal "dist".toList, .normal "a.html".toList], [1]⟩,
        ⟨.page "/a".toList, [.normal "dist".toList, .normal "a.html".toList], [2]⟩]) ∧
    exportStatic distOptions staticMount true [staticPage "/./static/app.css" 1]
        [(staticPage "/./static/app.css" 1).info] true [⟨"public/app.css".toList, some [3], .stored⟩] [] =
      (.ok ⟨1, 1⟩, [⟨.page "/./static/app.css".toList,
          [.normal "dist".toList, .normal "static".toList, .normal "app.css".toList], [1]⟩,
        ⟨.asset "public/app.css".toList,
          [.normal "dist".toList, .normal "static".toList, .normal "app.css".toList], [3]⟩]) := by
  refine ⟨by decide +kernel, Prod.ext (by decide +kernel) (by decide +kernel),
    Prod.ext (by decide +kernel) (by decide +kernel)⟩

end Vyuh.Collectors
