import Vyuh.Lib.Coding
import Vyuh.Routes.Slash
import Mathlib

/-! The page of a documentation viewer (`bundles/openapi.rs`) holds a link to the document, relative to the directory of
    the path that the viewer was declared with. The slash service serves the page of a slashless declaration in two
    directories, so that the link leads to the document only from some declarations. -/

namespace Vyuh.Bundles

open Lib Routes

/-- The directory of a path: all of it up to its last slash. -/
def fromDir (docPath : List Char) : List Char :=
  let dir := docPath.rdropWhile (· ≠ '/')
  if dir = [] then ['/'] else dir

/-- The link to the spec that `generate_viewer` writes into the page. -/
def viewerLink (docPath specPath : List Char) : List Char :=
  if fromDir docPath <+: specPath then specPath.drop (fromDir docPath).length else specPath

/-- A marker below some prefixes. -/
def mounted (prefixes : List (List Char)) (op : Operation) : Operation :=
  prefixes.foldl (fun op pre => op.nest pre) op

/-! ### Pages -/

/-- Where the page of a path is served: at the path, and at a slashless path with a slash behind it. -/
def Page (docPath path : List Char) : Prop := path = docPath ∨ hasSlash docPath = false ∧ path = docPath ++ ['/']

theorem mounted_path {prefixes : List (List Char)} (h : ∀ pre ∈ prefixes, RoutePrefix pre) {op : Operation}
    (hop : RoutePath op.path) : RoutePath (mounted prefixes op).path := by
  induction prefixes generalizing op with
  | nil => exact hop
  | cons pre prefixes ih =>
    exact ih (fun other hmem => h other (List.mem_cons_of_mem _ hmem)) (hop.nest (h pre List.mem_cons_self))

theorem mounted_trim (prefixes : List (List Char)) (op : Operation) : (mounted prefixes op).trim = op.trim := by
  induction prefixes generalizing op with
  | nil => rfl
  | cons pre prefixes ih => exact ih _

/-- The pages of a marker are the requests that the slash service hands to it for its own path. -/
theorem page_iff {router : Router} {doc : Operation} (hpath : RoutePath doc.path) (htrim : doc.trim = true)
    (hfind : router.find (internalPath doc.path) .get = some doc) (uri : Uri) :
    Page doc.path uri.path ↔
      internalPath uri.path = internalPath doc.path ∧ ∃ request, router.serve .get uri = .handled doc request := by
  have hserved : internalPath uri.path = internalPath doc.path →
      ((∃ request, router.serve .get uri = .handled doc request) ↔
        (hasSlash doc.path = true → hasSlash uri.path = true)) := by
    intro hsame
    rw [← hsame] at hfind
    constructor
    · rintro ⟨request, hrequest⟩
      exact (Router.serve_handled_iff.mp hrequest).2.1
    · intro hslash
      exact ⟨_, Router.serve_handled_iff.mpr ⟨hfind, hslash, fun _ => .inr htrim, rfl⟩⟩
  constructor
  · rintro (heq | ⟨hslash, heq⟩)
    · rw [hserved (by rw [heq]), heq]
      exact ⟨rfl, id⟩
    · have hsame : internalPath uri.path = internalPath doc.path := by
        rw [internalPath_of_hasSlash_eq_false hslash, heq, internalPath_slashed hpath.ne_nil]
      refine ⟨hsame, (hserved hsame).mpr fun h => ?_⟩
      rw [hslash] at h
      cases h
  · rintro ⟨hsame, hrequest⟩
    have hslash := (hserved hsame).mp hrequest
    rw [Page, path_eq uri.path, hsame]
    cases hdoc : hasSlash doc.path with
    | true =>
      have hdeclared := path_eq doc.path
      rw [hdoc, if_pos rfl] at hdeclared
      rw [if_pos (hslash hdoc)]
      exact .inl hdeclared.symm
    | false =>
      rw [internalPath_of_hasSlash_eq_false hdoc]
      split_ifs
      · exact .inr ⟨rfl, rfl⟩
      · exact .inl (List.append_nil _)

/-! ### Directories -/

/-- A path is its directory and a name. -/
theorem exists_fromDir {docPath : List Char} (h : RoutePath docPath) : ∃ dirs name, Lib.Uri.Named dirs ∧ '/' ∉ name ∧
    docPath = Lib.Uri.joined dirs ++ '/' :: name ∧ fromDir docPath = Lib.Uri.joined dirs ++ ['/'] := by
  obtain ⟨rest, rfl⟩ := h.eq_cons
  obtain ⟨segment, segments, hnamed, heq⟩ := Lib.Uri.exists_joined rest
  rcases List.eq_nil_or_concat' (segment :: segments) with hnil | ⟨dirs, name, hconcat⟩
  · cases hnil
  · rw [hconcat] at heq hnamed
    have hname : '/' ∉ name := hnamed name (List.mem_append_right _ List.mem_cons_self)
    have hpath : '/' :: rest = Lib.Uri.joined dirs ++ '/' :: name := by
      rw [heq, Lib.Uri.joined_append, Lib.Uri.joined_cons, Lib.Uri.joined_nil, List.append_nil]
    refine ⟨dirs, name, fun other hmem => hnamed other (List.mem_append_left _ hmem), hname, hpath, ?_⟩
    rw [fromDir, hpath, Lib.Uri.rdropWhile_segment _ hname]
    exact if_neg (List.append_ne_nil_of_right_ne_nil _ (List.cons_ne_nil _ _))

theorem fromDir_of_hasSlash {docPath : List Char} (h : RoutePath docPath) (hslash : hasSlash docPath = true) :
    fromDir docPath = docPath := by
  obtain ⟨dirs, name, -, hname, hpath, hdir⟩ := exists_fromDir h
  have hlast := (hasSlash_iff.mp hslash).2
  rcases List.eq_nil_or_concat' name with rfl | ⟨front, c, rfl⟩
  · rw [hdir, hpath]
  · rw [hpath, List.getLast?_append_cons, ← List.cons_append, List.getLast?_concat] at hlast
    obtain rfl := Option.some.inj hlast
    exact absurd (List.mem_append_right _ List.mem_cons_self) hname

/-- A declaration whose page has one directory only, or two that a browser takes for the same one. -/
def OneDirectory (docPath : List Char) : Prop :=
  hasSlash docPath = true ∨ docPath = fromDir docPath ++ ['.'] ∨ docPath = ['/', '.', '.']

theorem oneDirectory_iff {docPath name : List Char} {dirs : List (List Char)} (hdirs : Lib.Uri.Named dirs)
    (hname : '/' ∉ name) (hpath : docPath = Lib.Uri.joined dirs ++ '/' :: name)
    (hdir : fromDir docPath = Lib.Uri.joined dirs ++ ['/']) :
    OneDirectory docPath ↔ hasSlash docPath = true ∨ name = ['.'] ∨ name = ['.', '.'] ∧ dirs = [] := by
  have hdot : docPath = fromDir docPath ++ ['.'] ↔ name = ['.'] := by
    rw [hdir, hpath]
    simp
  have hdots : docPath = ['/', '.', '.'] ↔ name = ['.', '.'] ∧ dirs = [] := by
    rw [hpath]
    constructor
    · intro heq
      have hcut : Lib.Uri.joined dirs ++ '/' :: name = [] ++ '/' :: ['.', '.'] := heq
      obtain ⟨hnil, hname⟩ := append_cons_inj_last hname (by decide) hcut
      exact ⟨hname, Lib.Uri.joined_eq_nil_iff.mp hnil⟩
    · rintro ⟨rfl, rfl⟩
      rfl
  rw [OneDirectory, hdot, hdots]

/-! ### Links -/

/-- The link in the page leads to the spec from one URL of the page. -/
def LeadsTo (docPath specPath scheme authority : List Char) (uri : Routes.Uri) : Prop :=
  let target := Lib.Uri.resolve (pageUrl scheme authority uri) (Lib.Uri.parse (viewerLink docPath specPath))
  target.scheme = some scheme ∧ target.authority = some authority ∧ target.path = specPath

/-- The link in the page leads to the spec, from everywhere the page is. -/
def LinkResolves (docPath specPath : List Char) : Prop :=
  ∀ (uri : Routes.Uri) (scheme authority : List Char), Page docPath uri.path →
    let target := Lib.Uri.resolve (pageUrl scheme authority uri) (Lib.Uri.parse (viewerLink docPath specPath))
    target.scheme = some scheme ∧ target.authority = some authority ∧ target.path = specPath

/-- From which paths the link of a viewer leads to the spec. -/
inductive LinkableFrom (docPath specPath path : List Char) : Prop
  /-- The spec is not below the viewer's directory, and the link is its whole path. -/
  | apart : ¬fromDir docPath <+: specPath → Lib.Uri.DotFree (specPath.splitOn '/') → LinkableFrom docPath specPath path
  /-- The spec is the viewer's directory, and the link is empty: it leads to where the page is. -/
  | itself : specPath = fromDir docPath → path = specPath → LinkableFrom docPath specPath path
  /-- The spec is below the viewer's directory, and the page is at its declared path or has one directory. -/
  | below (rest : List Char) : specPath = fromDir docPath ++ rest → rest ≠ [] →
    Lib.Uri.DotFree (specPath.splitOn '/') → ¬Lib.Uri.SchemeLike rest → path = docPath ∨ OneDirectory docPath →
    LinkableFrom docPath specPath path

/-- Where the link of a viewer resolves. -/
inductive Linkable (docPath specPath : List Char) : Prop
  /-- The spec is not below the viewer's directory, and the link is its whole path. -/
  | apart : ¬fromDir docPath <+: specPath → Lib.Uri.DotFree (specPath.splitOn '/') → Linkable docPath specPath
  /-- The spec is where the viewer is, and the link is empty. -/
  | itself : hasSlash docPath = true → specPath = docPath → Linkable docPath specPath
  /-- The spec is below the viewer's directory, and the link is the rest of its path. -/
  | below (rest : List Char) : specPath = fromDir docPath ++ rest → rest ≠ [] →
    Lib.Uri.DotFree (specPath.splitOn '/') → ¬Lib.Uri.SchemeLike rest → OneDirectory docPath →
    Linkable docPath specPath

theorem RoutePath.notMem_slashed {path : List Char} (h : RoutePath path) :
    (path ++ ['/']).head? = some '/' ∧ '?' ∉ path ++ ['/'] ∧ '#' ∉ path ++ ['/'] := by
  refine ⟨?_, Uri.notMem_slashed h.noQuery (by decide), Uri.notMem_slashed h.noFragment (by decide)⟩
  rw [List.head?_append, h.head, Option.some_or]

theorem not_fragment_none : ∀ text ∈ (none : Option (List Char)), '#' ∉ text := by
  intro text h
  cases h

/-- Every page of a declared path is the path of some request. -/
theorem exists_uri {docPath path : List Char} (h : RoutePath docPath) (hpage : Page docPath path) :
    ∃ uri : Routes.Uri, uri.path = path := by
  rcases hpage with rfl | ⟨-, rfl⟩
  · exact ⟨⟨path, none, h.head, h.noQuery, h.noFragment, not_fragment_none⟩, rfl⟩
  · obtain ⟨hhead, hquery, hfragment⟩ := h.notMem_slashed
    exact ⟨⟨docPath ++ ['/'], none, hhead, hquery, hfragment, not_fragment_none⟩, rfl⟩

theorem RoutePath.not_slashes {path : List Char} (h : RoutePath path) : ¬['/', '/'] <+: path := fun hstart =>
  single_iff.mp h.single hstart.isInfix

section Resolution

variable {docPath specPath : List Char} (hdoc : RoutePath docPath) {uri : Routes.Uri} (scheme authority : List Char)

omit hdoc in
/-- What a rooted path leads to does not depend on the page. -/
theorem leadsTo_apart_iff (hspec : RoutePath specPath) (hdir : ¬fromDir docPath <+: specPath) :
    LeadsTo docPath specPath scheme authority uri ↔ Lib.Uri.DotFree (specPath.splitOn '/') := by
  obtain ⟨rest, rfl⟩ := hspec.eq_cons
  have hparse : Lib.Uri.parse ('/' :: rest) = ⟨none, none, '/' :: rest, none, none⟩ :=
    Lib.Uri.parse_withQuery ⟨hspec.not_slashes, hspec.noQuery, hspec.noFragment, not_fragment_none⟩
      (Lib.Uri.not_schemeLike_slash rest)
  rw [LeadsTo, viewerLink, if_neg hdir, hparse, ← Lib.Uri.removeDotSegments_rooted_iff, pageUrl, Lib.Uri.resolve_rooted]
  exact ⟨fun h => h.2.2, fun h => ⟨rfl, rfl, h⟩⟩

omit hdoc in
/-- An empty link leads to the page that it is on. -/
theorem leadsTo_itself_iff :
    LeadsTo docPath (fromDir docPath) scheme authority uri ↔ uri.path = fromDir docPath := by
  have hlink : viewerLink docPath (fromDir docPath) = [] := by
    rw [viewerLink, if_pos (List.prefix_refl _), List.drop_length]
  rw [LeadsTo, hlink]
  exact ⟨fun h => h.2.2, fun h => ⟨rfl, rfl, h⟩⟩

include hdoc in
/-- A link down from the directory leads to the spec from pages in that directory, and from those in a directory that is
    no further down. -/
theorem leadsTo_below_iff (hpage : Page docPath uri.path) {rest : List Char}
    (hspec : RoutePath (fromDir docPath ++ rest)) (hrest : rest ≠ []) :
    LeadsTo docPath (fromDir docPath ++ rest) scheme authority uri ↔
      Lib.Uri.DotFree ((fromDir docPath ++ rest).splitOn '/') ∧ ¬Lib.Uri.SchemeLike rest ∧
        (uri.path = docPath ∨ OneDirectory docPath) := by
  obtain ⟨dirs, name, hdirs, hname, hpath, hdir⟩ := exists_fromDir hdoc
  obtain ⟨c, more, rfl⟩ := List.exists_cons_of_ne_nil hrest
  have hlink : viewerLink docPath (fromDir docPath ++ c :: more) = c :: more := by
    rw [viewerLink, if_pos (List.prefix_append _ _), List.drop_left]
  have hsingle : ¬['/', '/'] <:+: c :: more := fun hpart =>
    single_iff.mp hspec.single (hpart.trans (List.suffix_append _ _).isInfix)
  rw [LeadsTo, hlink]
  by_cases hscheme : Lib.Uri.SchemeLike (c :: more)
  · -- The link is read as a reference of its own scheme, without the page's host.
    refine iff_of_false (fun h => ?_) fun h => h.2.1 hscheme
    obtain ⟨hsome, hnone⟩ := Lib.Uri.parse_of_schemeLike hscheme hsingle
    have hauthority := h.2.1
    rw [Lib.Uri.resolve_scheme hsome, hnone] at hauthority
    cases hauthority
  have hnoQuery : '?' ∉ c :: more := fun hmem => hspec.noQuery (List.mem_append_right _ hmem)
  have hnoFragment : '#' ∉ c :: more := fun hmem => hspec.noFragment (List.mem_append_right _ hmem)
  have hc : c ≠ '/' := by
    rintro rfl
    refine single_iff.mp hspec.single ⟨Lib.Uri.joined dirs, more, ?_⟩
    rw [hdir]
    simp
  have hparse : Lib.Uri.parse (c :: more) = ⟨none, none, c :: more, none, none⟩ :=
    Lib.Uri.parse_withQuery ⟨fun hstart => hsingle hstart.isInfix, hnoQuery, hnoFragment, not_fragment_none⟩ hscheme
  obtain ⟨segment, segments, hrests, hjoined⟩ := Lib.Uri.exists_joined (c :: more)
  have hbelow : fromDir docPath ++ c :: more = Lib.Uri.joined (dirs ++ segment :: segments) := by
    rw [hdir, Lib.Uri.joined_append, ← hjoined, List.append_assoc]
    rfl
  have hall : Lib.Uri.Named (dirs ++ segment :: segments) := fun other hmem =>
    (List.mem_append.mp hmem).elim (hdirs other) (hrests other)
  have hfree : Lib.Uri.DotFree ((fromDir docPath ++ c :: more).splitOn '/') ↔
      Lib.Uri.DotFree (dirs ++ segment :: segments) := by
    rw [hbelow, ← List.nil_append (Lib.Uri.joined _), Lib.Uri.splitOn_append_joined List.not_mem_nil hall,
      Lib.Uri.dotFree_nil_cons]
  have htarget : Lib.Uri.resolve (pageUrl scheme authority uri) ⟨none, none, c :: more, none, none⟩ =
      ⟨some scheme, some authority,
        Lib.Uri.removeDotSegments (uri.path.rdropWhile (· ≠ '/') ++ c :: more), none, none⟩ :=
    Lib.Uri.resolve_relative uri.ne_nil hc more
  rw [hparse, hfree, htarget, and_iff_right hscheme, hbelow]
  dsimp only
  rw [and_iff_right rfl, and_iff_right rfl]
  rcases hpage with hown | ⟨hslash, hother⟩
  · have hhere : docPath.rdropWhile (· ≠ '/') ++ c :: more = Lib.Uri.joined (dirs ++ segment :: segments) := by
      rw [← hbelow, hdir, hpath, Lib.Uri.rdropWhile_segment _ hname]
    rw [hown, hhere, and_iff_left (.inl rfl)]
    exact Lib.Uri.removeDotSegments_eq_self_iff (by simp) hall
  · have hthere : (docPath ++ ['/']).rdropWhile (· ≠ '/') ++ c :: more =
        Lib.Uri.joined (dirs ++ name :: segment :: segments) := by
      rw [Lib.Uri.rdropWhile_segment _ List.not_mem_nil, hpath, Lib.Uri.joined_append, Lib.Uri.joined_cons, ← hjoined]
      simp
    have hdiff : docPath ++ ['/'] ≠ docPath := fun heq => by simp at heq
    rw [hother, hthere, or_iff_right hdiff, oneDirectory_iff hdirs hname hpath hdir, hslash,
      or_iff_right Bool.false_ne_true]
    exact Lib.Uri.removeDotSegments_insert_iff hdirs hname hrests (List.cons_ne_nil _ _)

end Resolution

/-- The link leads to the spec from the pages that it is made for. -/
theorem leadsTo_iff {docPath specPath : List Char} (hdoc : RoutePath docPath) (hspec : RoutePath specPath)
    {uri : Routes.Uri} (hpage : Page docPath uri.path) (scheme authority : List Char) :
    LeadsTo docPath specPath scheme authority uri ↔ LinkableFrom docPath specPath uri.path := by
  by_cases hstart : fromDir docPath <+: specPath
  · obtain ⟨rest, rfl⟩ := hstart
    by_cases hrest : rest = []
    · rw [hrest, List.append_nil, leadsTo_itself_iff]
      constructor
      · exact .itself rfl
      · rintro (⟨hdir, -⟩ | ⟨-, hself⟩ | ⟨other, heq, hother, -, -, -⟩)
        · exact absurd (List.prefix_refl _) hdir
        · exact hself
        · exact absurd (List.self_eq_append_right.mp heq) hother
    · rw [leadsTo_below_iff hdoc scheme authority hpage hspec hrest]
      constructor
      · rintro ⟨hfree, hscheme, hplace⟩
        exact .below rest rfl hrest hfree hscheme hplace
      · rintro (⟨hdir, -⟩ | ⟨heq, -⟩ | ⟨other, heq, hother, hfree, hscheme, hplace⟩)
        · exact absurd (List.prefix_append _ _) hdir
        · exact absurd (List.append_right_eq_self.mp heq) hrest
        · obtain rfl := List.append_cancel_left heq
          exact ⟨hfree, hscheme, hplace⟩
  · rw [leadsTo_apart_iff scheme authority hspec hstart]
    constructor
    · exact .apart hstart
    · rintro (⟨-, hfree⟩ | ⟨heq, -⟩ | ⟨rest, heq, -, -, -, -⟩)
      · exact hfree
      · exact absurd (heq ▸ List.prefix_refl _) hstart
      · exact absurd ⟨rest, heq.symm⟩ hstart

/-- A link leads to the spec from every page just when it does not depend on which of them it is. -/
theorem linkable_iff {docPath specPath : List Char} (hdoc : RoutePath docPath) :
    Linkable docPath specPath ↔ ∀ path, Page docPath path → LinkableFrom docPath specPath path := by
  constructor
  · rintro (⟨hdir, hfree⟩ | ⟨hslash, rfl⟩ | ⟨rest, hspec, hrest, hfree, hscheme, hone⟩) path hpage
    · exact .apart hdir hfree
    · rcases hpage with rfl | ⟨hnot, -⟩
      · exact .itself (fromDir_of_hasSlash hdoc hslash).symm rfl
      · rw [hslash] at hnot
        cases hnot
    · exact .below rest hspec hrest hfree hscheme (.inr hone)
  · intro h
    have hother : hasSlash docPath = false → LinkableFrom docPath specPath (docPath ++ ['/']) := fun hslash =>
      h _ (.inr ⟨hslash, rfl⟩)
    have hdiff : docPath ++ ['/'] ≠ docPath := fun heq => by simp at heq
    rcases h docPath (.inl rfl) with ⟨hdir, hfree⟩ | ⟨hdir, hself⟩ | ⟨rest, hspec, hrest, hfree, hscheme, -⟩
    · exact .apart hdir hfree
    · cases hslash : hasSlash docPath with
      | true => exact .itself hslash hself.symm
      | false =>
        rcases hother hslash with ⟨hnot, -⟩ | ⟨-, heq⟩ | ⟨rest, hspec, hrest, -, -, -⟩
        · exact absurd (hdir ▸ List.prefix_refl _) hnot
        · exact absurd (heq.trans hself.symm) hdiff
        · exact absurd (List.self_eq_append_right.mp (hdir.symm.trans hspec)) hrest
    · refine .below rest hspec hrest hfree hscheme ?_
      cases hslash : hasSlash docPath with
      | true => exact .inl hslash
      | false =>
        rcases hother hslash with ⟨hnot, -⟩ | ⟨hdir, -⟩ | ⟨_, -, -, -, -, hplace⟩
        · exact absurd ⟨rest, hspec.symm⟩ hnot
        · exact absurd (List.self_eq_append_right.mp (hdir.symm.trans hspec)) hrest
        · exact hplace.resolve_left hdiff

theorem linkResolves_iff {docPath specPath : List Char} (hdoc : RoutePath docPath) (hspec : RoutePath specPath) :
    LinkResolves docPath specPath ↔ Linkable docPath specPath := by
  rw [linkable_iff hdoc]
  constructor
  · intro h path hpage
    obtain ⟨uri, rfl⟩ := exists_uri hdoc hpage
    exact (leadsTo_iff hdoc hspec hpage [] []).mp (h uri [] [] hpage)
  · exact fun h uri scheme authority hpage => (leadsTo_iff hdoc hspec hpage scheme authority).mpr (h _ hpage)

theorem mounted_page {prefixes : List (List Char)} (hprefixes : ∀ pre ∈ prefixes, RoutePrefix pre)
    {docId : OperationId} {docName docPath : List Char} (hdoc : RoutePath docPath) {router : Router} {doc : Operation}
    (hdocMarker : doc = mounted prefixes (.fromApiDoc docId docName docPath))
    (hfind : router.find (internalPath doc.path) .get = some doc) (uri : Routes.Uri) :
    Page doc.path uri.path ↔
      internalPath uri.path = internalPath doc.path ∧ ∃ request, router.serve .get uri = .handled doc request := by
  refine page_iff (hdocMarker ▸ mounted_path hprefixes hdoc) ?_ hfind uri
  rw [hdocMarker, mounted_trim]
  rfl

/-- The markers of a viewer and of its spec, below some prefixes: the link in the viewer's page leads to the spec from
    every request that the viewer answers for its own path, just when the spec can be linked to. -/
theorem viewer_links_resolve_iff {prefixes : List (List Char)} (hprefixes : ∀ pre ∈ prefixes, RoutePrefix pre)
    {docId specId : OperationId} {docName specName docPath specPath : List Char} (hdoc : RoutePath docPath)
    (hspec : RoutePath specPath) {router : Router} {doc spec : Operation}
    (hdocMarker : doc = mounted prefixes (.fromApiDoc docId docName docPath))
    (hspecMarker : spec = mounted prefixes (.fromApiDoc specId specName specPath))
    (hfind : router.find (internalPath doc.path) .get = some doc) :
    (∀ (uri : Routes.Uri) (request : Routes.Request) (scheme authority : List Char),
      internalPath uri.path = internalPath doc.path → router.serve .get uri = .handled doc request →
      let target := Lib.Uri.resolve (pageUrl scheme authority uri) (Lib.Uri.parse (viewerLink doc.path spec.path))
      target.scheme = some scheme ∧ target.authority = some authority ∧ target.path = spec.path) ↔
      Linkable doc.path spec.path := by
  have hdocPath : RoutePath doc.path := hdocMarker ▸ mounted_path hprefixes hdoc
  have hspecPath : RoutePath spec.path := hspecMarker ▸ mounted_path hprefixes hspec
  have hpages := mounted_page hprefixes hdoc hdocMarker hfind
  rw [← linkResolves_iff hdocPath hspecPath]
  constructor
  · intro h uri scheme authority hpage
    obtain ⟨hsame, request, hrequest⟩ := (hpages uri).mp hpage
    exact h uri request scheme authority hsame hrequest
  · intro h uri request scheme authority hsame hrequest
    exact h uri scheme authority ((hpages uri).mpr ⟨hsame, request, hrequest⟩)

/-- From one URL at which the page of a viewer is served, below any prefixes, the link in it leads to the spec's path on
    the same host just when the URL is one that the link is made for. -/
theorem viewer_link_leads_iff {prefixes : List (List Char)} (hprefixes : ∀ pre ∈ prefixes, RoutePrefix pre)
    {docId specId : OperationId} {docName specName docPath specPath : List Char} (hdoc : RoutePath docPath)
    (hspec : RoutePath specPath) {router : Router} {doc spec : Operation}
    (hdocMarker : doc = mounted prefixes (.fromApiDoc docId docName docPath))
    (hspecMarker : spec = mounted prefixes (.fromApiDoc specId specName specPath))
    (hfind : router.find (internalPath doc.path) .get = some doc) {uri : Routes.Uri} {request : Routes.Request}
    (hown : internalPath uri.path = internalPath doc.path) (hserve : router.serve .get uri = .handled doc request)
    (scheme authority : List Char) :
    let target := Lib.Uri.resolve (pageUrl scheme authority uri) (Lib.Uri.parse (viewerLink doc.path spec.path))
    (target.scheme = some scheme ∧ target.authority = some authority ∧ target.path = spec.path) ↔
      LinkableFrom doc.path spec.path uri.path :=
  leadsTo_iff (hdocMarker ▸ mounted_path hprefixes hdoc) (hspecMarker ▸ mounted_path hprefixes hspec)
    ((mounted_page hprefixes hdoc hdocMarker hfind uri).mpr ⟨hown, request, hserve⟩) scheme authority

/-! ### A viewer below a prefix -/

def viewerOperation : Operation := mounted [['/', 'a']] (.fromApiDoc 0 ['v'] ['/', 'd', '/'])

def specOperation : Operation := mounted [['/', 'a']] (.fromApiDoc 1 ['s'] ['/', 's'])

def viewerRouter : Router where
  find path method := if path = ['/', 'a', '/', 'd'] ∧ method = .get then some viewerOperation else none
  nested _ uri := uri

theorem viewer_routePaths : (∀ pre ∈ [['/', 'a']], RoutePrefix pre) ∧ RoutePath ['/', 'd', '/'] ∧ RoutePath ['/', 's'] := by
  refine ⟨fun pre hpre => ?_, ?_, ?_⟩
  · rw [List.mem_singleton.mp hpre]
    exact validateRoutePrefix_ok_iff.mp (by decide)
  · exact validateRoutePath_ok_iff.mp (by decide)
  · exact validateRoutePath_ok_iff.mp (by decide)

/-- A request of the viewer's page, with a query. -/
def viewerUri : Routes.Uri where
  path := ['/', 'a', '/', 'd', '/']
  query := some ['q']
  rooted := rfl
  noQuery := by decide
  noFragment := by decide
  queryNoFragment := by decide

theorem specOperation_linkable : Linkable viewerOperation.path specOperation.path :=
  .apart (by decide) (by unfold Lib.Uri.DotFree; decide)

/-- The spec is beside the viewer, and the page links to it. -/
theorem viewer_links_resolve_slashful :
    let target := Lib.Uri.resolve (pageUrl ['h'] ['v'] viewerUri)
      (Lib.Uri.parse (viewerLink viewerOperation.path specOperation.path))
    (∃ request, viewerRouter.serve .get viewerUri = .handled viewerOperation request) ∧
      target.scheme = some ['h'] ∧ target.authority = some ['v'] ∧ target.path = ['/', 'a', '/', 's'] := by
  have hserve : viewerRouter.serve .get viewerUri = .handled viewerOperation _ := rfl
  have hfind : viewerRouter.find (internalPath viewerOperation.path) .get = some viewerOperation := rfl
  have hlinks := (viewer_links_resolve_iff viewer_routePaths.1 viewer_routePaths.2.1 viewer_routePaths.2.2
    rfl (rfl : specOperation = _) hfind).mpr specOperation_linkable
  exact ⟨⟨_, hserve⟩, hlinks viewerUri _ _ _ rfl hserve⟩

/-- The link leads to the spec from the page with the query. -/
theorem viewer_link_leads_slashful :
    let target := Lib.Uri.resolve (pageUrl ['h'] ['v'] viewerUri)
      (Lib.Uri.parse (viewerLink viewerOperation.path specOperation.path))
    target.scheme = some ['h'] ∧ target.authority = some ['v'] ∧ target.path = specOperation.path := by
  have hserve : viewerRouter.serve .get viewerUri = .handled viewerOperation _ := rfl
  have hfind : viewerRouter.find (internalPath viewerOperation.path) .get = some viewerOperation := rfl
  have hleads := viewer_link_leads_iff viewer_routePaths.1 viewer_routePaths.2.1 viewer_routePaths.2.2
    rfl (rfl : specOperation = _) hfind rfl hserve ['h'] ['v']
  exact hleads.mpr (.apart (by decide) (by unfold Lib.Uri.DotFree; decide))

/-- A viewer at `/d`, with its spec at `/s`. -/
def plainViewer : Operation := .fromApiDoc 0 ['v'] ['/', 'd']

def plainRouter : Router where
  find path method := if path = ['/', 'd'] ∧ method = .get then some plainViewer else none
  nested _ uri := uri

/-- The page of `/d` is served at `/d/` too, and from there its link misses the spec. -/
theorem slashless_viewer_misses_spec :
    validateRoutePath ['/', 'd'] = .ok () ∧ validateRoutePath ['/', 's'] = .ok () ∧
      ∃ (uri : Routes.Uri) (request : Routes.Request), uri.path = ['/', 'd', '/'] ∧
        plainRouter.serve .get uri = .handled plainViewer request ∧
        (Lib.Uri.resolve (pageUrl ['h'] ['v'] uri) (Lib.Uri.parse (viewerLink ['/', 'd'] ['/', 's']))).path =
          ['/', 'd', '/', 's'] :=
  ⟨by decide, by decide, ⟨['/', 'd', '/'], none, rfl, by decide, by decide, not_fragment_none⟩, _, rfl, rfl, by decide⟩

end Vyuh.Bundles
