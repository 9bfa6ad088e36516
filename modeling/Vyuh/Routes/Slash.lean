import Vyuh.Bundles.Compose
import Vyuh.Lib.Uri
import Mathlib

/-! The slash service around the router (`slash.rs`). One slash at the end of a request's path is trimmed before the
    router looks the path up, and the layer of the route that is found then redirects, rejects or passes the request on.
    Which route that is, and what the services below its prefixes see of the URI, is the router's own. -/

namespace Vyuh.Routes

open Lib Bundles

/-! ### Requests -/

/-- The URI of a request in origin form. -/
structure Uri where
  path : List Char
  query : Option (List Char)
  rooted : path.head? = some '/'
  noQuery : '?' ∉ path
  noFragment : '#' ∉ path
  queryNoFragment : ∀ text ∈ query, '#' ∉ text
  deriving DecidableEq

structure Request where
  uri : Uri
  originalUri : Option Uri
  /-- The extension `TrailingSlashTrimmed`. -/
  trimmed : Bool

namespace Uri

theorem notMem_takeWhile {text : List Char} {keep : Char → Bool} {c : Char} (h : keep c = false) :
    c ∉ text.takeWhile keep := by
  intro hmem
  rw [List.mem_takeWhile_imp hmem] at h
  cases h

theorem splitQuery_noFragment {text query : List Char} (h : query ∈ (Lib.Uri.splitQuery text).1) : '#' ∉ query := by
  rw [Lib.Uri.splitQuery.eq_def] at h
  split at h
  · cases h
    exact notMem_takeWhile (by decide)
  · cases h

/-- Parses a path with a query behind it. -/
def parse (text : List Char) : Option Uri :=
  if rooted : (Lib.Uri.splitPath text).1.head? = some '/' then
    some
      { path := (Lib.Uri.splitPath text).1
        query := (Lib.Uri.splitQuery (Lib.Uri.splitPath text).2).1
        rooted := rooted
        noQuery := notMem_takeWhile (by decide)
        noFragment := notMem_takeWhile (by decide)
        queryNoFragment := fun _ => splitQuery_noFragment }
  else none

end Uri

/-- The URI without the slash at its end. -/
def trimUri (uri : Uri) : Option Uri := Uri.parse (Lib.Uri.withQuery (internalPath uri.path) uri.query)

def normalizeRequest (request : Request) : Request :=
  if hasSlash request.uri.path then
    match trimUri request.uri with
    | some normalized => { uri := normalized, originalUri := some request.uri, trimmed := true }
    | none => request
  else request

/-! ### Routes -/

inductive RouteSlash where
  | redirect | reject
  deriving DecidableEq

/-- The layer of a route: slashful routes redirect, and slashless ones that are not trimmed reject. -/
def routeLayer (op : Operation) : Option RouteSlash :=
  if hasSlash op.path then some .redirect else if !op.trim then some .reject else none

inductive Answer where
  /-- No route has the path and the method. -/
  | unmatched
  | redirected (op : Operation) (location : List Char)
  | rejected (op : Operation)
  | handled (op : Operation) (request : Request)

/-- The location of a redirect: the original path with a slash, and the original query. -/
def redirect (request : Request) : List Char :=
  let uri := request.originalUri.getD request.uri
  uri.path ++ '/' :: (match uri.query with
    | some query => '?' :: query
    | none => [])

def RouteSlash.call (mode : RouteSlash) (op : Operation) (request : Request) : Answer :=
  match mode, request.trimmed with
  | .redirect, false => .redirected op (Routes.redirect request)
  | .reject, true => .rejected op
  | _, _ => .handled op request

/-- The answer of a route behind its layer. -/
def pass (op : Operation) (request : Request) : Answer :=
  match routeLayer op with
  | none => .handled op request
  | some mode => mode.call op request

/-- The router: which route it finds for a path and a method, and what that route sees of the URI. -/
structure Router where
  find : List Char → Method → Option Operation
  nested : Operation → Uri → Uri

namespace Router

/-- Hands a normalized request to the route it is for. The router notes the URI it was given, once. -/
def dispatch (router : Router) (method : Method) (request : Request) : Answer :=
  match router.find request.uri.path method with
  | none => .unmatched
  | some op =>
    pass op { request with
      uri := router.nested op request.uri
      originalUri := some (request.originalUri.getD request.uri) }

/-- The site's answer to a request (`SiteService::call`). -/
def serve (router : Router) (method : Method) (uri : Uri) : Answer :=
  router.dispatch method (normalizeRequest ⟨uri, none, false⟩)

end Router

/-! ### Slashes -/

theorem hasSlash_iff {path : List Char} : hasSlash path = true ↔ path ≠ ['/'] ∧ path.getLast? = some '/' := by
  rw [hasSlash, Bool.and_eq_true, decide_eq_true_eq, decide_eq_true_eq]

/-- A path is its slashless form, with a slash or without. -/
theorem path_eq (path : List Char) : path = internalPath path ++ (if hasSlash path then ['/'] else []) := by
  by_cases hroot : path = ['/']
  · rw [hroot]
    decide
  · rw [internalPath, if_neg hroot, slashless, hasSlash]
    by_cases hlast : path.getLast? = some '/'
    · rw [if_pos hlast, if_pos (by simp [hroot, hlast]), List.dropLast_append_getLast? _ hlast]
    · rw [if_neg hlast, if_neg (by simp [hlast]), List.append_nil]

theorem internalPath_of_hasSlash_eq_false {path : List Char} (h : hasSlash path = false) : internalPath path = path := by
  conv_rhs => rw [path_eq path, h]
  exact (List.append_nil _).symm

theorem hasSlash_slashed {path : List Char} (h : path ≠ []) : hasSlash (path ++ ['/']) = true := by
  rw [hasSlash_iff, List.getLast?_concat]
  exact ⟨fun heq => h (List.append_left_eq_self.mp heq), rfl⟩

theorem internalPath_slashed {path : List Char} (h : path ≠ []) : internalPath (path ++ ['/']) = path := by
  have heq := path_eq (path ++ ['/'])
  rw [hasSlash_slashed h, if_pos rfl, List.append_cancel_right_eq] at heq
  exact heq.symm

theorem prefix_internalPath (path : List Char) : internalPath path <+: path := ⟨_, (path_eq path).symm⟩

theorem internalPath_head? {path : List Char} (h : path.head? = some '/') : (internalPath path).head? = some '/' := by
  cases hpath : internalPath path with
  | nil =>
    -- Nothing is left of no path but the empty one, for the root keeps its slash.
    rw [path_eq path, hpath, List.nil_append] at h
    split_ifs at h with hslash
    · have hroot := path_eq path
      rw [hpath, if_pos hslash] at hroot
      rw [hroot] at hslash
      exact absurd hslash (by decide)
    · cases h
  | cons c rest =>
    rw [path_eq path, hpath] at h
    exact h

namespace Uri

theorem ne_nil (uri : Uri) : uri.path ≠ [] := by
  intro hnil
  have hhead := uri.rooted
  rw [hnil] at hhead
  cases hhead

theorem ext_iff {uri other : Uri} : uri = other ↔ uri.path = other.path ∧ uri.query = other.query := by
  cases uri
  cases other
  simp

/-- The URI at the slashless form of its path. -/
def internal (uri : Uri) : Uri where
  path := internalPath uri.path
  query := uri.query
  rooted := internalPath_head? uri.rooted
  noQuery hmem := uri.noQuery ((prefix_internalPath uri.path).subset hmem)
  noFragment hmem := uri.noFragment ((prefix_internalPath uri.path).subset hmem)
  queryNoFragment := uri.queryNoFragment

theorem slashed_head? (uri : Uri) : (uri.path ++ ['/']).head? = some '/' := by
  rw [List.head?_append, uri.rooted, Option.some_or]

theorem notMem_slashed {path : List Char} {c : Char} (h : c ∉ path) (hc : c ≠ '/') : c ∉ path ++ ['/'] := by
  simp [h, hc]

/-- The URI with a slash at the end of its path. -/
def slashed (uri : Uri) : Uri where
  path := uri.path ++ ['/']
  query := uri.query
  rooted := slashed_head? uri
  noQuery := notMem_slashed uri.noQuery (by decide)
  noFragment := notMem_slashed uri.noFragment (by decide)
  queryNoFragment := uri.queryNoFragment

theorem parse_eq_some {text path rest : List Char} (hpath : Lib.Uri.splitPath text = (path, rest))
    (h : path.head? = some '/') :
    ∃ uri, parse text = some uri ∧ uri.path = path ∧ uri.query = (Lib.Uri.splitQuery rest).1 := by
  have hhead : (Lib.Uri.splitPath text).1.head? = some '/' := by rw [hpath, h]
  rw [parse, dif_pos hhead]
  refine ⟨_, rfl, ?_, ?_⟩
  · exact congrArg Prod.fst hpath
  · exact congrArg (fun split => (Lib.Uri.splitQuery split.2).1) hpath

theorem parse_withQuery (uri : Uri) : parse (Lib.Uri.withQuery uri.path uri.query) = some uri := by
  obtain ⟨other, hparse, hpath, hquery⟩ :=
    parse_eq_some (Lib.Uri.splitPath_withQuery uri.noQuery uri.noFragment uri.query) uri.rooted
  rw [Lib.Uri.splitQuery_withQuery uri.queryNoFragment] at hquery
  rw [hparse, ext_iff.mpr ⟨hpath, hquery⟩]

end Uri

/-- A path that was parsed is parsed again without its slash. -/
theorem trimUri_eq (uri : Uri) : trimUri uri = some uri.internal := Uri.parse_withQuery uri.internal

theorem normalizeRequest_eq (uri : Uri) :
    normalizeRequest ⟨uri, none, false⟩ =
      ⟨uri.internal, if hasSlash uri.path then some uri else none, hasSlash uri.path⟩ := by
  rw [normalizeRequest, trimUri_eq]
  cases hslash : hasSlash uri.path with
  | true => rfl
  | false =>
    have huri : uri.internal = uri := Uri.ext_iff.mpr ⟨internalPath_of_hasSlash_eq_false hslash, rfl⟩
    rw [huri]
    rfl

/-! ### Answers -/

theorem pass_eq (op : Operation) (request : Request) :
    pass op request =
      if hasSlash op.path && !request.trimmed then .redirected op (redirect request)
      else if !hasSlash op.path && !op.trim && request.trimmed then .rejected op
      else .handled op request := by
  obtain ⟨uri, originalUri, trimmed⟩ := request
  rw [pass, routeLayer]
  cases hasSlash op.path <;> cases op.trim <;> cases trimmed <;> rfl

namespace Router

variable {router : Router} {method : Method} {uri : Uri} {op : Operation}

/-- What the layer of a route sees of a request. -/
def inner (router : Router) (op : Operation) (uri : Uri) : Request :=
  ⟨router.nested op uri.internal, some uri, hasSlash uri.path⟩

@[simp] theorem inner_trimmed : (router.inner op uri).trimmed = hasSlash uri.path := rfl

theorem serve_of_find_eq_none (h : router.find (internalPath uri.path) method = none) :
    router.serve method uri = .unmatched := by
  have hfind : router.find (normalizeRequest ⟨uri, none, false⟩).uri.path method = none := by
    rw [normalizeRequest_eq]
    exact h
  rw [serve, dispatch, hfind]

theorem serve_of_find (h : router.find (internalPath uri.path) method = some op) :
    router.serve method uri = pass op (router.inner op uri) := by
  have hfind : router.find (normalizeRequest ⟨uri, none, false⟩).uri.path method = some op := by
    rw [normalizeRequest_eq]
    exact h
  have horiginal : (if hasSlash uri.path then some uri else none).getD uri.internal = uri := by
    cases hslash : hasSlash uri.path with
    | true => rfl
    | false => exact Uri.ext_iff.mpr ⟨internalPath_of_hasSlash_eq_false hslash, rfl⟩
  rw [serve, dispatch, hfind]
  dsimp only
  rw [normalizeRequest_eq, horiginal]
  rfl

theorem redirect_inner (router : Router) (op : Operation) (uri : Uri) :
    redirect (router.inner op uri) = Lib.Uri.withQuery (uri.path ++ ['/']) uri.query := by
  obtain ⟨path, query, rooted, noQuery, noFragment, queryNoFragment⟩ := uri
  cases query with
  | none => rfl
  | some query => simp [redirect, inner, Lib.Uri.withQuery]

theorem serve_handled_iff {request : Request} :
    router.serve method uri = .handled op request ↔
      router.find (internalPath uri.path) method = some op ∧ (hasSlash op.path = true → hasSlash uri.path = true) ∧
        (hasSlash uri.path = true → hasSlash op.path = true ∨ op.trim = true) ∧ request = router.inner op uri := by
  cases hfind : router.find (internalPath uri.path) method with
  | none =>
    rw [serve_of_find_eq_none hfind]
    exact iff_of_false (fun h => by cases h) fun h => by cases h.1
  | some found =>
    rw [serve_of_find hfind, pass_eq, inner_trimmed]
    constructor
    · intro h
      split_ifs at h with hredirect hreject
      cases h
      refine ⟨rfl, fun hslash => ?_, fun hpath => ?_, rfl⟩
      · simpa [hslash] using hredirect
      · simpa [hpath, or_iff_not_imp_left] using hreject
    · rintro ⟨hop, hslash, htrim, rfl⟩
      cases hop
      rw [if_neg, if_neg]
      · intro hreject
        simp only [Bool.and_eq_true, Bool.not_eq_true'] at hreject
        rcases htrim hreject.2 with h | h
        · rw [h] at hreject
          cases hreject.1.1
        · rw [h] at hreject
          cases hreject.1.2
      · intro hredirect
        simp only [Bool.and_eq_true, Bool.not_eq_true'] at hredirect
        rw [hslash hredirect.1] at hredirect
        cases hredirect.2

theorem serve_redirected_iff {location : List Char} :
    router.serve method uri = .redirected op location ↔
      router.find (internalPath uri.path) method = some op ∧ hasSlash op.path = true ∧ hasSlash uri.path = false ∧
        location = Lib.Uri.withQuery (uri.path ++ ['/']) uri.query := by
  cases hfind : router.find (internalPath uri.path) method with
  | none =>
    rw [serve_of_find_eq_none hfind]
    exact iff_of_false (fun h => by cases h) fun h => by cases h.1
  | some found =>
    rw [serve_of_find hfind, pass_eq, redirect_inner, inner_trimmed]
    constructor
    · intro h
      split_ifs at h with hredirect
      cases h
      simp only [Bool.and_eq_true, Bool.not_eq_true'] at hredirect
      exact ⟨rfl, hredirect.1, hredirect.2, rfl⟩
    · rintro ⟨hop, hslash, hpath, rfl⟩
      cases hop
      rw [if_pos]
      simp [hslash, hpath]

end Router

/-! ### Redirects -/

/-- The URL of a page, as a base that links on it are resolved against. -/
def pageUrl (scheme authority : List Char) (uri : Uri) : Lib.Uri.Reference :=
  ⟨some scheme, some authority, uri.path, uri.query, none⟩

/-- No segment of the path is a dot, and with a slash behind it the path does not begin with two. -/
structure Plain (path : List Char) : Prop where
  dotFree : Lib.Uri.DotFree (path.splitOn '/')
  noAuthority : ¬['/', '/'] <+: path ++ ['/']

theorem slashed_internal (uri : Uri) : uri.slashed.internal = uri :=
  Uri.ext_iff.mpr ⟨internalPath_slashed uri.ne_nil, rfl⟩

/-- A path and a query as a link lead to the path just when no host is read off the path and no dot is in it. -/
theorem resolve_withQuery_iff (base uri : Uri) (scheme authority : List Char) :
    Lib.Uri.resolve (pageUrl scheme authority base) (Lib.Uri.parse (Lib.Uri.withQuery uri.path uri.query)) =
        pageUrl scheme authority uri ↔
      Lib.Uri.DotFree (uri.path.splitOn '/') ∧ ¬['/', '/'] <+: uri.path := by
  by_cases hslashes : ['/', '/'] <+: uri.path
  · refine iff_of_false (fun heq => ?_) fun h => h.2 hslashes
    have hlt := @Lib.Uri.length_resolve_path_lt _ uri.query hslashes (pageUrl scheme authority base)
    rw [heq] at hlt
    exact lt_irrefl _ hlt
  · rw [Lib.Uri.parse_withQuery ⟨hslashes, uri.noQuery, uri.noFragment, uri.queryNoFragment⟩
      (Lib.Uri.not_schemeLike_withQuery uri.rooted uri.query), and_iff_left hslashes]
    obtain ⟨rest, hpath⟩ := List.head?_eq_some_iff.mp uri.rooted
    rw [hpath, Lib.Uri.resolve_rooted, ← Lib.Uri.removeDotSegments_rooted_iff, pageUrl, pageUrl, hpath]
    simp

theorem plain_iff {path : List Char} :
    Plain path ↔ Lib.Uri.DotFree ((path ++ ['/']).splitOn '/') ∧ ¬['/', '/'] <+: path ++ ['/'] := by
  rw [List.splitOn_append_cons_self, List.splitOn_nil, Lib.Uri.dotFree_append]
  constructor
  · rintro ⟨hfree, hauthority⟩
    exact ⟨⟨hfree, Lib.Uri.dotFree_nil_cons.mpr (List.forall_mem_nil _)⟩, hauthority⟩
  · rintro ⟨⟨hfree, -⟩, hauthority⟩
    exact ⟨hfree, hauthority⟩

/-- With the slash, the request is answered by the route that redirected it. -/
theorem serve_slashed {router : Router} {method : Method} {uri : Uri} {op : Operation} {location : List Char}
    (h : router.serve method uri = .redirected op location) :
    router.serve method uri.slashed = .handled op ⟨router.nested op uri, some uri.slashed, true⟩ := by
  obtain ⟨hfind, hop, hpath, -⟩ := Router.serve_redirected_iff.mp h
  have hslash : hasSlash uri.slashed.path = true := hasSlash_slashed uri.ne_nil
  refine Router.serve_handled_iff.mpr ⟨?_, fun _ => hslash, fun _ => .inl hop, ?_⟩
  · rw [← hfind, internalPath_of_hasSlash_eq_false hpath]
    exact congrArg (router.find · method) (internalPath_slashed uri.ne_nil)
  · rw [Router.inner, slashed_internal uri, hslash]

/-- The client that follows a redirect is answered by the route that sent it, without a second redirect, and it asks
    for the URI it was sent to just when its own path has no dots and does not read as a host. -/
theorem redirect_leads_back {router : Router} {method : Method} {uri : Uri} {op : Operation} {location : List Char}
    (h : router.serve method uri = .redirected op location) (scheme authority : List Char) :
    router.serve method uri.slashed = .handled op ⟨router.nested op uri, some uri.slashed, true⟩ ∧
      (Lib.Uri.resolve (pageUrl scheme authority uri) (Lib.Uri.parse location) = pageUrl scheme authority uri.slashed ↔
        Plain uri.path) := by
  refine ⟨serve_slashed h, ?_⟩
  obtain ⟨-, -, -, rfl⟩ := Router.serve_redirected_iff.mp h
  exact (resolve_withQuery_iff uri uri.slashed scheme authority).trans plain_iff.symm

/-- With a slash behind it, a path begins with two when it is the root or begins with two itself. -/
theorem slashes_slashed (uri : Uri) :
    ['/', '/'] <+: uri.path ++ ['/'] ↔ uri.path = ['/'] ∨ ['/', '/'] <+: uri.path := by
  obtain ⟨rest, hpath⟩ := List.head?_eq_some_iff.mp uri.rooted
  rw [hpath]
  cases rest with
  | nil => simp
  | cons c rest => simp [List.cons_prefix_cons]

def docsOperation : Operation :=
  { Operation.fromApiDoc 0 "docs".toList ['/', 'd', '/'] with kind := .route, hidden := false }

/-- The router of a site with one page. -/
def docsRouter : Router where
  find path method := if path = ['/', 'd'] ∧ method = .get then some docsOperation else none
  nested _ uri := uri

theorem docs_marks : '?' ∉ ['/', 'd'] ∧ '#' ∉ ['/', 'd'] := by decide

theorem page_marks : ∀ text ∈ some ['p', '=', '1'], '#' ∉ text := by
  rintro text ⟨⟩
  decide

def docsUri : Uri := ⟨['/', 'd'], some ['p', '=', '1'], rfl, docs_marks.1, docs_marks.2, page_marks⟩

theorem docsUri_plain : Plain docsUri.path := by
  refine ⟨?_, by decide⟩
  unfold Lib.Uri.DotFree
  decide

theorem redirect_leads_back_docs :
    docsRouter.serve .get docsUri.slashed = .handled docsOperation ⟨docsUri, some docsUri.slashed, true⟩ ∧
      Lib.Uri.resolve (pageUrl ['h'] ['v'] docsUri) (Lib.Uri.parse ['/', 'd', '/', '?', 'p', '=', '1']) =
        pageUrl ['h'] ['v'] docsUri.slashed :=
  have hback := redirect_leads_back (Router.serve_redirected_iff.mpr ⟨rfl, rfl, rfl, rfl⟩) ['h'] ['v']
  ⟨hback.1, hback.2.mpr docsUri_plain⟩

/-- `/{*rest}/`. -/
def filesOperation : Operation :=
  { Operation.fromApiDoc 0 "files".toList "/{*rest}/".toList with kind := .route, hidden := false }

/-- The router of a site with this route: what stands behind the first slash is the parameter, and is not empty. -/
def filesRouter : Router where
  find path method := if 2 ≤ path.length ∧ path.head? = some '/' ∧ method = .get then some filesOperation else none
  nested _ uri := uri

theorem files_marks : '?' ∉ ['/', '/', 'e', '/', 'd'] ∧ '#' ∉ ['/', '/', 'e', '/', 'd'] := by decide

/-- The request for `//e/d`. -/
def hostUri : Uri := ⟨['/', '/', 'e', '/', 'd'], none, rfl, files_marks.1, files_marks.2, by simp⟩

end Vyuh.Routes
