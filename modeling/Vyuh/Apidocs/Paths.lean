import Vyuh.Bundles.Sound
import Vyuh.Lib.Coding
import Vyuh.Lib.FMap
import Mathlib

/-! The paths of an OpenAPI document (`apidocs/apidoc.rs`): every visible route is written under its path, once for
    each of its methods. A route's operation id comes from its handler, with the method behind it when there are
    several. -/

namespace Vyuh.Apidocs

open Lib Bundles

/-- `to_lowercase` of a method's name. -/
def lowerName (method : Method) : List Char := method.name.map Char.toLower

/-- An operation of the document. All of it but its id is read off the route it documents. -/
structure DocOperation where
  view : Operation
  operationId : List Char
  deriving DecidableEq

/-- The operations of one path. There is a place for every method but `CONNECT`. -/
abbrev PathItem := FMap Method DocOperation

abbrev Paths := FMap (List Char) PathItem

/-- The id that `build_operation` gives. -/
def operationId (view : Operation) : List Char := view.openapiId.getD view.name

def buildOperation (view : Operation) : DocOperation := ⟨view, operationId view⟩

/-- An operation as it is written under one method. -/
def forMethod (isMultiple : Bool) (op : DocOperation) (method : Method) : DocOperation :=
  if isMultiple then { op with operationId := op.operationId ++ '_' :: lowerName method } else op

def setOperation (item : PathItem) (method : Method) (op : DocOperation) : PathItem :=
  match method with
  | .connect => item
  | _ => item.insert method op

def setOperationsForMethods (item : PathItem) (methodNames : List Method) (op : DocOperation) : PathItem :=
  methodNames.foldl (fun item method => setOperation item method (forMethod (1 < methodNames.length) op method)) item

def addViewToPaths (paths : Paths) (view : Operation) : Paths :=
  paths.insert view.path
    (setOperationsForMethods ((paths view.path).getD FMap.empty) view.methods.toVec (buildOperation view))

/-- The views by path, then by name. -/
def sortedViews (views : List Operation) : List Operation :=
  views.mergeSort fun a b => a.path < b.path || a.path = b.path && a.name ≤ b.name

/-- The paths of the document (`generate`). -/
def generatePaths (views : List Operation) : Paths := (sortedViews views).foldl addViewToPaths FMap.empty

/-- The views of a document (`DocEngine::setup`): visible routes, of a part of the bundle. -/
def documentedViews (bundle : Bundle) (contains : Operation → Bool) : List Operation :=
  bundle.ops.filter fun op => !op.hidden && op.kind = .route && contains op

/-! ### What is written where -/

/-- What the document says of a method under a path. -/
def documented (paths : Paths) (path : List Char) (method : Method) : Option DocOperation :=
  (paths path).bind fun item => item method

/-- What a route writes under one of its methods. -/
def entry (view : Operation) (method : Method) : DocOperation :=
  forMethod (1 < view.methods.toVec.length) (buildOperation view) method

theorem setOperation_apply (item : PathItem) (method other : Method) (op : DocOperation) :
    setOperation item method op other = if other = method ∧ method ≠ .connect then some op else item other := by
  cases method <;> simp [setOperation, FMap.insert_apply]

theorem foldl_setOperation_apply (item : PathItem) (make : Method → DocOperation) (methods : List Method)
    (method : Method) :
    methods.foldl (fun item method => setOperation item method (make method)) item method =
      if method ∈ methods ∧ method ≠ .connect then some (make method) else item method := by
  induction methods generalizing item with
  | nil => simp
  | cons first rest ih =>
    rw [List.foldl_cons, ih, setOperation_apply]
    by_cases hfirst : method = first
    · subst hfirst
      by_cases hconnect : method = .connect <;> simp [hconnect]
    · simp [hfirst]

theorem documented_addViewToPaths (paths : Paths) (view : Operation) (path : List Char) (method : Method) :
    documented (addViewToPaths paths view) path method =
      if path = view.path ∧ method ∈ view.methods ∧ method ≠ .connect then some (entry view method)
      else documented paths path method := by
  rw [documented, addViewToPaths, FMap.insert_apply]
  by_cases hpath : path = view.path
  · subst hpath
    rw [if_pos rfl, Option.bind_some, setOperationsForMethods, foldl_setOperation_apply, documented]
    simp only [Methods.mem_toVec, true_and, entry]
    cases paths view.path with
    | none => rfl
    | some item => rfl
  · rw [if_neg hpath, if_neg fun h => hpath h.1, documented]

/-- Two routes share neither a path with a method nor an identity. -/
def Separate (view other : Operation) : Prop :=
  view.id ≠ other.id ∧ ∀ method, view.path = other.path → method ∈ view.methods → method ∉ other.methods

theorem Separate.symm {view other : Operation} (h : Separate view other) : Separate other view :=
  ⟨h.1.symm, fun method hpath hother hview => h.2 method hpath.symm hview hother⟩

instance : Std.Symm Separate := ⟨fun _ _ h => h.symm⟩

/-- No view is written over: each stands under its path and all of its methods, and nothing else does. -/
theorem documented_foldl {views : List Operation} (h : views.Pairwise Separate) (path : List Char) (method : Method)
    (op : DocOperation) :
    documented (views.foldl addViewToPaths FMap.empty) path method = some op ↔
      ∃ view ∈ views, view.path = path ∧ method ∈ view.methods ∧ method ≠ .connect ∧ op = entry view method := by
  induction views using List.reverseRecOn with
  | nil =>
    refine iff_of_false (fun h => ?_) fun h => ?_
    · cases h
    · obtain ⟨view, hview, -⟩ := h
      cases hview
  | append_singleton views last ih =>
    obtain ⟨hviews, -, hlast⟩ := List.pairwise_append.mp h
    rw [List.foldl_append, List.foldl_cons, List.foldl_nil, documented_addViewToPaths]
    split_ifs with hwritten
    · obtain ⟨hpath, hmethod, hconnect⟩ := hwritten
      constructor
      · intro hop
        exact ⟨last, List.mem_append_right _ (List.mem_singleton_self _), hpath.symm, hmethod, hconnect,
          (Option.some.inj hop).symm⟩
      · rintro ⟨view, hview, hviewPath, hviewMethod, -, rfl⟩
        rcases List.mem_append.mp hview with hearlier | hlater
        · have hapart := hlast view hearlier last (List.mem_singleton_self _)
          exact absurd hmethod (hapart.2 method (hviewPath.trans hpath) hviewMethod)
        · rw [List.mem_singleton.mp hlater]
    · rw [ih hviews]
      constructor
      · rintro ⟨view, hview, hrest⟩
        exact ⟨view, List.mem_append_left _ hview, hrest⟩
      · rintro ⟨view, hview, hpath, hmethod, hconnect, hop⟩
        rcases List.mem_append.mp hview with hearlier | hlater
        · exact ⟨view, hearlier, hpath, hmethod, hconnect, hop⟩
        · obtain rfl := List.mem_singleton.mp hlater
          exact absurd ⟨hpath.symm, hmethod, hconnect⟩ hwritten

theorem documented_generatePaths {views : List Operation} (h : views.Pairwise Separate) (path : List Char)
    (method : Method) (op : DocOperation) :
    documented (generatePaths views) path method = some op ↔
      ∃ view ∈ views, view.path = path ∧ method ∈ view.methods ∧ method ≠ .connect ∧ op = entry view method := by
  have hperm : (sortedViews views).Perm views := List.mergeSort_perm ..
  have hsorted : (sortedViews views).Pairwise Separate := hperm.symm.pairwise h fun hab => hab.symm
  rw [generatePaths, documented_foldl hsorted]
  simp only [hperm.mem_iff]

/-- The views of a bundle composed without an error are separate. -/
theorem separate_documentedViews {bundle : Bundle} (h : bundle.Sound) (contains : Operation → Bool) :
    (documentedViews bundle contains).Pairwise Separate := by
  have hids : (documentedViews bundle contains).Pairwise fun view other => view.id ≠ other.id :=
    (List.pairwise_map.mp h.ids).filter _
  have hroutes : (documentedViews bundle contains).Sublist bundle.routes :=
    List.monotone_filter_right _ fun op hop => by
      rw [Bool.and_eq_true, Bool.and_eq_true] at hop
      exact hop.1.2
  have hapart := h.apart.sublist hroutes
  refine (hids.and hapart).imp fun {view other} hpair => ⟨hpair.1, fun method hpath hview hother => ?_⟩
  have hcollides : Bundle.collides other view = true := by
    rw [Bundle.collides, Bool.and_eq_true, decide_eq_true_eq, Methods.intersects_iff]
    exact ⟨congrArg internalPath hpath, method, hview, hother⟩
  rw [hpair.2] at hcollides
  cases hcollides

/-! ### Completeness of the document -/

/-- The document holds one operation for each path and method of the views and no other, and no two of its operations
    bear one id. -/
structure Complete (views : List Operation) (paths : Paths) : Prop where
  covers : ∀ view ∈ views, ∀ method ∈ view.methods, ∃ op, documented paths view.path method = some op ∧ op.view = view
  only : ∀ path method op, documented paths path method = some op →
    op.view ∈ views ∧ op.view.path = path ∧ method ∈ op.view.methods
  unique : ∀ path method op path' method' op', documented paths path method = some op →
    documented paths path' method' = some op' → op.operationId = op'.operationId → path = path' ∧ method = method'

/-- The route accepts several methods, so that each of its ids names one. -/
def Several (view : Operation) : Prop := 1 < view.methods.toVec.length

instance (view : Operation) : Decidable (Several view) := inferInstanceAs (Decidable (1 < _))

/-- An id of the first route is an id of the second: they bear one name, or the name of one is that of the other with
    a method of it behind. -/
inductive IdsMeet (view other : Operation) : Prop
  | plain : ¬ Several view → ¬ Several other → operationId view = operationId other → IdsMeet view other
  | suffixed (method : Method) : ¬ Several view → Several other → method ∈ other.methods →
    operationId view = operationId other ++ '_' :: lowerName method → IdsMeet view other
  | imitated (method : Method) : Several view → ¬ Several other → method ∈ view.methods →
    operationId view ++ '_' :: lowerName method = operationId other → IdsMeet view other
  | shared (method : Method) : Several view → Several other → method ∈ view.methods → method ∈ other.methods →
    operationId view = operationId other → IdsMeet view other

theorem lowerName_injective : ∀ method other : Method, lowerName method = lowerName other → method = other := by
  intro method other
  cases method <;> cases other <;> decide

theorem underscore_notMem_lowerName (method : Method) : '_' ∉ lowerName method := by cases method <;> decide

theorem suffix_injective {id id' : List Char} {method method' : Method}
    (h : id ++ '_' :: lowerName method = id' ++ '_' :: lowerName method') : id = id' ∧ method = method' := by
  have hcut := append_cons_inj_last (underscore_notMem_lowerName method) (underscore_notMem_lowerName method') h
  exact ⟨hcut.1, lowerName_injective _ _ hcut.2⟩

theorem entry_view (view : Operation) (method : Method) : (entry view method).view = view := by
  rw [entry, forMethod]
  split_ifs <;> rfl

theorem entry_operationId (view : Operation) (method : Method) :
    (entry view method).operationId =
      if Several view then operationId view ++ '_' :: lowerName method else operationId view := by
  by_cases hseveral : Several view
  · have hlength : 1 < view.methods.toVec.length := hseveral
    rw [entry, forMethod, if_pos (decide_eq_true hlength), if_pos hseveral]
    rfl
  · have hlength : ¬ 1 < view.methods.toVec.length := hseveral
    rw [entry, forMethod, if_neg (by rwa [decide_eq_true_eq]), if_neg hseveral]
    rfl

theorem eq_of_not_several {view : Operation} (h : ¬ Several view) {method other : Method} (hmethod : method ∈ view.methods)
    (hother : other ∈ view.methods) : method = other := by
  have hlength : view.methods.toVec.length = 1 := by
    have := List.length_pos_of_mem (Methods.mem_toVec.mpr hmethod)
    have := not_lt.mp h
    omega
  obtain ⟨sole, hsole⟩ := List.length_eq_one_iff.mp hlength
  rw [← Methods.mem_toVec, hsole, List.mem_singleton] at hmethod hother
  rw [hmethod, hother]

theorem idsMeet_iff {view other : Operation} :
    IdsMeet view other ↔ ∃ method ∈ view.methods, ∃ method' ∈ other.methods,
      (entry view method).operationId = (entry other method').operationId := by
  simp only [entry_operationId]
  obtain ⟨some, hsome⟩ := view.methods.exists_mem
  obtain ⟨some', hsome'⟩ := other.methods.exists_mem
  constructor
  · intro h
    cases h with
    | plain hview hother heq =>
      simp only [if_neg hview, if_neg hother]
      exact ⟨some, hsome, some', hsome', heq⟩
    | suffixed method hview hother hmethod heq =>
      simp only [if_neg hview, if_pos hother]
      exact ⟨some, hsome, method, hmethod, heq⟩
    | imitated method hview hother hmethod heq =>
      simp only [if_pos hview, if_neg hother]
      exact ⟨method, hmethod, some', hsome', heq⟩
    | shared method hview hother hmethod hmethod' heq =>
      simp only [if_pos hview, if_pos hother, heq]
      exact ⟨method, hmethod, method, hmethod', rfl⟩
  · rintro ⟨method, hmethod, method', hmethod', heq⟩
    split_ifs at heq with hview hother hother
    · obtain ⟨hid, rfl⟩ := suffix_injective heq
      exact .shared method hview hother hmethod hmethod' hid
    · exact .imitated method hview hother hmethod heq
    · exact .suffixed method' hview hother hmethod' heq
    · exact .plain hview hother heq

instance (view other : Operation) : Decidable (IdsMeet view other) :=
  decidable_of_iff (∃ method ∈ view.methods.filter, ∃ method' ∈ other.methods.filter,
    (entry view method).operationId = (entry other method').operationId) idsMeet_iff.symm

/-- The document is complete just when no view accepts `CONNECT` and no two views have an id in common. -/
theorem complete_iff {views : List Operation} (h : views.Pairwise Separate) :
    Complete views (generatePaths views) ↔
      (∀ view ∈ views, .connect ∉ view.methods) ∧
        ∀ view ∈ views, ∀ other ∈ views, view ≠ other → ¬ IdsMeet view other := by
  constructor
  · intro hcomplete
    have hwritten : ∀ view ∈ views, ∀ method ∈ view.methods,
        method ≠ .connect ∧ documented (generatePaths views) view.path method = some (entry view method) := by
      intro view hview method hmethod
      obtain ⟨op, hop, hopView⟩ := hcomplete.covers view hview method hmethod
      obtain ⟨found, -, -, -, hconnect, rfl⟩ := (documented_generatePaths h _ _ _).mp hop
      rw [entry_view] at hopView
      exact ⟨hconnect, hopView ▸ hop⟩
    refine ⟨fun view hview hconnect => (hwritten view hview _ hconnect).1 rfl, fun view hview other hother hne hmeet => ?_⟩
    obtain ⟨method, hmethod, method', hmethod', heq⟩ := idsMeet_iff.mp hmeet
    obtain ⟨hpath, rfl⟩ := hcomplete.unique _ _ _ _ _ _ (hwritten view hview method hmethod).2
      (hwritten other hother method' hmethod').2 heq
    exact (h.forall hview hother hne).2 method hpath hmethod hmethod'
  · rintro ⟨hconnect, hids⟩
    refine ⟨fun view hview method hmethod => ?_, fun path method op hop => ?_, ?_⟩
    · have hne : method ≠ .connect := fun heq => hconnect view hview (heq ▸ hmethod)
      exact ⟨entry view method, (documented_generatePaths h _ _ _).mpr ⟨view, hview, rfl, hmethod, hne, rfl⟩,
        entry_view view method⟩
    · obtain ⟨view, hview, hpath, hmethod, -, rfl⟩ := (documented_generatePaths h _ _ _).mp hop
      rw [entry_view]
      exact ⟨hview, hpath, hmethod⟩
    · intro path method op path' method' op' hop hop' heq
      obtain ⟨view, hview, rfl, hmethod, -, rfl⟩ := (documented_generatePaths h _ _ _).mp hop
      obtain ⟨other, hother, rfl, hmethod', -, rfl⟩ := (documented_generatePaths h _ _ _).mp hop'
      by_cases hsame : view = other
      · subst hsame
        refine ⟨rfl, ?_⟩
        rw [entry_operationId, entry_operationId] at heq
        split_ifs at heq with hseveral
        · exact (suffix_injective heq).2
        · exact eq_of_not_several hseveral hmethod hmethod'
      · exact absurd (idsMeet_iff.mpr ⟨method, hmethod, method', hmethod', heq⟩) (hids view hview other hother hsame)

/-- The document of a bundle composed without an error covers every path and method of the visible routes once, under
    ids of their own, just when none of them accepts `CONNECT` and no two have an id in common. -/
theorem document_covers_routes_iff {bundle : Bundle} (h : Composed bundle) (herrors : bundle.errors = [])
    (contains : Operation → Bool) :
    Complete (documentedViews bundle contains) (generatePaths (documentedViews bundle contains)) ↔
      (∀ view ∈ documentedViews bundle contains, .connect ∉ view.methods) ∧
        ∀ view ∈ documentedViews bundle contains, ∀ other ∈ documentedViews bundle contains, view ≠ other →
          ¬ IdsMeet view other :=
  complete_iff (separate_documentedViews (h.sound herrors) contains)

/-- Two routes of one method, each with the handler it is given. -/
def twoRoutes (handler other : List Char) : Bundle :=
  (Bundle.new.addPart 0 (.route handler ⟨"notes".toList, .only .get, "/notes".toList, true⟩ ⟨none, none⟩)).addPart 1
    (.route other ⟨"drafts".toList, .only .get, "/drafts".toList, true⟩ ⟨none, none⟩)

theorem twoRoutes_composed (handler other : List Char) : Composed (twoRoutes handler other) := by
  refine .addPart _ (.addPart _ .new fun op hop => ?_) fun op hop => ?_
  · cases hop
  · obtain rfl := List.mem_singleton.mp hop
    exact Nat.zero_ne_one

theorem document_covers_routes_iff_two :
    Complete (documentedViews (twoRoutes "list_notes".toList "list_drafts".toList) fun _ => true)
      (generatePaths (documentedViews (twoRoutes "list_notes".toList "list_drafts".toList) fun _ => true)) :=
  (document_covers_routes_iff (twoRoutes_composed _ _) rfl fun _ => true).mpr ⟨by decide, by decide⟩

/-- One handler that serves two routes gives both the same id. -/
theorem shared_handler_shares_id :
    Composed (twoRoutes "list".toList "list".toList) ∧ (twoRoutes "list".toList "list".toList).errors = [] ∧
      ¬ Complete (documentedViews (twoRoutes "list".toList "list".toList) fun _ => true)
        (generatePaths (documentedViews (twoRoutes "list".toList "list".toList) fun _ => true)) := by
  have hcomposed := twoRoutes_composed "list".toList "list".toList
  have hseparate := separate_documentedViews (hcomposed.sound rfl) fun _ => true
  refine ⟨hcomposed, rfl, fun hcomplete => ?_⟩
  have hids := ((complete_iff hseparate).mp hcomplete).2
  revert hids
  decide

end Vyuh.Apidocs
