import Mathlib

/-! The operations a bundle registers (`callables/operations.rs`) with the methods they accept (`routes/methods.rs`)
    and their paths, of which the router's table holds the slashless form (`slash.rs`). -/

namespace Vyuh.Bundles

/-! ### Methods -/

/-- The methods of `KNOWN_METHODS`. -/
inductive Method where
  | get | post | put | patch | delete | head | options | trace | connect
  deriving DecidableEq, Repr

namespace Method

/-- `KNOWN_METHODS`. -/
def known : List Method := [.get, .post, .put, .patch, .delete, .head, .options, .trace, .connect]

def name : Method → List Char
  | .get => "GET".toList
  | .post => "POST".toList
  | .put => "PUT".toList
  | .patch => "PATCH".toList
  | .delete => "DELETE".toList
  | .head => "HEAD".toList
  | .options => "OPTIONS".toList
  | .trace => "TRACE".toList
  | .connect => "CONNECT".toList

theorem mem_known (method : Method) : method ∈ known := by cases method <;> decide

end Method

/-- The methods a handler accepts; a filter always has one. -/
structure Methods where
  filter : Finset Method
  nonempty : filter.Nonempty
  deriving DecidableEq

namespace Methods

instance : Membership Method Methods := ⟨fun methods method => method ∈ methods.filter⟩

instance (method : Method) (methods : Methods) : Decidable (method ∈ methods) :=
  inferInstanceAs (Decidable (method ∈ methods.filter))

def only (method : Method) : Methods := ⟨{method}, Finset.singleton_nonempty method⟩

/-- The `|` of two filters. -/
def or (methods other : Methods) : Methods :=
  ⟨methods.filter ∪ other.filter, methods.nonempty.mono Finset.subset_union_left⟩

def contains (methods other : Methods) : Bool := methods.or other = methods

/-- The methods of the filter, in the order in which all methods are known. -/
def toVec (methods : Methods) : List Method := Method.known.filter fun method => methods.contains (only method)

def intersects (methods other : Methods) : Bool := other.toVec.any fun method => methods.contains (only method)

@[simp] theorem mem_only {method other : Method} : method ∈ only other ↔ method = other := Finset.mem_singleton

@[simp] theorem contains_only {methods : Methods} {method : Method} :
    methods.contains (only method) = true ↔ method ∈ methods := by
  rw [contains, decide_eq_true_eq, or, Methods.mk.injEq]
  exact Finset.union_eq_left.trans Finset.singleton_subset_iff

@[simp] theorem mem_toVec {methods : Methods} {method : Method} : method ∈ methods.toVec ↔ method ∈ methods := by
  rw [toVec, List.mem_filter, contains_only, and_iff_right method.mem_known]

theorem exists_mem (methods : Methods) : ∃ method, method ∈ methods := methods.nonempty

theorem intersects_iff {methods other : Methods} :
    methods.intersects other = true ↔ ∃ method, method ∈ methods ∧ method ∈ other := by
  rw [intersects, List.any_eq_true]
  constructor
  · rintro ⟨method, hmem, hcontains⟩
    exact ⟨method, contains_only.mp hcontains, mem_toVec.mp hmem⟩
  · rintro ⟨method, hmem, hother⟩
    exact ⟨method, mem_toVec.mpr hother, contains_only.mpr hmem⟩

end Methods

/-! ### Paths -/

/-- `strip_suffix('/')`, or the path itself. -/
def slashless (path : List Char) : List Char := if path.getLast? = some '/' then path.dropLast else path

/-- The single slashless path that the router's table stores. -/
def internalPath (path : List Char) : List Char := if path = ['/'] then path else slashless path

def hasSlash (path : List Char) : Bool := path ≠ ['/'] && path.getLast? = some '/'

/-- The path of an operation below a prefix (`Operation::nest`). -/
def nestPath (pre path : List Char) : List Char := pre.rdropWhile (· = '/') ++ path

def validateRoutePath (path : List Char) : Except String Unit :=
  if path = [] then .error "path cannot be empty"
  else if path.head? ≠ some '/' then .error "path must start with '/'"
  else if ['/', '/'] <:+: path then .error "path cannot contain '//'"
  else if '?' ∈ path ∨ '#' ∈ path then .error "path cannot contain a query or fragment"
  else .ok ()

def validateRoutePrefix (path : List Char) : Except String Unit := do
  validateRoutePath path
  if path = ['/'] then .error "prefix cannot be '/'"
  else if path.getLast? = some '/' then .error "prefix must not end with '/'"
  else .ok ()

/-- No slash follows a slash. -/
def Single (path : List Char) : Prop := path.IsChain fun a b => ¬ (a = '/' ∧ b = '/')

instance (path : List Char) : Decidable (Single path) := inferInstanceAs (Decidable (List.IsChain _ _))

/-- What `validateRoutePath` lets through. -/
structure RoutePath (path : List Char) : Prop where
  head : path.head? = some '/'
  single : Single path
  noQuery : '?' ∉ path
  noFragment : '#' ∉ path

/-- What `validateRoutePrefix` lets through. -/
structure RoutePrefix (path : List Char) : Prop extends RoutePath path where
  last : path.getLast? ≠ some '/'

theorem single_iff {path : List Char} : Single path ↔ ¬ ['/', '/'] <:+: path := by
  constructor
  · intro h hdouble
    have hpair := h.infix hdouble
    rw [List.isChain_pair] at hpair
    exact hpair ⟨rfl, rfl⟩
  · intro h
    induction path with
    | nil => exact .nil
    | cons a rest ih =>
      have hrest : Single rest := ih fun hdouble => h (hdouble.trans (List.suffix_cons a rest).isInfix)
      refine List.isChain_cons.mpr ⟨fun b hb hslashes => h ?_, hrest⟩
      obtain ⟨rfl, rfl⟩ := hslashes
      obtain ⟨tail, rfl⟩ := List.head?_eq_some_iff.mp hb
      exact ⟨[], tail, rfl⟩

theorem validateRoutePath_ok_iff {path : List Char} : validateRoutePath path = .ok () ↔ RoutePath path := by
  rw [validateRoutePath]
  split_ifs with hempty hhead hdouble hmarks
  · exact iff_of_false (fun h => by cases h) fun h => by cases hempty ▸ h.head
  · exact iff_of_false (fun h => by cases h) fun h => hhead h.head
  · exact iff_of_false (fun h => by cases h) fun h => single_iff.mp h.single hdouble
  · exact iff_of_false (fun h => by cases h) fun h => hmarks.elim h.noQuery h.noFragment
  · rw [not_or] at hmarks
    exact iff_of_true rfl ⟨not_not.mp hhead, single_iff.mpr hdouble, hmarks.1, hmarks.2⟩

theorem validateRoutePrefix_ok_iff {path : List Char} : validateRoutePrefix path = .ok () ↔ RoutePrefix path := by
  rw [validateRoutePrefix]
  cases hpath : validateRoutePath path with
  | error reason =>
    refine iff_of_false (fun h => by cases h) fun h => ?_
    rw [validateRoutePath_ok_iff.mpr h.toRoutePath] at hpath
    cases hpath
  | ok done =>
    have hroute : RoutePath path := validateRoutePath_ok_iff.mp hpath
    show (if path = ['/'] then _ else _) = Except.ok () ↔ _
    split_ifs with hroot hlast
    · refine iff_of_false (fun h => by cases h) fun h => h.last ?_
      rw [hroot]
      rfl
    · exact iff_of_false (fun h => by cases h) fun h => h.last hlast
    · exact iff_of_true rfl ⟨hroute, hlast⟩

theorem RoutePath.eq_cons {path : List Char} (h : RoutePath path) : ∃ rest, path = '/' :: rest :=
  List.head?_eq_some_iff.mp h.head

theorem RoutePath.ne_nil {path : List Char} (h : RoutePath path) : path ≠ [] := by
  obtain ⟨rest, rfl⟩ := h.eq_cons
  exact List.cons_ne_nil _ _

/-- Below the root a path keeps a character after its first slash. -/
theorem RoutePath.slashless_eq {path : List Char} (h : RoutePath path) (hroot : path ≠ ['/']) :
    ∃ c rest, slashless path = '/' :: c :: rest := by
  obtain ⟨tail, rfl⟩ := h.eq_cons
  cases tail with
  | nil => exact absurd rfl hroot
  | cons c rest =>
    rw [slashless]
    split_ifs with hlast
    · cases rest with
      | nil =>
        have hc : c = '/' := Option.some.inj hlast
        exact absurd ⟨rfl, hc⟩ (List.isChain_pair.mp h.single)
      | cons d rest => exact ⟨c, (d :: rest).dropLast, rfl⟩
    · exact ⟨c, rest, rfl⟩

theorem RoutePath.internalPath_eq_iff {path other : List Char} (h : RoutePath path) (hother : RoutePath other) :
    internalPath path = internalPath other ↔ slashless path = slashless other := by
  rw [internalPath, internalPath]
  split_ifs with hpath hroot hroot
  · exact iff_of_true (hpath.trans hroot.symm) (by rw [hpath, hroot])
  · obtain ⟨c, rest, heq⟩ := hother.slashless_eq hroot
    rw [hpath, heq]
    exact iff_of_false (fun h => by cases h) fun h => by cases h
  · obtain ⟨c, rest, heq⟩ := h.slashless_eq hpath
    rw [hroot, heq]
    exact iff_of_false (fun h => by cases h) fun h => by cases h
  · rfl

theorem RoutePrefix.nestPath_eq {pre : List Char} (h : RoutePrefix pre) (path : List Char) :
    nestPath pre path = pre ++ path := by
  rw [nestPath, List.rdropWhile_eq_self_iff.mpr]
  intro hne hlast
  refine h.last ?_
  rw [List.getLast?_eq_some_getLast hne, of_decide_eq_true hlast]

theorem slashless_append (pre : List Char) {path : List Char} (h : path ≠ []) :
    slashless (pre ++ path) = pre ++ slashless path := by
  rw [slashless, slashless, List.getLast?_append_of_ne_nil pre h, List.dropLast_append_of_ne_nil h]
  split_ifs <;> rfl

/-- A path stays one that can be registered below a prefix. -/
theorem RoutePath.nest {pre path : List Char} (h : RoutePath path) (hpre : RoutePrefix pre) :
    RoutePath (nestPath pre path) := by
  rw [hpre.nestPath_eq]
  refine ⟨?_, ?_, ?_, ?_⟩
  · rw [List.head?_append, hpre.head, Option.some_or]
  · refine List.isChain_append.mpr ⟨hpre.single, h.single, fun a ha b _ hslashes => hpre.last ?_⟩
    rw [Option.mem_def.mp ha, hslashes.1]
  · exact fun hmem => (List.mem_append.mp hmem).elim hpre.noQuery h.noQuery
  · exact fun hmem => (List.mem_append.mp hmem).elim hpre.noFragment h.noFragment

/-- Two paths have one place in the table below a prefix just when they have one without it. -/
theorem RoutePrefix.internalPath_nest_iff {pre path other : List Char} (hpre : RoutePrefix pre) (h : RoutePath path)
    (hother : RoutePath other) :
    internalPath (nestPath pre path) = internalPath (nestPath pre other) ↔ internalPath path = internalPath other := by
  rw [(h.nest hpre).internalPath_eq_iff (hother.nest hpre), h.internalPath_eq_iff hother, hpre.nestPath_eq,
    hpre.nestPath_eq, slashless_append pre h.ne_nil, slashless_append pre hother.ne_nil, List.append_cancel_left_eq]

/-! ### Operations -/

inductive OperationKind where
  | cron | periodic | pgNotify | signal | task | command | route | apiDoc | service | mcpTool
  deriving DecidableEq, Repr

/-- The identity an operation is given when it is created, a fresh UUID in the source. -/
abbrev OperationId := ℕ

structure Operation where
  id : OperationId
  name : List Char
  openapiId : Option (List Char)
  path : List Char
  kind : OperationKind
  methods : Methods
  hidden : Bool
  /-- Whether a slashful alternate may be normalized to this operation. -/
  trim : Bool
  deriving DecidableEq

namespace Operation

def nest (pre : List Char) (op : Operation) : Operation := { op with path := nestPath pre op.path }

def fromApiDoc (id : OperationId) (name path : List Char) : Operation where
  id := id
  name := name
  openapiId := none
  path := path
  kind := .apiDoc
  methods := .only .get
  hidden := true
  trim := true

/-- The operation of a callable, which bears its name. -/
def fromSpecs (id : OperationId) (kind : OperationKind) (callable : List Char) : Operation where
  id := id
  name := callable
  openapiId := some callable
  path := []
  kind := kind
  methods := .only .post
  hidden := false
  trim := true

@[simp] theorem nest_id (pre : List Char) (op : Operation) : (op.nest pre).id = op.id := rfl

@[simp] theorem nest_name (pre : List Char) (op : Operation) : (op.nest pre).name = op.name := rfl

@[simp] theorem nest_kind (pre : List Char) (op : Operation) : (op.nest pre).kind = op.kind := rfl

@[simp] theorem nest_methods (pre : List Char) (op : Operation) : (op.nest pre).methods = op.methods := rfl

end Operation

end Vyuh.Bundles
