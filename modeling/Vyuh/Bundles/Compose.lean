import Vyuh.Auth.Identity
import Vyuh.Bundles.Operation
import Mathlib

/-! Composition of bundles (`bundles/mod.rs`, `bundles/part.rs`): parts are added, bundles are merged and put below
    prefixes, OpenAPI and MCP endpoints leave hidden markers among the operations. Errors are gathered on the way; what
    a step does when it adds none is stated after the steps. -/

namespace Vyuh.Bundles

inductive BundleError
  | invalidRoutePath (name path : List Char) (reason : String)
  | invalidRouteName (name : List Char) (reason : String)
  | invalidRoutePrefix (pre : List Char) (reason : String)
  | duplicateRouteName (name : List Char)
  | duplicateRoutePathMethod (path methods : List Char)
  | mcp (reason : String)
  /-- The error of a registry that is no part of this model: signals, emitters, tasks, services, commands, migrations
      and MCP resources. -/
  | registry (reason : String)
  deriving DecidableEq

/-- An OpenAPI registration: the markers of its spec and of its viewer. -/
structure DocNode where
  specOpId : OperationId
  docOpId : Option OperationId
  deriving DecidableEq

/-- An MCP registration. -/
structure McpNode where
  markerId : OperationId
  deriving DecidableEq

/-- The paths of the router, each with the methods that a registration serves there. -/
abbrev Table := List (List Char × Methods)

structure Bundle where
  innerRouter : Table
  ops : List Operation
  nameIndex : List (List Char × OperationId)
  docNodes : List DocNode
  mcpNodes : List McpNode
  errors : List BundleError
  deriving DecidableEq

namespace Bundle

def new : Bundle := ⟨[], [], [], [], [], []⟩

/-- The operations that are HTTP routes. -/
def routes (bundle : Bundle) : List Operation := bundle.ops.filter fun op => op.kind = .route

/-- The routes in the order of their identifiers, in which the map of operations yields them. -/
def routesById (bundle : Bundle) : List Operation := bundle.routes.insertionSort fun op other => op.id ≤ other.id

/-- The names of the routes in their own order. -/
def names (bundle : Bundle) : List (List Char) := (bundle.nameIndex.map (·.1)).insertionSort (· ≤ ·)

def pushError (bundle : Bundle) (error : BundleError) : Bundle := { bundle with errors := bundle.errors ++ [error] }

/-! ### Routes -/

/-- A registered operation with the path and a method of this one. -/
def collides (op existing : Operation) : Bool :=
  internalPath existing.path = internalPath op.path && existing.methods.intersects op.methods

def findRouteCollision (bundle : Bundle) (op : Operation) : Option (List Char × List Char) :=
  (bundle.routesById.find? (collides op)).map fun existing =>
    (op.path, ['|'].intercalate
      ((existing.methods.toVec.filter fun method => method ∈ op.methods.toVec).map Method.name))

def containsName (bundle : Bundle) (name : List Char) : Bool := bundle.nameIndex.any fun entry => entry.1 = name

def validateRouteOperation (bundle : Bundle) (op : Operation) : Except BundleError Unit :=
  if op.name.all Auth.isWhiteSpace then .error (.invalidRouteName op.name "route name cannot be empty")
  else
    match validateRoutePath op.path with
    | .error reason => .error (.invalidRoutePath op.name op.path reason)
    | .ok () =>
      if !op.trim && op.path.getLast? = some '/' then
        .error (.invalidRoutePath op.name op.path "trim = false requires a slashless route path")
      else if bundle.containsName op.name then .error (.duplicateRouteName op.name)
      else
        match bundle.findRouteCollision op with
        | some (path, methods) => .error (.duplicateRoutePathMethod path methods)
        | none => .ok ()

/-- Puts a route into the router and among the operations. -/
def insertRoute (bundle : Bundle) (op : Operation) : Bundle :=
  { bundle with
    innerRouter := bundle.innerRouter ++ [(internalPath op.path, op.methods)]
    ops := bundle.ops ++ [op]
    nameIndex := bundle.nameIndex ++ [(op.name, op.id)] }

def registerRoute (bundle : Bundle) (op : Operation) : Bundle :=
  match bundle.validateRouteOperation op with
  | .error error => bundle.pushError error
  | .ok () => bundle.insertRoute op

end Bundle

/-! ### Parts -/

structure RouteConf where
  name : List Char
  methods : Methods
  path : List Char
  trim : Bool

structure BeaconConf where
  name : List Char
  path : List Char
  trim : Bool

/-- What a patch may change of an operation's names. -/
structure PatchOp where
  name : Option (List Char)
  operationId : Option (List Char)

def PatchOp.apply (patch : PatchOp) (op : Operation) : Operation :=
  { op with name := patch.name.getD op.name, openapiId := patch.operationId.or op.openapiId }

/-- A piece of a bundle. `refused` is the error of the registry the piece goes to, when that is no part of this
    model. -/
inductive BundlePart
  | route (handler : List Char) (conf : RouteConf) (patch : PatchOp)
  | beacon (conf : BeaconConf) (patch : PatchOp)
  /-- An emitter, a signal, a task, a command, a service or an MCP tool. -/
  | callable (kind : OperationKind) (unmounted : kind ≠ .route ∧ kind ≠ .apiDoc) (name : List Char) (patch : PatchOp)
      (refused : Option BundleError)
  /-- A part without an operation: assets, URLs, migrations, MCP resources, or the error of a part that could not be
      made. -/
  | declaration (refused : Option BundleError)

/-- The operation of a route part (`route`). -/
def routeOperation (id : OperationId) (handler : List Char) (conf : RouteConf) : Operation :=
  { Operation.fromSpecs id .route handler with
    path := conf.path, name := conf.name, methods := conf.methods, trim := conf.trim }

/-- The operation of a beacon part (`beacon`). -/
def beaconOperation (id : OperationId) (conf : BeaconConf) : Operation :=
  { Operation.fromApiDoc id conf.name conf.path with
    kind := .route, hidden := false, openapiId := some conf.name, trim := conf.trim }

namespace Bundle

def pushRefusal (bundle : Bundle) (refused : Option BundleError) : Bundle :=
  { bundle with errors := bundle.errors ++ refused.toList }

def insertOp (bundle : Bundle) (op : Operation) : Bundle := { bundle with ops := bundle.ops ++ [op] }

def addPart (bundle : Bundle) (id : OperationId) : BundlePart → Bundle
  | .route handler conf patch => bundle.registerRoute (patch.apply (routeOperation id handler conf))
  | .beacon conf patch => bundle.registerRoute (patch.apply (beaconOperation id conf))
  | .callable kind _ name patch refused =>
    (bundle.insertOp (patch.apply (.fromSpecs id kind name))).pushRefusal refused
  | .declaration refused => bundle.pushRefusal refused

/-! ### Endpoints -/

structure OpenApiConf where
  specPath : List Char
  viewer : Option (List Char)

/-- Leaves the markers of an OpenAPI spec and its viewer. -/
def registerOpenapi (bundle : Bundle) (specId docId : OperationId) (conf : OpenApiConf) : Bundle :=
  let spec := Operation.fromApiDoc specId ("__spec__".toList ++ conf.specPath) conf.specPath
  let viewer := conf.viewer.map fun path => Operation.fromApiDoc docId ("__doc__".toList ++ path) path
  { bundle with
    ops := bundle.ops ++ spec :: viewer.toList
    docNodes := bundle.docNodes ++ [⟨specId, viewer.map Operation.id⟩] }

structure McpConf where
  endpoint : List Char
  errors : List String

def McpConf.validate (conf : McpConf) : List String :=
  conf.errors ++
    (match validateRoutePath conf.endpoint with
      | .error reason => ["invalid endpoint: " ++ reason]
      | .ok () => []) ++
    (if conf.endpoint = ['/'] then ["endpoint cannot be the root path"] else [])

/-- Leaves the marker of an MCP endpoint. -/
def insertMcp (bundle : Bundle) (id : OperationId) (conf : McpConf) : Bundle :=
  { bundle with
    ops := bundle.ops ++ [{ Operation.fromApiDoc id ("__mcp__".toList ++ conf.endpoint) conf.endpoint with
      methods := .only .post }]
    mcpNodes := bundle.mcpNodes ++ [⟨id⟩] }

def registerMcp (bundle : Bundle) (id : OperationId) (conf : McpConf) : Bundle :=
  match conf.validate with
  | [] => bundle.insertMcp id conf
  | errors => bundle.pushError (.mcp ("invalid MCP configuration: " ++ "; ".intercalate errors))

/-! ### Merging and prefixing -/

/-- Takes over what another bundle holds, all but its router, which is returned. `registries` and `resources` are the
    errors of merging what is no part of this model. -/
def absorb (bundle other : Bundle) (registries resources : Option BundleError) : Except BundleError Table × Bundle :=
  let bundle := { bundle with errors := bundle.errors ++ other.errors }
  match other.names.find? bundle.containsName with
  | some name => (.error (.duplicateRouteName name), bundle)
  | none =>
    match other.routesById.findSome? bundle.findRouteCollision with
    | some (path, methods) => (.error (.duplicateRoutePathMethod path methods), bundle)
    | none =>
      let bundle := { bundle with ops := bundle.ops ++ other.ops, nameIndex := bundle.nameIndex ++ other.nameIndex }
      match registries with
      | some error => (.error error, bundle)
      | none =>
        let bundle := { bundle with
          docNodes := bundle.docNodes ++ other.docNodes, mcpNodes := bundle.mcpNodes ++ other.mcpNodes }
        match resources with
        | some error => (.error error, bundle)
        | none => (.ok other.innerRouter, bundle)

def merge (bundle other : Bundle) (registries resources : Option BundleError) : Bundle :=
  match bundle.absorb other registries resources with
  | (.error error, bundle) => bundle.pushError error
  | (.ok router, bundle) => { bundle with innerRouter := bundle.innerRouter ++ router }

/-- The path of a nested route in the router: a nested root is the prefix itself. -/
def nestEntry (pre : List Char) (entry : List Char × Methods) : List Char × Methods :=
  (if entry.1 = ['/'] then pre else pre ++ entry.1, entry.2)

/-- The bundle below a prefix. -/
def nested (bundle : Bundle) (pre : List Char) : Bundle :=
  { bundle with
    ops := bundle.ops.map (Operation.nest pre)
    innerRouter := bundle.innerRouter.map (nestEntry pre) }

def withPrefix (bundle : Bundle) (pre : List Char) : Bundle :=
  match validateRoutePrefix pre with
  | .error reason => bundle.pushError (.invalidRoutePrefix pre reason)
  | .ok () => bundle.nested pre

/-! ### Error-free steps -/

/-- What lets a route in. -/
structure Accepts (bundle : Bundle) (op : Operation) : Prop where
  named : op.name.all Auth.isWhiteSpace = false
  path : RoutePath op.path
  slash : op.trim = false → op.path.getLast? ≠ some '/'
  fresh : bundle.containsName op.name = false
  apart : ∀ existing ∈ bundle.routes, collides op existing = false

@[simp] theorem mem_routesById {bundle : Bundle} {op : Operation} : op ∈ bundle.routesById ↔ op ∈ bundle.routes :=
  List.mem_insertionSort _

theorem mem_names {bundle : Bundle} {entry : List Char × OperationId} (h : entry ∈ bundle.nameIndex) :
    entry.1 ∈ bundle.names :=
  (List.mem_insertionSort _).mpr (List.mem_map_of_mem h)

theorem findRouteCollision_eq_none {bundle : Bundle} {op : Operation} :
    bundle.findRouteCollision op = none ↔ ∀ existing ∈ bundle.routes, collides op existing = false := by
  simp only [findRouteCollision, Option.map_eq_none_iff, List.find?_eq_none, Bool.not_eq_true, mem_routesById]

theorem validateRouteOperation_ok_iff {bundle : Bundle} {op : Operation} :
    bundle.validateRouteOperation op = .ok () ↔ bundle.Accepts op := by
  rw [validateRouteOperation]
  split
  · next hblank => exact iff_of_false (fun h => by cases h) fun h => by rw [h.named] at hblank; cases hblank
  · next hnamed =>
    split
    · next reason hpath =>
      refine iff_of_false (fun h => by cases h) fun h => ?_
      rw [validateRoutePath_ok_iff.mpr h.path] at hpath
      cases hpath
    · next hpath =>
      split
      · next hslash =>
        rw [Bool.and_eq_true, Bool.not_eq_true', decide_eq_true_eq] at hslash
        exact iff_of_false (fun h => by cases h) fun h => h.slash hslash.1 hslash.2
      · next hslash =>
        rw [Bool.and_eq_true, Bool.not_eq_true', decide_eq_true_eq, not_and] at hslash
        split
        · next hname => exact iff_of_false (fun h => by cases h) fun h => by rw [h.fresh] at hname; cases hname
        · next hname =>
          split
          · next hcollision =>
            refine iff_of_false (fun h => by cases h) fun h => ?_
            rw [findRouteCollision_eq_none.mpr h.apart] at hcollision
            cases hcollision
          · next hcollision =>
            exact iff_of_true rfl ⟨Bool.not_eq_true _ ▸ hnamed, validateRoutePath_ok_iff.mp hpath, hslash,
              Bool.not_eq_true _ ▸ hname, findRouteCollision_eq_none.mp hcollision⟩

theorem pushError_errors_ne_nil (bundle : Bundle) (error : BundleError) : (bundle.pushError error).errors ≠ [] :=
  List.append_ne_nil_of_right_ne_nil _ (List.cons_ne_nil _ _)

theorem registerRoute_of_errors {bundle : Bundle} {op : Operation} (h : (bundle.registerRoute op).errors = []) :
    bundle.errors = [] ∧ bundle.Accepts op ∧ bundle.registerRoute op = bundle.insertRoute op := by
  cases hvalid : bundle.validateRouteOperation op with
  | error error =>
    rw [registerRoute, hvalid] at h
    exact absurd h (pushError_errors_ne_nil _ _)
  | ok done =>
    have heq : bundle.registerRoute op = bundle.insertRoute op := by rw [registerRoute, hvalid]
    rw [heq] at h
    exact ⟨h, validateRouteOperation_ok_iff.mp hvalid, heq⟩

theorem pushRefusal_of_errors {bundle : Bundle} {refused : Option BundleError}
    (h : (bundle.pushRefusal refused).errors = []) : bundle.errors = [] ∧ bundle.pushRefusal refused = bundle := by
  obtain ⟨herrors, hrefused⟩ := List.append_eq_nil_iff.mp h
  refine ⟨herrors, ?_⟩
  rw [pushRefusal, hrefused, List.append_nil]

theorem routePath_of_validate {conf : McpConf} (h : conf.validate = []) : RoutePath conf.endpoint := by
  rw [McpConf.validate, List.append_eq_nil_iff, List.append_eq_nil_iff] at h
  cases hpath : validateRoutePath conf.endpoint with
  | error reason =>
    rw [hpath] at h
    cases h.1.2
  | ok done => exact validateRoutePath_ok_iff.mp hpath

theorem registerMcp_of_errors {bundle : Bundle} {id : OperationId} {conf : McpConf}
    (h : (bundle.registerMcp id conf).errors = []) :
    bundle.errors = [] ∧ RoutePath conf.endpoint ∧ bundle.registerMcp id conf = bundle.insertMcp id conf := by
  cases hvalid : conf.validate with
  | nil =>
    have heq : bundle.registerMcp id conf = bundle.insertMcp id conf := by rw [registerMcp, hvalid]
    rw [heq] at h
    exact ⟨h, routePath_of_validate hvalid, heq⟩
  | cons error errors =>
    rw [registerMcp, hvalid] at h
    exact absurd h (pushError_errors_ne_nil _ _)

/-- Two bundles that do not meet, as one. -/
def join (bundle other : Bundle) : Bundle where
  innerRouter := bundle.innerRouter ++ other.innerRouter
  ops := bundle.ops ++ other.ops
  nameIndex := bundle.nameIndex ++ other.nameIndex
  docNodes := bundle.docNodes ++ other.docNodes
  mcpNodes := bundle.mcpNodes ++ other.mcpNodes
  errors := bundle.errors ++ other.errors

/-- What lets another bundle in. -/
structure Admits (bundle other : Bundle) : Prop where
  fresh : ∀ entry ∈ other.nameIndex, bundle.containsName entry.1 = false
  apart : ∀ op ∈ other.routes, ∀ existing ∈ bundle.routes, collides op existing = false

theorem absorb_of_ok {bundle other bundle' : Bundle} {registries resources : Option BundleError} {router : Table}
    (h : bundle.absorb other registries resources = (.ok router, bundle')) :
    bundle.Admits other ∧ router = other.innerRouter ∧
      bundle' = { bundle.join other with innerRouter := bundle.innerRouter } := by
  dsimp only [absorb] at h
  split at h
  · cases h
  · next hnames =>
    split at h
    · cases h
    · next hcollisions =>
      split at h
      · cases h
      · split at h
        · cases h
        · cases h
          refine ⟨⟨fun entry hentry => ?_, fun op hop => ?_⟩, rfl, rfl⟩
          · exact Bool.not_eq_true _ ▸ List.find?_eq_none.mp hnames entry.1 (mem_names hentry)
          · exact findRouteCollision_eq_none.mp (List.findSome?_eq_none_iff.mp hcollisions op (mem_routesById.mpr hop))

theorem merge_of_errors {bundle other : Bundle} {registries resources : Option BundleError}
    (h : (bundle.merge other registries resources).errors = []) :
    bundle.errors = [] ∧ other.errors = [] ∧ bundle.Admits other ∧
      bundle.merge other registries resources = bundle.join other := by
  rcases habsorb : bundle.absorb other registries resources with ⟨result, bundle'⟩
  cases result with
  | error error =>
    rw [merge, habsorb] at h
    exact absurd h (pushError_errors_ne_nil _ _)
  | ok router =>
    obtain ⟨hadmits, rfl, rfl⟩ := absorb_of_ok habsorb
    have heq : bundle.merge other registries resources = bundle.join other := by rw [merge, habsorb]; rfl
    rw [heq] at h
    obtain ⟨hown, hother⟩ := List.append_eq_nil_iff.mp h
    exact ⟨hown, hother, hadmits, heq⟩

theorem withPrefix_of_errors {bundle : Bundle} {pre : List Char} (h : (bundle.withPrefix pre).errors = []) :
    bundle.errors = [] ∧ RoutePrefix pre ∧ bundle.withPrefix pre = bundle.nested pre := by
  cases hvalid : validateRoutePrefix pre with
  | error reason =>
    rw [withPrefix, hvalid] at h
    exact absurd h (pushError_errors_ne_nil _ _)
  | ok done =>
    have heq : bundle.withPrefix pre = bundle.nested pre := by rw [withPrefix, hvalid]
    rw [heq] at h
    exact ⟨h, validateRoutePrefix_ok_iff.mp hvalid, heq⟩

end Bundle

end Vyuh.Bundles
