import Vyuh.Bundles.Sound
import Vyuh.Lib.Step
import Mathlib

/-! The endpoints the framework mounts beside the routes of a bundle, and the checks that keep them apart
    (`site.rs`, `observability.rs`, `bundles/openapi.rs`, `mcp/engine.rs`). The checks read the operations alone, among
    which are ones that are never mounted; what is mounted is written down beside them here. A site passes the checks just when
    none of its mounts is rejected. -/

namespace Vyuh.Bundles

open Lib

/-! ### Observability paths -/

structure ConfError where
  field : String
  reason : List Char
  expected : Option String
  deriving DecidableEq

structure ObservabilityConf where
  enabled : Bool
  livenessPath : List Char
  readinessPath : List Char
  metricsPath : List Char
  readinessTimeoutMs : ℕ

namespace ObservabilityConf

def paths (conf : ObservabilityConf) : List (List Char) := [conf.livenessPath, conf.readinessPath, conf.metricsPath]

def validatePath (field : String) (path : List Char) : Option ConfError :=
  if path.head? ≠ some '/' ∨ path = ['/'] then
    some ⟨field, "must be an absolute non-root path".toList, some "a path such as /healthz"⟩
  else none

/-- The errors of the paths, and one more when two of them are equal as they are written. -/
def validatePaths (paths : List (String × List Char)) : List ConfError :=
  paths.filterMap (fun entry => validatePath entry.1 entry.2) ++
    (if (paths.map Prod.snd).Nodup then []
      else [⟨"observability", "probe and metrics paths must be distinct".toList, none⟩])

def validate (conf : ObservabilityConf) : List ConfError :=
  if conf.enabled then
    validatePaths [("observability.liveness_path", conf.livenessPath),
      ("observability.readiness_path", conf.readinessPath), ("observability.metrics_path", conf.metricsPath)] ++
    (if conf.readinessTimeoutMs = 0 then
      [⟨"observability.readiness_timeout_ms", "must be greater than zero".toList,
        some "a positive duration in milliseconds"⟩]
      else [])
  else []

end ObservabilityConf

/-! ### Checks -/

inductive SiteError
  | conf (error : ConfError)
  | docGen (reason : List Char)
  | mcp (reason : List Char)
  deriving DecidableEq

def samePath (path other : List Char) : Bool := internalPath path = internalPath other

/-- An operation stands in the way of an observability path. -/
def probeConflict (ops : List Operation) (path : List Char) : Bool := ops.any fun op => samePath op.path path

def validateObservabilityPaths (ops : List Operation) (conf : ObservabilityConf) : Except SiteError Unit :=
  if conf.enabled then
    forM conf.paths fun path =>
      if probeConflict ops path then
        .error (.conf ⟨"observability", "path ".toList ++ path ++ " conflicts with an application route".toList,
          some "a unique probe or metrics path"⟩)
      else .ok ()
  else .ok ()

def findOp (ops : List Operation) (id : OperationId) : Option Operation := ops.find? fun op => op.id = id

/-- Another operation answers `GET` at an OpenAPI endpoint. -/
def docConflict (ops : List Operation) (endpoint : Operation) (marker : OperationId) : Bool :=
  ops.any fun op => op.id ≠ marker && op.methods.contains (.only .get) && samePath op.path endpoint.path

def validateEndpointCollisions (markers : List OperationId) (ops : List Operation) : Except SiteError Unit :=
  forM markers fun marker =>
    match findOp ops marker with
    | none => .ok ()
    | some endpoint =>
      if docConflict ops endpoint marker then
        .error (.docGen ("OpenAPI endpoint conflicts with GET ".toList ++ endpoint.path))
      else .ok ()

/-- Another operation answers `GET` or `POST` at an MCP endpoint. -/
def mcpConflict (ops : List Operation) (endpoint : List Char) (marker : OperationId) : Bool :=
  ops.any fun op => op.id ≠ marker && samePath op.path endpoint &&
    (op.methods.contains (.only .post) || op.methods.contains (.only .get))

def configError (text : List Char) : List Char := "invalid MCP configuration: ".toList ++ text

def validateCollisions (ops : List Operation) (endpoint : List Char) (marker : OperationId) :
    Except (List Char) Unit :=
  if mcpConflict ops endpoint marker then
    .error (configError ("MCP endpoint conflicts with GET or POST ".toList ++ endpoint))
  else .ok ()

/-- An operation answers `GET` where the metadata of a protected resource goes. -/
def metadataConflict (ops : List Operation) (path : List Char) : Bool :=
  ops.any fun op => samePath op.path path && op.methods.contains (.only .get)

def validateWellKnown (ops : List Operation) (path : List Char) : Except (List Char) Unit :=
  if metadataConflict ops path then
    .error (configError ("protected resource metadata conflicts with GET ".toList ++ path))
  else .ok ()

def wellKnown : List Char := "/.well-known/oauth-protected-resource".toList

def protectedResourcePath (endpoint : List Char) : List Char := wellKnown ++ endpoint.rdropWhile (· = '/')

/-- What `validate_nodes` gathers from node to node. -/
structure NodeErrors where
  endpoints : List (List Char)
  resources : List (List Char)
  errors : List (List Char)

def duplicateEndpoint (endpoint : List Char) : List Char := "duplicate MCP endpoint '".toList ++ endpoint ++ ['\'']

def duplicateResource (endpoint : List Char) : List Char :=
  "duplicate MCP resource URL '".toList ++ endpoint ++ ['\'']

/-- The error of a failed check, if there is one (`collect_validation`). -/
def collectValidation (result : Except (List Char) Unit) : List (List Char) :=
  match result with
  | .error error => [error]
  | .ok () => []

/-- An error when a path was inserted before. -/
def insertionError (seen : List (List Char)) (path error : List Char) : List (List Char) :=
  if path ∈ seen then [error] else []

def validateNodeCollisions (ops : List Operation) (state : NodeErrors) (marker : OperationId) : NodeErrors :=
  match findOp ops marker with
  | none => { state with errors := state.errors ++ ["MCP endpoint marker is missing".toList] }
  | some op =>
    { endpoints := state.endpoints ++ [internalPath op.path]
      resources := state.resources ++ [internalPath op.path]
      errors := state.errors ++ collectValidation (validateCollisions ops op.path marker) ++
        insertionError state.endpoints (internalPath op.path) (duplicateEndpoint op.path) ++
        insertionError state.resources (internalPath op.path) (duplicateResource op.path) }

def validateNodes (markers : List OperationId) (ops : List Operation) : Except (List Char) Unit :=
  match (markers.foldl (validateNodeCollisions ops) ⟨[], [], []⟩).errors with
  | [] => .ok ()
  | errors => .error (configError ("; ".toList.intercalate errors))

/-- The checks of one MCP node as it is set up. -/
def validateNode (ops : List Operation) (isProtected : OperationId → Bool) (marker : OperationId) :
    Except (List Char) Unit :=
  match findOp ops marker with
  | none => .error (configError "MCP endpoint marker is missing".toList)
  | some op => do
    validateCollisions ops op.path marker
    if isProtected marker then validateWellKnown ops (protectedResourcePath op.path) else .ok ()

/-- What the endpoint checks of a site read: the composed bundle, the observability paths, and the MCP endpoints whose
    audience is a protected resource of the authenticator. -/
structure Assembly where
  bundle : Bundle
  observability : ObservabilityConf
  isProtected : OperationId → Bool

/-- The checks in the order in which a site is built. -/
def Assembly.checkEndpoints (site : Assembly) : Except SiteError Unit := do
  validateObservabilityPaths site.bundle.ops site.observability
  validateEndpointCollisions site.bundle.docMarkers site.bundle.ops
  (validateNodes site.bundle.mcpMarkers site.bundle.ops).mapError .mcp
  forM site.bundle.mcpMarkers fun marker => (validateNode site.bundle.ops site.isProtected marker).mapError .mcp

/-! ### What is mounted -/

/-- Something the router serves. -/
inductive Mount
  | route (op : Operation)
  | probe (index : ℕ) (path : List Char)
  | openapi (op : Operation)
  | mcp (op : Operation)
  | metadata (op : Operation)

namespace Mount

def path : Mount → List Char
  | .route op => op.path
  | .probe _ path => path
  | .openapi op => op.path
  | .mcp op => op.path
  | .metadata op => protectedResourcePath op.path

def methods : Mount → Methods
  | .route op => op.methods
  | .probe _ _ => .only .get
  | .openapi _ => .only .get
  | .mcp _ => (Methods.only .post).or (.only .get)
  | .metadata _ => .only .get

/-- An MCP endpoint owns its metadata. -/
def owner : Mount → OperationId ⊕ ℕ
  | .route op => .inl op.id
  | .probe index _ => .inr index
  | .openapi op => .inl op.id
  | .mcp op => .inl op.id
  | .metadata op => .inl op.id

def isRoute : Mount → Bool
  | .route _ => true
  | _ => false

/-- The check that is made for it fails. -/
def rejected (ops : List Operation) : Mount → Bool
  | .route _ => false
  | .probe _ path => probeConflict ops path
  | .openapi op => docConflict ops op op.id
  | .mcp op => mcpConflict ops op.path op.id
  | .metadata op => metadataConflict ops (protectedResourcePath op.path)

end Mount

namespace Assembly

variable (site : Assembly)

inductive Mounted : Mount → Prop
  | route {op : Operation} : op ∈ site.bundle.routes → Mounted (.route op)
  | probe {index : ℕ} {path : List Char} : site.observability.enabled = true →
    site.observability.paths[index]? = some path → Mounted (.probe index path)
  | openapi {op : Operation} : op ∈ site.bundle.ops → op.id ∈ site.bundle.docMarkers → Mounted (.openapi op)
  | mcp {op : Operation} : op ∈ site.bundle.ops → op.id ∈ site.bundle.mcpMarkers → Mounted (.mcp op)
  | metadata {op : Operation} : op ∈ site.bundle.ops → op.id ∈ site.bundle.mcpMarkers → site.isProtected op.id = true →
    Mounted (.metadata op)

/-- The check of something that the owner mounts fails. -/
def Rejects (owner : OperationId ⊕ ℕ) : Prop :=
  ∃ mount, site.Mounted mount ∧ mount.owner = owner ∧ mount.rejected site.bundle.ops = true

end Assembly

/-! ### Markers -/

namespace Bundle

variable {bundle : Bundle}

theorem Sound.eq_of_id (h : bundle.Sound) {op other : Operation} (hop : op ∈ bundle.ops) (hother : other ∈ bundle.ops)
    (hid : op.id = other.id) : op = other := List.inj_on_of_nodup_map h.ids hop hother hid

theorem Sound.findOp_eq_some (h : bundle.Sound) {op : Operation} (hop : op ∈ bundle.ops) :
    findOp bundle.ops op.id = some op := by
  rw [findOp]
  cases hfound : bundle.ops.find? fun other => other.id = op.id with
  | none => exact absurd (decide_eq_true rfl) (List.find?_eq_none.mp hfound op hop)
  | some other =>
    have hid : other.id = op.id := by simpa only [decide_eq_true_eq] using List.find?_some hfound
    rw [h.eq_of_id (List.mem_of_find?_eq_some hfound) hop hid]

theorem Sound.mem_markers_iff (h : bundle.Sound) {id : OperationId} {methods : Methods} :
    (id, methods) ∈ bundle.markers ↔
      id ∈ bundle.docMarkers ∧ methods = .only .get ∨ id ∈ bundle.mcpMarkers ∧ methods = .only .post := by
  rw [h.markers.mem_iff, List.mem_append, List.mem_map, List.mem_map]
  constructor
  · rintro (⟨marker, hmarker, heq⟩ | ⟨marker, hmarker, heq⟩)
    · cases heq
      exact .inl ⟨hmarker, rfl⟩
    · cases heq
      exact .inr ⟨hmarker, rfl⟩
  · rintro (⟨hmarker, rfl⟩ | ⟨hmarker, rfl⟩)
    · exact .inl ⟨id, hmarker, rfl⟩
    · exact .inr ⟨id, hmarker, rfl⟩

/-- The hidden operations are the markers, told apart by their methods. -/
theorem Sound.mem_markers (h : bundle.Sound) {op : Operation} (hop : op ∈ bundle.ops) {methods : Methods} :
    (op.id, methods) ∈ bundle.markers ↔ op.kind = .apiDoc ∧ op.methods = methods := by
  rw [Bundle.markers, List.mem_map]
  constructor
  · rintro ⟨other, hother, heq⟩
    rw [List.mem_filter, decide_eq_true_eq] at hother
    rw [Prod.mk.injEq] at heq
    rw [← h.eq_of_id hother.1 hop heq.1]
    exact ⟨hother.2, heq.2⟩
  · rintro ⟨hkind, rfl⟩
    exact ⟨op, List.mem_filter.mpr ⟨hop, decide_eq_true hkind⟩, rfl⟩

theorem get_ne_post : Methods.only .get ≠ .only .post := by decide

theorem Sound.mem_docMarkers_iff (h : bundle.Sound) {op : Operation} (hop : op ∈ bundle.ops) :
    op.id ∈ bundle.docMarkers ↔ op.kind = .apiDoc ∧ op.methods = .only .get := by
  rw [← h.mem_markers hop, h.mem_markers_iff, or_iff_left fun hmcp => get_ne_post hmcp.2, and_iff_left rfl]

theorem Sound.mem_mcpMarkers_iff (h : bundle.Sound) {op : Operation} (hop : op ∈ bundle.ops) :
    op.id ∈ bundle.mcpMarkers ↔ op.kind = .apiDoc ∧ op.methods = .only .post := by
  rw [← h.mem_markers hop, h.mem_markers_iff, or_iff_right fun hdoc => get_ne_post hdoc.2.symm, and_iff_left rfl]

theorem Sound.exists_docMarker (h : bundle.Sound) {id : OperationId} (hid : id ∈ bundle.docMarkers) :
    ∃ op ∈ bundle.ops, op.id = id := by
  obtain ⟨op, hop, heq⟩ := List.mem_map.mp (h.mem_markers_iff.mpr (.inl ⟨hid, rfl⟩))
  exact ⟨op, (List.mem_filter.mp hop).1, congrArg Prod.fst heq⟩

theorem Sound.exists_mcpMarker (h : bundle.Sound) {id : OperationId} (hid : id ∈ bundle.mcpMarkers) :
    ∃ op ∈ bundle.ops, op.id = id := by
  obtain ⟨op, hop, heq⟩ := List.mem_map.mp (h.mem_markers_iff.mpr (.inr ⟨hid, rfl⟩))
  exact ⟨op, (List.mem_filter.mp hop).1, congrArg Prod.fst heq⟩

theorem Sound.nodup_mcpMarkers (h : bundle.Sound) : bundle.mcpMarkers.Nodup := by
  have hmarkers : (bundle.markers.map Prod.fst).Nodup := by
    rw [Bundle.markers, List.map_map]
    exact h.ids.sublist (List.filter_sublist.map _)
  have hall := (h.markers.map Prod.fst).nodup_iff.mp hmarkers
  rw [List.map_append, List.map_map, List.map_map] at hall
  have hmcp := (List.nodup_append.mp hall).2.1
  rwa [show Prod.fst ∘ (fun id : OperationId => (id, Methods.only .post)) = id from rfl, List.map_id] at hmcp

end Bundle

/-! ### What each check finds -/

section Checks

variable {ops : List Operation} {path : List Char} {marker : OperationId}

theorem probeConflict_iff : probeConflict ops path = true ↔ ∃ op ∈ ops, internalPath op.path = internalPath path := by
  simp only [probeConflict, samePath, List.any_eq_true, decide_eq_true_eq]

theorem docConflict_iff {endpoint : Operation} : docConflict ops endpoint marker = true ↔
    ∃ op ∈ ops, op.id ≠ marker ∧ .get ∈ op.methods ∧ internalPath op.path = internalPath endpoint.path := by
  simp only [docConflict, samePath, List.any_eq_true, Bool.and_eq_true, decide_eq_true_eq, Methods.contains_only,
    and_assoc]

theorem mcpConflict_iff : mcpConflict ops path marker = true ↔
    ∃ op ∈ ops, op.id ≠ marker ∧ internalPath op.path = internalPath path ∧
      (.post ∈ op.methods ∨ .get ∈ op.methods) := by
  simp only [mcpConflict, samePath, List.any_eq_true, Bool.and_eq_true, Bool.or_eq_true, decide_eq_true_eq,
    Methods.contains_only, and_assoc]

theorem metadataConflict_iff : metadataConflict ops path = true ↔
    ∃ op ∈ ops, internalPath op.path = internalPath path ∧ .get ∈ op.methods := by
  simp only [metadataConflict, samePath, List.any_eq_true, Bool.and_eq_true, decide_eq_true_eq, Methods.contains_only]

end Checks

theorem validateObservabilityPaths_ok_iff {ops : List Operation} {conf : ObservabilityConf} :
    validateObservabilityPaths ops conf = .ok () ↔
      (conf.enabled = true → ∀ path ∈ conf.paths, probeConflict ops path = false) := by
  rw [validateObservabilityPaths]
  split
  · next henabled =>
    rw [Step.except_forM_ok, forall_prop_of_true henabled]
    refine forall₂_congr fun path _ => ?_
    rw [Step.except_check_ok, and_iff_left rfl, Bool.not_eq_true]
  · next hdisabled => exact iff_of_true rfl fun henabled => absurd henabled hdisabled

theorem validateEndpointCollisions_ok_iff {bundle : Bundle} (h : bundle.Sound) :
    validateEndpointCollisions bundle.docMarkers bundle.ops = .ok () ↔
      ∀ op ∈ bundle.ops, op.id ∈ bundle.docMarkers → docConflict bundle.ops op op.id = false := by
  rw [validateEndpointCollisions, Step.except_forM_ok]
  constructor
  · intro hall op hop hmarker
    have hcheck := hall op.id hmarker
    rw [h.findOp_eq_some hop] at hcheck
    exact Bool.not_eq_true _ ▸ (Step.except_check_ok.mp hcheck).1
  · intro hall marker hmarker
    obtain ⟨op, hop, rfl⟩ := h.exists_docMarker hmarker
    rw [h.findOp_eq_some hop]
    refine Step.except_check_ok.mpr ⟨?_, rfl⟩
    rw [Bool.not_eq_true]
    exact hall op hop hmarker

theorem validateCollisions_ok_iff {ops : List Operation} {endpoint : List Char} {marker : OperationId} :
    validateCollisions ops endpoint marker = .ok () ↔ mcpConflict ops endpoint marker = false := by
  rw [validateCollisions, Step.except_check_ok, and_iff_left rfl, Bool.not_eq_true]

theorem validateWellKnown_ok_iff {ops : List Operation} {path : List Char} :
    validateWellKnown ops path = .ok () ↔ metadataConflict ops path = false := by
  rw [validateWellKnown, Step.except_check_ok, and_iff_left rfl, Bool.not_eq_true]

theorem collectValidation_eq_nil {result : Except (List Char) Unit} :
    collectValidation result = [] ↔ result = .ok () := by
  cases result with
  | error error => exact iff_of_false (List.cons_ne_nil _ _) fun h => by cases h
  | ok done => exact iff_of_true rfl rfl

theorem insertionError_eq_nil {seen : List (List Char)} {path error : List Char} :
    insertionError seen path error = [] ↔ path ∉ seen := by
  rw [insertionError]
  split
  · next hmem => exact iff_of_false (List.cons_ne_nil _ _) (not_not.mpr hmem)
  · next hnew => exact iff_of_true rfl hnew

/-- What one node leaves behind: its path, and no error unless another operation or an earlier node has it. -/
theorem validateNodeCollisions_eq {bundle : Bundle} (h : bundle.Sound) {op : Operation} (hop : op ∈ bundle.ops)
    (state : NodeErrors) :
    (validateNodeCollisions bundle.ops state op.id).endpoints = state.endpoints ++ [internalPath op.path] ∧
    (validateNodeCollisions bundle.ops state op.id).resources = state.resources ++ [internalPath op.path] ∧
    ((validateNodeCollisions bundle.ops state op.id).errors = [] ↔ state.errors = [] ∧
      mcpConflict bundle.ops op.path op.id = false ∧ internalPath op.path ∉ state.endpoints ∧
      internalPath op.path ∉ state.resources) := by
  rw [validateNodeCollisions, h.findOp_eq_some hop]
  refine ⟨rfl, rfl, ?_⟩
  simp only [List.append_eq_nil_iff, collectValidation_eq_nil, insertionError_eq_nil, validateCollisions_ok_iff,
    and_assoc]

/-- The nodes pass together when each passes alone: a repeated endpoint is a collision already. -/
theorem foldl_validateNodeCollisions {bundle : Bundle} (h : bundle.Sound) {ops : List Operation}
    (hops : ∀ op ∈ ops, op ∈ bundle.ops ∧ .post ∈ op.methods) (hids : (ops.map Operation.id).Nodup) :
    ((ops.map Operation.id).foldl (validateNodeCollisions bundle.ops) ⟨[], [], []⟩).endpoints =
        ops.map (fun op => internalPath op.path) ∧
      ((ops.map Operation.id).foldl (validateNodeCollisions bundle.ops) ⟨[], [], []⟩).resources =
        ops.map (fun op => internalPath op.path) ∧
      (((ops.map Operation.id).foldl (validateNodeCollisions bundle.ops) ⟨[], [], []⟩).errors = [] ↔
        ∀ op ∈ ops, mcpConflict bundle.ops op.path op.id = false) := by
  induction ops using List.reverseRecOn with
  | nil => exact ⟨rfl, rfl, iff_of_true rfl fun op hop => by cases hop⟩
  | append_singleton ops last ih =>
    rw [List.map_append, List.nodup_append] at hids
    obtain ⟨hendpoints, hresources, herrors⟩ := ih (fun op hop => hops op (List.mem_append_left _ hop)) hids.1
    have hlast := hops last (List.mem_append_right _ (List.mem_singleton_self last))
    obtain ⟨hendpoints', hresources', herrors'⟩ := validateNodeCollisions_eq h hlast.1
      ((ops.map Operation.id).foldl (validateNodeCollisions bundle.ops) ⟨[], [], []⟩)
    rw [List.map_append, List.map_singleton, List.foldl_append, List.foldl_cons, List.foldl_nil, hendpoints',
      hresources', herrors', hendpoints, hresources, herrors, List.map_append, List.map_singleton]
    refine ⟨rfl, rfl, ?_⟩
    rw [List.forall_mem_append, List.forall_mem_singleton]
    refine and_congr_right fun _ => and_iff_left_of_imp fun hclear => ?_
    have hnew : internalPath last.path ∉ ops.map fun op => internalPath op.path := by
      intro hmem
      obtain ⟨op, hop, heq⟩ := List.mem_map.mp hmem
      have hop' := hops op (List.mem_append_left _ hop)
      have hne : op.id ≠ last.id :=
        hids.2.2 op.id (List.mem_map_of_mem hop) last.id (List.mem_singleton_self _)
      rw [mcpConflict_iff.mpr ⟨op, hop'.1, hne, heq, .inl hop'.2⟩] at hclear
      cases hclear
    exact ⟨hnew, hnew⟩

theorem exists_mcpOps {bundle : Bundle} (h : bundle.Sound) :
    ∃ ops : List Operation, ops.map Operation.id = bundle.mcpMarkers ∧
      ∀ op ∈ ops, op ∈ bundle.ops ∧ .post ∈ op.methods := by
  have hmarkers : bundle.mcpMarkers ∈
      Set.range (List.map fun op : { op : Operation // op ∈ bundle.ops ∧ .post ∈ op.methods } => op.1.id) := by
    rw [Set.range_list_map]
    intro marker hmarker
    obtain ⟨op, hop, rfl⟩ := h.exists_mcpMarker hmarker
    refine ⟨⟨op, hop, ?_⟩, rfl⟩
    rw [((h.mem_mcpMarkers_iff hop).mp hmarker).2]
    exact Methods.mem_only.mpr rfl
  obtain ⟨ops, hops⟩ := hmarkers
  refine ⟨ops.map Subtype.val, by rw [← hops, List.map_map]; rfl, fun op hop => ?_⟩
  obtain ⟨op, -, rfl⟩ := List.mem_map.mp hop
  exact op.2

theorem validateNodes_ok_iff {bundle : Bundle} (h : bundle.Sound) :
    validateNodes bundle.mcpMarkers bundle.ops = .ok () ↔
      ∀ op ∈ bundle.ops, op.id ∈ bundle.mcpMarkers → mcpConflict bundle.ops op.path op.id = false := by
  obtain ⟨ops, hids, hops⟩ := exists_mcpOps h
  have hnodup := h.nodup_mcpMarkers
  rw [← hids] at hnodup
  have hfold := (foldl_validateNodeCollisions h hops hnodup).2.2
  have hall : (∀ op ∈ ops, mcpConflict bundle.ops op.path op.id = false) ↔
      ∀ op ∈ bundle.ops, op.id ∈ bundle.mcpMarkers → mcpConflict bundle.ops op.path op.id = false := by
    rw [← hids]
    constructor
    · intro hclear op hop hmarker
      obtain ⟨other, hother, hid⟩ := List.mem_map.mp hmarker
      rw [← h.eq_of_id (hops other hother).1 hop hid]
      exact hclear other hother
    · exact fun hclear op hop => hclear op (hops op hop).1 (List.mem_map_of_mem hop)
  rw [← hall, ← hfold, hids, validateNodes]
  split
  · next herrors => exact iff_of_true rfl herrors
  · next herrors => exact iff_of_false (fun h => by cases h) herrors

theorem validateNode_ok_iff {bundle : Bundle} (h : bundle.Sound) (isProtected : OperationId → Bool) {op : Operation}
    (hop : op ∈ bundle.ops) :
    validateNode bundle.ops isProtected op.id = .ok () ↔ mcpConflict bundle.ops op.path op.id = false ∧
      (isProtected op.id = true → metadataConflict bundle.ops (protectedResourcePath op.path) = false) := by
  rw [validateNode, h.findOp_eq_some hop]
  dsimp only
  rw [Step.except_bind_ok]
  have hwellKnown : (if isProtected op.id = true then
      validateWellKnown bundle.ops (protectedResourcePath op.path) else .ok ()) = .ok () ↔
      (isProtected op.id = true → metadataConflict bundle.ops (protectedResourcePath op.path) = false) := by
    split
    · next hprotected => rw [validateWellKnown_ok_iff, forall_prop_of_true hprotected]
    · next hopen => exact iff_of_true rfl fun hprotected => absurd hprotected hopen
  rw [hwellKnown]
  constructor
  · rintro ⟨done, hcollisions, hmetadata⟩
    exact ⟨validateCollisions_ok_iff.mp hcollisions, hmetadata⟩
  · rintro ⟨hcollisions, hmetadata⟩
    exact ⟨(), validateCollisions_ok_iff.mpr hcollisions, hmetadata⟩

theorem mapError_ok_iff {ε ε' α : Type} {f : ε → ε'} {result : Except ε α} {a : α} :
    result.mapError f = .ok a ↔ result = .ok a := by
  cases result with
  | error error => exact iff_of_false (fun h => by cases h) fun h => by cases h
  | ok b => exact iff_of_eq (by rw [Except.mapError, Except.ok.injEq, Except.ok.injEq])

/-- A site passes the checks just when none of its mounts is rejected. -/
theorem Assembly.checkEndpoints_ok_iff {site : Assembly} (h : site.bundle.Sound) :
    site.checkEndpoints = .ok () ↔ ∀ mount, site.Mounted mount → mount.rejected site.bundle.ops = false := by
  rw [Assembly.checkEndpoints]
  simp only [Step.except_bind_ok, Step.except_forM_ok, mapError_ok_iff]
  constructor
  · rintro ⟨probed, hprobes, documented, hdocs, listed, hnodes, hnode⟩ mount hmount
    cases hmount with
    | route hop => rfl
    | probe henabled hpath => exact validateObservabilityPaths_ok_iff.mp hprobes henabled _ (List.mem_of_getElem? hpath)
    | openapi hop hmarker => exact (validateEndpointCollisions_ok_iff h).mp hdocs _ hop hmarker
    | mcp hop hmarker => exact (validateNodes_ok_iff h).mp hnodes _ hop hmarker
    | metadata hop hmarker hprotected => exact ((validateNode_ok_iff h _ hop).mp (hnode _ hmarker)).2 hprotected
  · intro hall
    refine ⟨(), validateObservabilityPaths_ok_iff.mpr fun henabled path hpath => ?_, (),
      (validateEndpointCollisions_ok_iff h).mpr fun op hop hmarker => hall _ (.openapi hop hmarker), (),
      (validateNodes_ok_iff h).mpr fun op hop hmarker => hall _ (.mcp hop hmarker), fun marker hmarker => ?_⟩
    · obtain ⟨index, hindex⟩ := List.getElem?_of_mem hpath
      exact hall _ (.probe henabled hindex)
    · obtain ⟨op, hop, rfl⟩ := h.exists_mcpMarker hmarker
      exact (validateNode_ok_iff h site.isProtected hop).mpr ⟨hall _ (.mcp hop hmarker), fun hprotected =>
        hall _ (.metadata hop hmarker hprotected)⟩

end Vyuh.Bundles
