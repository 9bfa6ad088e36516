import Vyuh.Bundles.Compose
import Mathlib

/-! What a bundle composed without an error keeps over every order of parts, merges, prefixes and endpoints: its routes
    have names and places of their own, and its hidden operations are the markers of its endpoints. -/

namespace Vyuh.Bundles

namespace Bundle

/-! ### Compositions -/

/-- No operation has the identity yet. -/
def Fresh (bundle : Bundle) (id : OperationId) : Prop := ∀ op ∈ bundle.ops, op.id ≠ id

end Bundle

/-- Every bundle that can be composed. Identities are fresh when they are given out. -/
inductive Composed : Bundle → Prop
  | new : Composed .new
  | addPart {bundle : Bundle} {id : OperationId} (part : BundlePart) :
    Composed bundle → bundle.Fresh id → Composed (bundle.addPart id part)
  | openapi {bundle : Bundle} {specId docId : OperationId} (conf : Bundle.OpenApiConf) :
    Composed bundle → bundle.Fresh specId → bundle.Fresh docId → specId ≠ docId →
    Composed (bundle.registerOpenapi specId docId conf)
  | mcp {bundle : Bundle} {id : OperationId} (conf : Bundle.McpConf) :
    Composed bundle → bundle.Fresh id → Composed (bundle.registerMcp id conf)
  | merge {bundle other : Bundle} (registries resources : Option BundleError) :
    Composed bundle → Composed other → (∀ op ∈ other.ops, bundle.Fresh op.id) →
    Composed (bundle.merge other registries resources)
  | withPrefix {bundle : Bundle} (pre : List Char) : Composed bundle → Composed (bundle.withPrefix pre)

namespace Bundle

def docMarkers (bundle : Bundle) : List OperationId :=
  bundle.docNodes.flatMap fun node => node.specOpId :: node.docOpId.toList

def mcpMarkers (bundle : Bundle) : List OperationId := bundle.mcpNodes.map McpNode.markerId

/-- The hidden operations with the methods they claim. -/
def markers (bundle : Bundle) : List (OperationId × Methods) :=
  (bundle.ops.filter fun op => op.kind = .apiDoc).map fun op => (op.id, op.methods)

/-- What a composition without errors keeps. -/
structure Sound (bundle : Bundle) : Prop where
  ids : (bundle.ops.map Operation.id).Nodup
  names : bundle.nameIndex = bundle.routes.map fun op => (op.name, op.id)
  distinct : (bundle.routes.map Operation.name).Nodup
  paths : ∀ op ∈ bundle.routes, RoutePath op.path
  apart : bundle.routes.Pairwise fun existing op => collides op existing = false
  callables : ∀ op ∈ bundle.ops, op.kind ≠ .route → op.kind ≠ .apiDoc → op.methods = .only .post
  endpoints : ∀ op ∈ bundle.ops, op.kind = .apiDoc → op.methods = .only .post → RoutePath op.path
  markers : bundle.markers.Perm (bundle.docMarkers.map (·, Methods.only .get) ++ bundle.mcpMarkers.map (·, Methods.only .post))

theorem sound_new : Sound .new where
  ids := .nil
  names := rfl
  distinct := .nil
  paths op hop := by cases hop
  apart := .nil
  callables op hop := by cases hop
  endpoints op hop := by cases hop
  markers := .nil

theorem containsName_eq_false {bundle : Bundle} (h : bundle.Sound) {name : List Char} :
    bundle.containsName name = false ↔ name ∉ bundle.routes.map Operation.name := by
  rw [containsName, h.names, List.any_eq_false]
  simp only [List.mem_map, decide_eq_true_eq]
  constructor
  · rintro hnew ⟨op, hop, rfl⟩
    exact hnew _ ⟨op, hop, rfl⟩ rfl
  · rintro hnew entry ⟨op, hop, rfl⟩ heq
    exact hnew ⟨op, hop, heq⟩

theorem routes_join (bundle other : Bundle) : (bundle.join other).routes = bundle.routes ++ other.routes :=
  List.filter_append ..

theorem docMarkers_join (bundle other : Bundle) :
    (bundle.join other).docMarkers = bundle.docMarkers ++ other.docMarkers := List.flatMap_append

theorem mcpMarkers_join (bundle other : Bundle) :
    (bundle.join other).mcpMarkers = bundle.mcpMarkers ++ other.mcpMarkers := List.map_append

theorem markers_join (bundle other : Bundle) : (bundle.join other).markers = bundle.markers ++ other.markers := by
  rw [markers, join, List.filter_append, List.map_append, markers, markers]

/-- Two sound bundles, of which one admits the other, are sound as one. -/
theorem Sound.join {bundle other : Bundle} (h : bundle.Sound) (hother : other.Sound) (hadmits : bundle.Admits other)
    (hfresh : ∀ op ∈ other.ops, bundle.Fresh op.id) : (bundle.join other).Sound where
  ids := by
    rw [Bundle.join, List.map_append, List.nodup_append]
    refine ⟨h.ids, hother.ids, fun id hid id' hid' => ?_⟩
    obtain ⟨op, hop, rfl⟩ := List.mem_map.mp hid
    obtain ⟨op', hop', rfl⟩ := List.mem_map.mp hid'
    exact hfresh op' hop' op hop
  names := by rw [routes_join, List.map_append, ← h.names, ← hother.names, Bundle.join]
  distinct := by
    rw [routes_join, List.map_append, List.nodup_append]
    refine ⟨h.distinct, hother.distinct, fun name hname name' hname' heq => ?_⟩
    obtain ⟨op, hop, rfl⟩ := List.mem_map.mp hname'
    have hentry : (op.name, op.id) ∈ other.nameIndex := by
      rw [hother.names]
      exact List.mem_map.mpr ⟨op, hop, rfl⟩
    exact (containsName_eq_false h).mp (hadmits.fresh _ hentry) (heq ▸ hname)
  paths op hop := by
    rw [routes_join] at hop
    exact (List.mem_append.mp hop).elim (h.paths op) (hother.paths op)
  apart := by
    rw [routes_join, List.pairwise_append]
    exact ⟨h.apart, hother.apart, fun existing hexisting op hop => hadmits.apart op hop existing hexisting⟩
  callables op hop := (List.mem_append.mp hop).elim (h.callables op) (hother.callables op)
  endpoints op hop := (List.mem_append.mp hop).elim (h.endpoints op) (hother.endpoints op)
  markers := by
    rw [markers_join, docMarkers_join, mcpMarkers_join, List.map_append, List.map_append]
    refine (h.markers.append hother.markers).trans ?_
    rw [List.append_assoc, List.append_assoc]
    refine .append_left _ ?_
    rw [← List.append_assoc, ← List.append_assoc]
    exact .append_right _ List.perm_append_comm

/-! ### What each step adds -/

/-- A route and nothing else. -/
def ofRoute (op : Operation) : Bundle :=
  { new with innerRouter := [(internalPath op.path, op.methods)], ops := [op], nameIndex := [(op.name, op.id)] }

/-- An operation that is no route, and nothing else. -/
def ofCallable (op : Operation) : Bundle := { new with ops := [op] }

theorem insertRoute_eq_join (bundle : Bundle) (op : Operation) : bundle.insertRoute op = bundle.join (ofRoute op) := by
  simp only [insertRoute, join, ofRoute, new, List.append_nil]

theorem insertOp_eq_join (bundle : Bundle) (op : Operation) : bundle.insertOp op = bundle.join (ofCallable op) := by
  simp only [insertOp, join, ofCallable, new, List.append_nil]

theorem registerOpenapi_eq_join (bundle : Bundle) (specId docId : OperationId) (conf : OpenApiConf) :
    bundle.registerOpenapi specId docId conf = bundle.join (new.registerOpenapi specId docId conf) := by
  simp only [registerOpenapi, join, new, List.append_nil, List.nil_append]

theorem insertMcp_eq_join (bundle : Bundle) (id : OperationId) (conf : McpConf) :
    bundle.insertMcp id conf = bundle.join (new.insertMcp id conf) := by
  simp only [insertMcp, join, new, List.append_nil, List.nil_append]

theorem sound_ofRoute {op : Operation} (hkind : op.kind = .route) (hpath : RoutePath op.path) :
    (ofRoute op).Sound := by
  have hroutes : (ofRoute op).routes = [op] := List.filter_cons_of_pos (decide_eq_true hkind)
  have hmarkers : (ofRoute op).markers = [] := by
    rw [markers, ofRoute, List.filter_cons_of_neg (by simp [hkind])]
    rfl
  refine ⟨List.nodup_singleton _, ?_, ?_, ?_, ?_, ?_, ?_, ?_⟩
  · rw [hroutes]
    rfl
  · rw [hroutes]
    exact List.nodup_singleton _
  · rw [hroutes]
    intro op' hop'
    rwa [List.mem_singleton.mp hop']
  · rw [hroutes]
    exact List.pairwise_singleton _ _
  · intro op' hop' hroute
    rw [List.mem_singleton.mp hop'] at hroute
    exact absurd hkind hroute
  · intro op' hop' hdoc
    rw [List.mem_singleton.mp hop', hkind] at hdoc
    cases hdoc
  · rw [hmarkers]
    exact .nil

/-- A bundle whose operations are no routes, each with its marker. -/
theorem sound_of_routeless {bundle : Bundle} (hids : (bundle.ops.map Operation.id).Nodup)
    (hkinds : ∀ op ∈ bundle.ops, op.kind ≠ .route) (hnames : bundle.nameIndex = [])
    (hcallables : ∀ op ∈ bundle.ops, op.kind ≠ .apiDoc → op.methods = .only .post)
    (hendpoints : ∀ op ∈ bundle.ops, op.kind = .apiDoc → op.methods = .only .post → RoutePath op.path)
    (hmarkers : bundle.markers.Perm (bundle.docMarkers.map (·, Methods.only .get) ++ bundle.mcpMarkers.map (·, Methods.only .post))) :
    bundle.Sound := by
  have hroutes : bundle.routes = [] := List.filter_eq_nil_iff.mpr fun op hop => by simp [hkinds op hop]
  refine ⟨hids, ?_, ?_, ?_, ?_, fun op hop _ => hcallables op hop, hendpoints, hmarkers⟩
  · rw [hroutes, hnames]
    rfl
  · rw [hroutes]
    exact .nil
  · rw [hroutes]
    exact fun op hop => by cases hop
  · rw [hroutes]
    exact .nil

theorem sound_ofCallable {op : Operation} (hroute : op.kind ≠ .route) (hdoc : op.kind ≠ .apiDoc)
    (hmethods : op.methods = .only .post) : (ofCallable op).Sound := by
  refine sound_of_routeless (List.nodup_singleton _) ?_ rfl ?_ ?_ ?_
  · intro op' hop'
    rwa [List.mem_singleton.mp hop']
  · intro op' hop' _
    rwa [List.mem_singleton.mp hop']
  · intro op' hop' hkind
    rw [List.mem_singleton.mp hop'] at hkind
    exact absurd hkind hdoc
  · have hmarkers : (ofCallable op).markers = [] := by
      rw [markers, ofCallable, List.filter_cons_of_neg (by simp [hdoc])]
      rfl
    rw [hmarkers]
    exact .nil

theorem mem_openapi {specId docId : OperationId} {conf : OpenApiConf} {op : Operation}
    (h : op ∈ (new.registerOpenapi specId docId conf).ops) :
    op.kind = .apiDoc ∧ op.methods = .only .get ∧ (op.id = specId ∨ op.id = docId) := by
  rcases List.mem_cons.mp h with rfl | hviewer
  · exact ⟨rfl, rfl, .inl rfl⟩
  · obtain ⟨path, -, rfl⟩ := Option.map_eq_some_iff.mp (Option.mem_toList.mp hviewer)
    exact ⟨rfl, rfl, .inr rfl⟩

theorem sound_openapi {specId docId : OperationId} (hne : specId ≠ docId) (conf : OpenApiConf) :
    (new.registerOpenapi specId docId conf).Sound := by
  have hkind : ∀ op ∈ (new.registerOpenapi specId docId conf).ops, op.kind ≠ .route := fun op hop => by
    rw [(mem_openapi hop).1]
    exact OperationKind.noConfusion
  have hdoc : ∀ op ∈ (new.registerOpenapi specId docId conf).ops, op.kind ≠ .apiDoc → op.methods = .only .post :=
    fun op hop hkind => absurd (mem_openapi hop).1 hkind
  have hendpoint : ∀ op ∈ (new.registerOpenapi specId docId conf).ops, op.kind = .apiDoc → op.methods = .only .post →
      RoutePath op.path := fun op hop _ hpost => by
    rw [(mem_openapi hop).2.1] at hpost
    exact absurd hpost (by decide)
  rcases conf with ⟨specPath, _ | path⟩
  · exact sound_of_routeless (List.nodup_singleton _) hkind rfl hdoc hendpoint (.refl _)
  · exact sound_of_routeless (List.pairwise_pair.mpr hne) hkind rfl hdoc hendpoint (.refl _)

theorem sound_mcp (id : OperationId) {conf : McpConf} (hpath : RoutePath conf.endpoint) :
    (new.insertMcp id conf).Sound := by
  refine sound_of_routeless (List.nodup_singleton _) ?_ rfl ?_ ?_ (.refl _)
  · intro op hop
    obtain rfl := List.mem_singleton.mp hop
    exact OperationKind.noConfusion
  · intro op hop hkind
    obtain rfl := List.mem_singleton.mp hop
    exact absurd rfl hkind
  · intro op hop _ _
    obtain rfl := List.mem_singleton.mp hop
    exact hpath

theorem admits_of_routeless (bundle : Bundle) {other : Bundle} (hkinds : ∀ op ∈ other.ops, op.kind ≠ .route)
    (hnames : other.nameIndex = []) : bundle.Admits other := by
  refine ⟨fun entry hentry => ?_, fun op hop => ?_⟩
  · rw [hnames] at hentry
    cases hentry
  · rw [routes, List.mem_filter, decide_eq_true_eq] at hop
    exact absurd hop.2 (hkinds op hop.1)

theorem Accepts.admits {bundle : Bundle} {op : Operation} (h : bundle.Accepts op) : bundle.Admits (ofRoute op) := by
  refine ⟨fun entry hentry => ?_, fun op' hop' => ?_⟩
  · rw [List.mem_singleton.mp hentry]
    exact h.fresh
  · rw [List.mem_singleton.mp (List.mem_filter.mp hop').1]
    exact h.apart

theorem collides_nest {pre : List Char} (hpre : RoutePrefix pre) {op existing : Operation} (hop : RoutePath op.path)
    (hexisting : RoutePath existing.path) : collides (op.nest pre) (existing.nest pre) = collides op existing := by
  rw [collides, collides, Operation.nest_methods, Operation.nest_methods, Bool.eq_iff_iff, Bool.and_eq_true,
    Bool.and_eq_true, decide_eq_true_eq, decide_eq_true_eq]
  exact and_congr_left' (hpre.internalPath_nest_iff hexisting hop)

theorem routes_nested (bundle : Bundle) (pre : List Char) :
    (bundle.nested pre).routes = bundle.routes.map (Operation.nest pre) := List.filter_map

theorem markers_nested (bundle : Bundle) (pre : List Char) : (bundle.nested pre).markers = bundle.markers := by
  rw [markers, nested, List.filter_map, List.map_map]
  rfl

/-- A prefix moves the routes without bringing any two together. -/
theorem Sound.nested {bundle : Bundle} (h : bundle.Sound) {pre : List Char} (hpre : RoutePrefix pre) :
    (bundle.nested pre).Sound where
  ids := by
    rw [Bundle.nested, List.map_map]
    exact h.ids
  names := by
    rw [routes_nested, List.map_map]
    exact h.names
  distinct := by
    rw [routes_nested, List.map_map]
    exact h.distinct
  paths op hop := by
    rw [routes_nested] at hop
    obtain ⟨op, hmem, rfl⟩ := List.mem_map.mp hop
    exact (h.paths op hmem).nest hpre
  apart := by
    rw [routes_nested, List.pairwise_map]
    refine h.apart.imp_of_mem fun {existing op} hexisting hop hapart => ?_
    rwa [collides_nest hpre (h.paths op hop) (h.paths existing hexisting)]
  callables op hop := by
    obtain ⟨op, hmem, rfl⟩ := List.mem_map.mp hop
    exact h.callables op hmem
  endpoints op hop hkind hmethods := by
    obtain ⟨op, hmem, rfl⟩ := List.mem_map.mp hop
    exact (h.endpoints op hmem hkind hmethods).nest hpre
  markers := by
    rw [markers_nested]
    exact h.markers

theorem Sound.registerRoute {bundle : Bundle} (h : bundle.errors = [] → bundle.Sound) {op : Operation}
    (hkind : op.kind = .route) (hfresh : bundle.Fresh op.id) (herrors : (bundle.registerRoute op).errors = []) :
    (bundle.registerRoute op).Sound := by
  obtain ⟨hbefore, haccepts, heq⟩ := registerRoute_of_errors herrors
  rw [heq, insertRoute_eq_join]
  refine (h hbefore).join (sound_ofRoute hkind haccepts.path) haccepts.admits fun op' hop' => ?_
  rwa [List.mem_singleton.mp hop']

theorem Sound.addPart {bundle : Bundle} (h : bundle.errors = [] → bundle.Sound) {id : OperationId}
    (hfresh : bundle.Fresh id) (part : BundlePart) (herrors : (bundle.addPart id part).errors = []) :
    (bundle.addPart id part).Sound := by
  cases part with
  | route handler conf patch => exact registerRoute h rfl hfresh herrors
  | beacon conf patch => exact registerRoute h rfl hfresh herrors
  | callable kind unmounted name patch refused =>
    obtain ⟨hbefore, heq⟩ := pushRefusal_of_errors herrors
    rw [Bundle.addPart, heq, insertOp_eq_join]
    refine (h hbefore).join (sound_ofCallable unmounted.1 unmounted.2 rfl) (admits_of_routeless _ ?_ rfl) ?_
    · intro op hop
      rw [List.mem_singleton.mp hop]
      exact unmounted.1
    · intro op hop
      rwa [List.mem_singleton.mp hop]
  | declaration refused =>
    obtain ⟨hbefore, heq⟩ := pushRefusal_of_errors herrors
    rw [Bundle.addPart, heq]
    exact h hbefore

end Bundle

/-- A bundle composed without an error is sound. -/
theorem Composed.sound {bundle : Bundle} (h : Composed bundle) : bundle.errors = [] → bundle.Sound := by
  induction h with
  | new => exact fun _ => Bundle.sound_new
  | addPart part h hfresh ih => exact Bundle.Sound.addPart ih hfresh part
  | @openapi bundle specId docId conf h hspec hdoc hne ih =>
    intro herrors
    rw [Bundle.registerOpenapi_eq_join]
    refine (ih herrors).join (Bundle.sound_openapi hne conf) (Bundle.admits_of_routeless _ ?_ rfl) fun op hop => ?_
    · intro op hop
      rw [(Bundle.mem_openapi hop).1]
      exact OperationKind.noConfusion
    · rcases (Bundle.mem_openapi hop).2.2 with hid | hid <;> rwa [hid]
  | mcp conf h hfresh ih =>
    intro herrors
    obtain ⟨hbefore, hpath, heq⟩ := Bundle.registerMcp_of_errors herrors
    rw [heq, Bundle.insertMcp_eq_join]
    refine (ih hbefore).join (Bundle.sound_mcp _ hpath) (Bundle.admits_of_routeless _ ?_ rfl) ?_
    · intro op hop
      rw [List.mem_singleton.mp hop]
      exact OperationKind.noConfusion
    · intro op hop
      rwa [List.mem_singleton.mp hop]
  | merge registries resources h hother hfresh ih ihother =>
    intro herrors
    obtain ⟨hbefore, hothers, hadmits, heq⟩ := Bundle.merge_of_errors herrors
    rw [heq]
    exact (ih hbefore).join (ihother hothers) hadmits hfresh
  | withPrefix pre h ih =>
    intro herrors
    obtain ⟨hbefore, hpre, heq⟩ := Bundle.withPrefix_of_errors herrors
    rw [heq]
    exact (ih hbefore).nested hpre

end Vyuh.Bundles
