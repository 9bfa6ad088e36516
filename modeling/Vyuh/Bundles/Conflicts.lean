import Vyuh.Bundles.Sound
import Mathlib

/-! What the composition of bundles hands to the router (`bundles/part.rs`, `bundles/mod.rs`): the entries of routes and
    the tables of bundles that are taken over. The collision check stands before the router, in compositions with errors
    too, and keeps a path and a method that are there from being handed to it again. A raw router that is merged in
    has no operations to check, and is left out. -/

namespace Vyuh.Bundles

namespace Bundle

/-! ### The router's table -/

/-- Every entry of the router is a registered route's, and no two have a path and a method in common. -/
structure Tabled (bundle : Bundle) : Prop where
  paths : ∀ op ∈ bundle.routes, RoutePath op.path
  entries : ∀ entry ∈ bundle.innerRouter, ∃ op ∈ bundle.routes, entry = (internalPath op.path, op.methods)
  apart : bundle.innerRouter.Pairwise fun entry other => entry.1 = other.1 → entry.2.intersects other.2 = false

/-- The router and the routes are all that counts. -/
theorem Tabled.of_eq {bundle bundle' : Bundle} (h : bundle.Tabled) (hrouter : bundle'.innerRouter = bundle.innerRouter)
    (hroutes : bundle'.routes = bundle.routes) : bundle'.Tabled :=
  ⟨hroutes ▸ h.paths, hrouter ▸ hroutes ▸ h.entries, hrouter ▸ h.apart⟩

theorem tabled_new : Tabled .new where
  paths op hop := by cases hop
  entries entry hentry := by cases hentry
  apart := .nil

/-- An entry of a path meets none of the router when no registered route has the path and a method. -/
theorem Tabled.apart_of {bundle : Bundle} (h : bundle.Tabled) {op : Operation}
    (hop : ∀ existing ∈ bundle.routes, collides op existing = false) :
    ∀ entry ∈ bundle.innerRouter, entry.1 = internalPath op.path → entry.2.intersects op.methods = false := by
  intro entry hentry hpath
  obtain ⟨existing, hexisting, rfl⟩ := h.entries entry hentry
  have hcollides := hop existing hexisting
  rw [collides, decide_eq_true hpath, Bool.true_and] at hcollides
  exact hcollides

theorem Tabled.insertRoute {bundle : Bundle} (h : bundle.Tabled) {op : Operation} (hkind : op.kind = .route)
    (haccepts : bundle.Accepts op) : (bundle.insertRoute op).Tabled := by
  have hroutes : (bundle.insertRoute op).routes = bundle.routes ++ [op] := by
    rw [insertRoute_eq_join, routes_join]
    exact congrArg _ (List.filter_cons_of_pos (decide_eq_true hkind))
  refine ⟨?_, ?_, ?_⟩
  · rw [hroutes]
    intro op' hop'
    rcases List.mem_append.mp hop' with hop' | hop'
    · exact h.paths op' hop'
    · rw [List.mem_singleton.mp hop']
      exact haccepts.path
  · rw [hroutes]
    intro entry hentry
    rcases List.mem_append.mp hentry with hentry | hentry
    · obtain ⟨op', hop', heq⟩ := h.entries entry hentry
      exact ⟨op', List.mem_append_left _ hop', heq⟩
    · exact ⟨op, List.mem_append_right _ List.mem_cons_self, List.mem_singleton.mp hentry⟩
  · refine List.pairwise_append.mpr ⟨h.apart, List.pairwise_singleton _ _, fun entry hentry other hother hpath => ?_⟩
    rw [List.mem_singleton.mp hother] at hpath ⊢
    exact h.apart_of haccepts.apart entry hentry hpath

theorem Tabled.registerRoute {bundle : Bundle} (h : bundle.Tabled) {op : Operation} (hkind : op.kind = .route) :
    (bundle.registerRoute op).Tabled := by
  rw [Bundle.registerRoute]
  cases hvalid : bundle.validateRouteOperation op with
  | error error => exact h.of_eq rfl rfl
  | ok done => exact h.insertRoute hkind (validateRouteOperation_ok_iff.mp hvalid)

/-- Operations that are no routes change nothing. -/
theorem Tabled.add_ops {bundle bundle' : Bundle} (h : bundle.Tabled) {ops : List Operation}
    (hrouter : bundle'.innerRouter = bundle.innerRouter) (hops : bundle'.ops = bundle.ops ++ ops)
    (hkinds : ∀ op ∈ ops, op.kind ≠ .route) : bundle'.Tabled := by
  refine h.of_eq hrouter ?_
  have hnone : (ops.filter fun op => decide (op.kind = .route)) = [] :=
    List.filter_eq_nil_iff.mpr fun op hop => by simp [hkinds op hop]
  rw [routes, hops, List.filter_append, hnone, List.append_nil, routes]

theorem Tabled.addPart {bundle : Bundle} (h : bundle.Tabled) (id : OperationId) (part : BundlePart) :
    (bundle.addPart id part).Tabled := by
  cases part with
  | route handler conf patch => exact h.registerRoute rfl
  | beacon conf patch => exact h.registerRoute rfl
  | callable kind unmounted name patch refused =>
    refine h.add_ops rfl rfl fun op hop => ?_
    rw [List.mem_singleton.mp hop]
    exact unmounted.1
  | declaration refused => exact h.of_eq rfl rfl

theorem Tabled.registerMcp {bundle : Bundle} (h : bundle.Tabled) (id : OperationId) (conf : McpConf) :
    (bundle.registerMcp id conf).Tabled := by
  rw [Bundle.registerMcp]
  cases conf.validate with
  | nil =>
    refine h.add_ops rfl rfl fun op hop => ?_
    rw [List.mem_singleton.mp hop]
    exact OperationKind.noConfusion
  | cons error errors => exact h.of_eq rfl rfl

theorem nestEntry_eq {pre : List Char} (hpre : RoutePrefix pre) {op : Operation} (hop : RoutePath op.path) :
    nestEntry pre (internalPath op.path, op.methods) = (internalPath (op.nest pre).path, (op.nest pre).methods) := by
  have hnest : internalPath (nestPath pre op.path) = pre ++ slashless op.path := by
    rw [hpre.nestPath_eq, internalPath, if_neg, slashless_append pre hop.ne_nil]
    intro hroot
    obtain ⟨rest, hrest⟩ := hpre.toRoutePath.eq_cons
    obtain ⟨rest', hrest'⟩ := hop.eq_cons
    rw [hrest, hrest'] at hroot
    simp at hroot
  rw [nestEntry, Prod.mk.injEq]
  refine ⟨Eq.trans ?_ hnest.symm, rfl⟩
  by_cases hroot : op.path = ['/']
  · rw [hroot]
    exact (List.append_nil pre).symm
  · obtain ⟨c, rest, hslashless⟩ := hop.slashless_eq hroot
    rw [internalPath, if_neg hroot, if_neg]
    rw [hslashless]
    simp

theorem Tabled.withPrefix {bundle : Bundle} (h : bundle.Tabled) (pre : List Char) : (bundle.withPrefix pre).Tabled := by
  rw [Bundle.withPrefix]
  cases hvalid : validateRoutePrefix pre with
  | error reason => exact h.of_eq rfl rfl
  | ok done =>
    have hpre := validateRoutePrefix_ok_iff.mp hvalid
    show (bundle.nested pre).Tabled
    refine ⟨?_, ?_, ?_⟩
    · rw [routes_nested]
      intro op hop
      obtain ⟨op, hmem, rfl⟩ := List.mem_map.mp hop
      exact (h.paths op hmem).nest hpre
    · rw [routes_nested]
      intro entry hentry
      obtain ⟨entry, hmem, rfl⟩ := List.mem_map.mp hentry
      obtain ⟨op, hop, rfl⟩ := h.entries entry hmem
      exact ⟨op.nest pre, List.mem_map_of_mem hop, nestEntry_eq hpre (h.paths op hop)⟩
    · refine List.pairwise_map.mpr (h.apart.imp_of_mem fun {entry other} hentry hother hapart hpath => ?_)
      obtain ⟨op, hop, rfl⟩ := h.entries entry hentry
      obtain ⟨op', hop', rfl⟩ := h.entries other hother
      rw [nestEntry_eq hpre (h.paths op hop), nestEntry_eq hpre (h.paths op' hop')] at hpath
      exact hapart ((hpre.internalPath_nest_iff (h.paths op hop) (h.paths op' hop')).mp hpath)

/-- The operations of another bundle, taken over before its router is. -/
theorem Tabled.add_routes {bundle other bundle' : Bundle} (h : bundle.Tabled) (hother : other.Tabled)
    (hrouter : bundle'.innerRouter = bundle.innerRouter) (hops : bundle'.ops = bundle.ops ++ other.ops) :
    bundle'.Tabled := by
  have hroutes : bundle'.routes = bundle.routes ++ other.routes := by rw [routes, hops, List.filter_append, routes, routes]
  refine ⟨?_, ?_, hrouter ▸ h.apart⟩
  · rw [hroutes]
    exact fun op hop => (List.mem_append.mp hop).elim (h.paths op) (hother.paths op)
  · rw [hroutes, hrouter]
    intro entry hentry
    obtain ⟨op, hop, heq⟩ := h.entries entry hentry
    exact ⟨op, List.mem_append_left _ hop, heq⟩

theorem Tabled.admits {bundle other : Bundle} (h : bundle.Tabled) (hother : other.Tabled)
    (hadmits : bundle.Admits other) : ∀ entry ∈ bundle.innerRouter, ∀ addition ∈ other.innerRouter,
      entry.1 = addition.1 → entry.2.intersects addition.2 = false := by
  intro entry hentry addition haddition hpath
  obtain ⟨op, hop, rfl⟩ := hother.entries addition haddition
  exact h.apart_of (hadmits.apart op hop) entry hentry hpath

theorem Tabled.join {bundle other : Bundle} (h : bundle.Tabled) (hother : other.Tabled)
    (hadmits : bundle.Admits other) : (bundle.join other).Tabled := by
  refine ⟨?_, ?_, ?_⟩
  · rw [routes_join]
    exact fun op hop => (List.mem_append.mp hop).elim (h.paths op) (hother.paths op)
  · rw [routes_join]
    intro entry hentry
    rcases List.mem_append.mp hentry with hentry | hentry
    · obtain ⟨op, hop, heq⟩ := h.entries entry hentry
      exact ⟨op, List.mem_append_left _ hop, heq⟩
    · obtain ⟨op, hop, heq⟩ := hother.entries entry hentry
      exact ⟨op, List.mem_append_right _ hop, heq⟩
  · exact List.pairwise_append.mpr ⟨h.apart, hother.apart, h.admits hother hadmits⟩

theorem Tabled.absorb {bundle other bundle' : Bundle} (h : bundle.Tabled) (hother : other.Tabled)
    {registries resources : Option BundleError} {error : BundleError}
    (habsorb : bundle.absorb other registries resources = (.error error, bundle')) : bundle'.Tabled := by
  dsimp only [Bundle.absorb] at habsorb
  split at habsorb
  · cases habsorb
    exact h.of_eq rfl rfl
  · split at habsorb
    · cases habsorb
      exact h.of_eq rfl rfl
    · split at habsorb
      · cases habsorb
        exact h.add_routes hother rfl rfl
      · split at habsorb
        · cases habsorb
          exact h.add_routes hother rfl rfl
        · cases habsorb

theorem Tabled.merge {bundle other : Bundle} (h : bundle.Tabled) (hother : other.Tabled)
    (registries resources : Option BundleError) : (bundle.merge other registries resources).Tabled := by
  rcases habsorb : bundle.absorb other registries resources with ⟨result, bundle'⟩
  rw [Bundle.merge, habsorb]
  cases result with
  | error error => exact (h.absorb hother habsorb).of_eq rfl rfl
  | ok router =>
    obtain ⟨hadmits, rfl, rfl⟩ := absorb_of_ok habsorb
    exact (h.join hother hadmits).of_eq rfl rfl

end Bundle

theorem Composed.tabled {bundle : Bundle} (h : Composed bundle) : bundle.Tabled := by
  induction h with
  | new => exact Bundle.tabled_new
  | @addPart bundle id part h hfresh ih => exact ih.addPart id part
  | @openapi bundle specId docId conf h hspec hdoc hne ih =>
    refine ih.add_ops rfl rfl fun op hop => ?_
    rw [(@Bundle.mem_openapi specId docId conf op hop).1]
    exact OperationKind.noConfusion
  | @mcp bundle id conf h hfresh ih => exact ih.registerMcp id conf
  | merge registries resources h hother hfresh ih ihother => exact ih.merge ihother registries resources
  | withPrefix pre h ih => exact ih.withPrefix pre

/-! ### What is handed to the router -/

/-- What is handed to the router while a bundle is composed: the entry of a route that passes its checks, and the table
    of a bundle that is taken over. -/
inductive Insertion : Table → Table → Prop
  | route {bundle : Bundle} {op : Operation} : Composed bundle → bundle.validateRouteOperation op = .ok () →
    Insertion bundle.innerRouter [(internalPath op.path, op.methods)]
  | merge {bundle other bundle' : Bundle} {registries resources : Option BundleError} {router : Table} :
    Composed bundle → Composed other → bundle.absorb other registries resources = (.ok router, bundle') →
    Insertion bundle.innerRouter router

/-- What is handed to the router never has a path and a method in common with what is there. -/
theorem insertions_apart {table additions : Table} (h : Insertion table additions) : ∀ entry ∈ table,
    ∀ addition ∈ additions, entry.1 = addition.1 → entry.2.intersects addition.2 = false := by
  cases h with
  | route h hvalid =>
    intro entry hentry addition haddition hpath
    rw [List.mem_singleton.mp haddition] at hpath ⊢
    exact h.tabled.apart_of (Bundle.validateRouteOperation_ok_iff.mp hvalid).apart entry hentry hpath
  | merge h hother habsorb =>
    obtain ⟨hadmits, rfl, -⟩ := Bundle.absorb_of_ok habsorb
    exact h.tabled.admits hother.tabled hadmits

/-! ### Two methods of one path -/

/-- A bundle with one route at `/items`. -/
def itemBundle (id : OperationId) (name : Char) (method : Method) : Bundle :=
  Bundle.new.addPart id (.route [name] ⟨[name], .only method, "/items".toList, true⟩ ⟨none, none⟩)

theorem itemBundle_composed (id : OperationId) (name : Char) (method : Method) :
    Composed (itemBundle id name method) :=
  .addPart _ .new fun op hop => by cases hop

/-- A bundle that creates items is taken over, below the prefix of both, by one that lists them. -/
theorem insertions_apart_items :
    let listing := (itemBundle 0 'l' .get).withPrefix "/shop".toList
    let creating := (itemBundle 1 'c' .post).withPrefix "/shop".toList
    ∃ entry ∈ listing.innerRouter, ∃ addition ∈ creating.innerRouter,
      (listing.absorb creating none none).1 = .ok creating.innerRouter ∧ entry.1 = addition.1 ∧
      entry.2.intersects addition.2 = false := by
  intro listing creating
  have habsorb : (listing.absorb creating none none).1 = .ok creating.innerRouter := by decide
  have hinsertion : Insertion listing.innerRouter creating.innerRouter :=
    .merge ((itemBundle_composed 0 'l' .get).withPrefix _) ((itemBundle_composed 1 'c' .post).withPrefix _)
      (Prod.ext habsorb rfl)
  have hentry : ("/shop/items".toList, Methods.only .get) ∈ listing.innerRouter := by decide
  have haddition : ("/shop/items".toList, Methods.only .post) ∈ creating.innerRouter := by decide
  exact ⟨_, hentry, _, haddition, habsorb, rfl, insertions_apart hinsertion _ hentry _ haddition rfl⟩

end Vyuh.Bundles
