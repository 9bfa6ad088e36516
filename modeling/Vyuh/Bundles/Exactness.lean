import Vyuh.Bundles.Endpoints
import Mathlib

/-! Exactness of the endpoint checks: what they reject meets something else on the router, and what meets is rejected.
    It fails where an unmounted operation stands alone in the way of an endpoint, and where two endpoints meet that the
    checks do not compare. -/

namespace Vyuh.Bundles

open Lib

/-! ### Paths of the metadata -/

theorem RoutePath.rdropWhile_eq {path : List Char} (h : RoutePath path) :
    path.rdropWhile (· = '/') = slashless path := by
  rw [slashless]
  split
  · next hlast =>
    obtain ⟨init, rfl⟩ := List.getLast?_eq_some_iff.mp hlast
    rw [List.rdropWhile_concat_pos (fun c => decide (c = '/')) init '/' rfl, List.dropLast_concat,
      List.rdropWhile_eq_self_iff]
    intro hne hslash
    have hpair := (List.isChain_append.mp h.single).2.2 (init.getLast hne)
      (List.getLast?_eq_some_getLast hne) '/' rfl
    exact hpair ⟨of_decide_eq_true hslash, rfl⟩
  · next hlast =>
    rw [List.rdropWhile_eq_self_iff]
    intro hne hslash
    rw [List.getLast?_eq_some_getLast hne, of_decide_eq_true hslash] at hlast
    exact hlast rfl

theorem one_lt_length_wellKnown : 1 < wellKnown.length := by decide

theorem getLast?_wellKnown : wellKnown.getLast? = some 'e' := by decide

/-- The metadata path has no slash to lose. -/
theorem internalPath_protectedResourcePath (path : List Char) :
    internalPath (protectedResourcePath path) = protectedResourcePath path := by
  have hroot : protectedResourcePath path ≠ ['/'] := by
    intro h
    have hlength := congrArg List.length h
    rw [protectedResourcePath, List.length_append, List.length_singleton] at hlength
    have := one_lt_length_wellKnown
    omega
  rw [internalPath, if_neg hroot, slashless, if_neg]
  rw [protectedResourcePath]
  by_cases hrest : path.rdropWhile (fun c => decide (c = '/')) = []
  · rw [hrest, List.append_nil, getLast?_wellKnown]
    decide
  · rw [List.getLast?_append_of_ne_nil _ hrest, List.getLast?_eq_some_getLast hrest]
    intro hlast
    exact List.rdropWhile_last_not _ _ hrest (decide_eq_true (Option.some.inj hlast))

/-- Endpoints with one path for their metadata have one path themselves. -/
theorem internalPath_eq_of_metadata {path other : List Char} (h : RoutePath path) (hother : RoutePath other)
    (heq : internalPath (protectedResourcePath path) = internalPath (protectedResourcePath other)) :
    internalPath path = internalPath other := by
  rw [internalPath_protectedResourcePath, internalPath_protectedResourcePath, protectedResourcePath,
    protectedResourcePath, List.append_cancel_left_eq, h.rdropWhile_eq, hother.rdropWhile_eq] at heq
  exact (h.internalPath_eq_iff hother).mpr heq

/-! ### Conditions -/

/-- An operation that no router serves. -/
def Operation.Unmounted (op : Operation) : Prop := op.kind ≠ .route ∧ op.kind ≠ .apiDoc

instance (op : Operation) : Decidable op.Unmounted := inferInstanceAs (Decidable (_ ∧ _))

/-- The check of the mount counts every operation that answers `POST`, mounted or not. -/
def Mount.countsAll : Mount → Bool
  | .probe _ _ => true
  | .mcp _ => true
  | _ => false

namespace Assembly

variable {site : Assembly}

/-- The checks are exact: of two that meet on the router, one a framework endpoint, one is rejected; and what is
    rejected has something else of the router at its path. -/
structure Exact (site : Assembly) : Prop where
  detects : ∀ mount other, site.Mounted mount → site.Mounted other → mount.isRoute = false →
    mount.owner ≠ other.owner → internalPath mount.path = internalPath other.path →
    (∃ method, method ∈ mount.methods ∧ method ∈ other.methods) →
    site.Rejects mount.owner ∨ site.Rejects other.owner
  sound : ∀ mount, site.Mounted mount → mount.rejected site.bundle.ops = true →
    ∃ other, site.Mounted other ∧ other.owner ≠ mount.owner ∧ internalPath other.path = internalPath mount.path

/-- Another operation stands in the way of an MCP endpoint or of its metadata. -/
def Contested (site : Assembly) (op : Operation) : Prop :=
  (∃ other ∈ site.bundle.ops, other.id ≠ op.id ∧ internalPath other.path = internalPath op.path ∧
      (.post ∈ other.methods ∨ .get ∈ other.methods)) ∨
    site.isProtected op.id = true ∧ ∃ other ∈ site.bundle.ops,
      internalPath other.path = internalPath (protectedResourcePath op.path) ∧ .get ∈ other.methods

/-- Where the checks of a site are exact: no unmounted operation stands alone in the way of an endpoint, and endpoints
    that the checks do not compare meet only where an operation stands in the way of one of them. -/
structure Clear (site : Assembly) : Prop where
  covered : ∀ mount, site.Mounted mount → mount.countsAll = true →
    (∃ op ∈ site.bundle.ops, op.Unmounted ∧ internalPath op.path = internalPath mount.path) →
    ∃ other, site.Mounted other ∧ other.owner ≠ mount.owner ∧ internalPath other.path = internalPath mount.path
  probes : ∀ i path j path', site.Mounted (.probe i path) → site.Mounted (.probe j path') → i ≠ j →
    internalPath path = internalPath path' → ∃ op ∈ site.bundle.ops, internalPath op.path = internalPath path
  probeMetadata : ∀ i path op, site.Mounted (.probe i path) → site.Mounted (.metadata op) →
    internalPath path = internalPath (protectedResourcePath op.path) →
    (∃ other ∈ site.bundle.ops, internalPath other.path = internalPath path) ∨ site.Contested op
  mcpMetadata : ∀ op other, site.Mounted (.mcp op) → site.Mounted (.metadata other) → op.id ≠ other.id →
    internalPath op.path = internalPath (protectedResourcePath other.path) → site.Contested op ∨ site.Contested other

/-- Every operation but an unmounted one has a mount of its own. -/
theorem exists_mounted (h : site.bundle.Sound) {op : Operation} (hop : op ∈ site.bundle.ops) (hmounted : ¬ op.Unmounted) :
    ∃ mount, site.Mounted mount ∧ mount.owner = .inl op.id ∧ mount.path = op.path := by
  by_cases hroute : op.kind = .route
  · exact ⟨.route op, .route (List.mem_filter.mpr ⟨hop, decide_eq_true hroute⟩), rfl, rfl⟩
  · have hdoc : op.kind = .apiDoc := not_not.mp fun hne => hmounted ⟨hroute, hne⟩
    rcases h.mem_markers_iff.mp ((h.mem_markers hop).mpr ⟨hdoc, rfl⟩) with ⟨hmarker, -⟩ | ⟨hmarker, -⟩
    · exact ⟨.openapi op, .openapi hop hmarker, rfl, rfl⟩
    · exact ⟨.mcp op, .mcp hop hmarker, rfl, rfl⟩

theorem rejects_probe_iff {i : ℕ} {path : List Char} (hprobe : site.Mounted (.probe i path)) :
    site.Rejects (.inr i) ↔ ∃ op ∈ site.bundle.ops, internalPath op.path = internalPath path := by
  rw [← probeConflict_iff]
  constructor
  · rintro ⟨mount, hmount, howner, hrejected⟩
    cases hmount with
    | probe henabled hpath =>
      cases howner
      cases hprobe with
      | probe henabled' hpath' =>
        rw [hpath] at hpath'
        cases hpath'
        exact hrejected
    | _ => cases howner
  · exact fun hrejected => ⟨_, hprobe, rfl, hrejected⟩

theorem rejects_mcp_iff (h : site.bundle.Sound) {op : Operation} (hmcp : site.Mounted (.mcp op)) :
    site.Rejects (.inl op.id) ↔ site.Contested op := by
  rw [Contested, ← mcpConflict_iff, ← metadataConflict_iff]
  cases hmcp with
  | mcp hop hmarker =>
    constructor
    · rintro ⟨mount, hmount, howner, hrejected⟩
      cases hmount with
      | route hop' => cases hrejected
      | probe henabled hpath => cases howner
      | openapi hop' hmarker' =>
        obtain rfl := h.eq_of_id hop' hop (Sum.inl.inj howner)
        have hget := ((h.mem_docMarkers_iff hop).mp hmarker').2
        exact absurd (hget.symm.trans ((h.mem_mcpMarkers_iff hop).mp hmarker).2) Bundle.get_ne_post
      | mcp hop' hmarker' =>
        obtain rfl := h.eq_of_id hop' hop (Sum.inl.inj howner)
        exact .inl hrejected
      | metadata hop' hmarker' hprotected =>
        obtain rfl := h.eq_of_id hop' hop (Sum.inl.inj howner)
        exact .inr ⟨hprotected, hrejected⟩
    · rintro (hrejected | ⟨hprotected, hrejected⟩)
      · exact ⟨_, .mcp hop hmarker, rfl, hrejected⟩
      · exact ⟨_, .metadata hop hmarker hprotected, rfl, hrejected⟩

/-! ### Clear sites are checked exactly -/

/-- An operation rejects the endpoint it meets, when it answers a method of it. -/
theorem rejects_of_op {mount : Mount} (hmount : site.Mounted mount) (hroute : mount.isRoute = false) {op : Operation}
    (hop : op ∈ site.bundle.ops) (hne : Sum.inl op.id ≠ mount.owner)
    (hpath : internalPath op.path = internalPath mount.path)
    (hmethod : ∃ method, method ∈ mount.methods ∧ method ∈ op.methods) : site.Rejects mount.owner := by
  obtain ⟨method, hown, hother⟩ := hmethod
  refine ⟨mount, hmount, rfl, ?_⟩
  cases mount with
  | route op' => cases hroute
  | probe i path => exact probeConflict_iff.mpr ⟨op, hop, hpath⟩
  | openapi op' =>
    obtain rfl := Methods.mem_only.mp hown
    exact docConflict_iff.mpr ⟨op, hop, fun hid => hne (congrArg Sum.inl hid), hother, hpath⟩
  | mcp op' =>
    refine mcpConflict_iff.mpr ⟨op, hop, fun hid => hne (congrArg Sum.inl hid), hpath, ?_⟩
    rcases Finset.mem_union.mp hown with hpost | hget
    · exact .inl (Methods.mem_only.mp hpost ▸ hother)
    · exact .inr (Methods.mem_only.mp hget ▸ hother)
  | metadata op' =>
    obtain rfl := Methods.mem_only.mp hown
    exact metadataConflict_iff.mpr ⟨op, hop, hpath, hother⟩

theorem rejects_of_openapi (h : site.bundle.Sound) {mount : Mount} (hmount : site.Mounted mount)
    (hroute : mount.isRoute = false) {op : Operation} (hop : op ∈ site.bundle.ops)
    (hmarker : op.id ∈ site.bundle.docMarkers) (hne : Sum.inl op.id ≠ mount.owner)
    (hpath : internalPath op.path = internalPath mount.path)
    (hmethod : ∃ method, method ∈ mount.methods ∧ method ∈ Methods.only .get) : site.Rejects mount.owner := by
  rw [← ((h.mem_docMarkers_iff hop).mp hmarker).2] at hmethod
  exact rejects_of_op hmount hroute hop hne hpath hmethod

theorem rejects_probe_of_op {i : ℕ} {path : List Char} (hprobe : site.Mounted (.probe i path)) {op : Operation}
    (hop : op ∈ site.bundle.ops) (hpath : internalPath op.path = internalPath path) : site.Rejects (.inr i) :=
  (rejects_probe_iff hprobe).mpr ⟨op, hop, hpath⟩

/-- Two MCP endpoints at one path are both in the way. -/
theorem rejects_of_mcp (h : site.bundle.Sound) {op other : Operation} (hop : op ∈ site.bundle.ops)
    (hmarker : op.id ∈ site.bundle.mcpMarkers) (hother : other ∈ site.bundle.ops)
    (hmarker' : other.id ∈ site.bundle.mcpMarkers) (hne : op.id ≠ other.id)
    (hpath : internalPath op.path = internalPath other.path) : site.Rejects (.inl op.id) := by
  refine (rejects_mcp_iff h (.mcp hop hmarker)).mpr (.inl ⟨other, hother, hne.symm, hpath.symm, .inl ?_⟩)
  rw [((h.mem_mcpMarkers_iff hother).mp hmarker').2]
  exact Methods.mem_only.mpr rfl

theorem mcp_of_metadata {op : Operation} (hmetadata : site.Mounted (.metadata op)) : site.Mounted (.mcp op) := by
  cases hmetadata with
  | metadata hop hmarker hprotected => exact .mcp hop hmarker

/-- A probe that meets something else of the framework is rejected, or what it meets is. -/
theorem Clear.probe_detected (h : site.bundle.Sound) (hclear : site.Clear) {i : ℕ} {path : List Char}
    (hprobe : site.Mounted (.probe i path)) {other : Mount} (hother : site.Mounted other)
    (hne : Sum.inr i ≠ other.owner) (hpath : internalPath path = internalPath other.path) :
    site.Rejects (.inr i) ∨ site.Rejects other.owner := by
  cases hother with
  | route hop => exact .inl (rejects_probe_of_op hprobe (List.mem_filter.mp hop).1 hpath.symm)
  | openapi hop hmarker => exact .inl (rejects_probe_of_op hprobe hop hpath.symm)
  | mcp hop hmarker => exact .inl (rejects_probe_of_op hprobe hop hpath.symm)
  | probe henabled hindex =>
    have hindices := fun heq => hne (congrArg Sum.inr heq)
    exact .inl ((rejects_probe_iff hprobe).mpr
      (hclear.probes _ _ _ _ hprobe (.probe henabled hindex) hindices hpath))
  | metadata hop hmarker hprotected =>
    have hmetadata : site.Mounted (.metadata _) := .metadata hop hmarker hprotected
    rcases hclear.probeMetadata _ _ _ hprobe hmetadata hpath with hoccupied | hcontested
    · exact .inl ((rejects_probe_iff hprobe).mpr hoccupied)
    · exact .inr ((rejects_mcp_iff h (mcp_of_metadata hmetadata)).mpr hcontested)

/-- An MCP endpoint that meets the metadata of another is rejected, or the other is. -/
theorem Clear.metadata_detected (h : site.bundle.Sound) (hclear : site.Clear) {op other : Operation}
    (hmcp : site.Mounted (.mcp op)) (hmetadata : site.Mounted (.metadata other)) (hne : op.id ≠ other.id)
    (hpath : internalPath op.path = internalPath (protectedResourcePath other.path)) :
    site.Rejects (.inl op.id) ∨ site.Rejects (.inl other.id) := by
  rw [rejects_mcp_iff h hmcp, rejects_mcp_iff h (mcp_of_metadata hmetadata)]
  exact hclear.mcpMetadata op other hmcp hmetadata hne hpath

theorem Clear.detects (h : site.bundle.Sound) (hclear : site.Clear) {mount other : Mount} (hmount : site.Mounted mount)
    (hother : site.Mounted other) (hroute : mount.isRoute = false) (hne : mount.owner ≠ other.owner)
    (hpath : internalPath mount.path = internalPath other.path)
    (hmethod : ∃ method, method ∈ mount.methods ∧ method ∈ other.methods) :
    site.Rejects mount.owner ∨ site.Rejects other.owner := by
  have hmethod' : ∃ method, method ∈ other.methods ∧ method ∈ mount.methods := by simpa only [and_comm] using hmethod
  cases hmount with
  | route hop => cases hroute
  | probe henabled hindex => exact hclear.probe_detected h (.probe henabled hindex) hother hne hpath
  | openapi hop hmarker =>
    cases hkind : other.isRoute with
    | false => exact .inr (rejects_of_openapi h hother hkind hop hmarker hne hpath hmethod')
    | true =>
      cases hother with
      | route hop' =>
        exact .inl (rejects_of_op (.openapi hop hmarker) rfl (List.mem_filter.mp hop').1 hne.symm hpath.symm hmethod)
      | _ => cases hkind
  | mcp hop hmarker =>
    have hmcp : site.Mounted (.mcp _) := .mcp hop hmarker
    cases hother with
    | route hop' => exact .inl (rejects_of_op hmcp rfl (List.mem_filter.mp hop').1 hne.symm hpath.symm hmethod)
    | probe henabled hindex => exact (hclear.probe_detected h (.probe henabled hindex) hmcp hne.symm hpath.symm).symm
    | openapi hop' hmarker' =>
      exact .inl (rejects_of_openapi h hmcp rfl hop' hmarker' hne.symm hpath.symm hmethod)
    | mcp hop' hmarker' =>
      exact .inl (rejects_of_mcp h hop hmarker hop' hmarker' (fun hid => hne (congrArg Sum.inl hid)) hpath)
    | metadata hop' hmarker' hprotected =>
      exact hclear.metadata_detected h hmcp (.metadata hop' hmarker' hprotected)
        (fun hid => hne (congrArg Sum.inl hid)) hpath
  | metadata hop hmarker hprotected =>
    have hmetadata : site.Mounted (.metadata _) := .metadata hop hmarker hprotected
    cases hother with
    | route hop' => exact .inl (rejects_of_op hmetadata rfl (List.mem_filter.mp hop').1 hne.symm hpath.symm hmethod)
    | probe henabled hindex =>
      exact (hclear.probe_detected h (.probe henabled hindex) hmetadata hne.symm hpath.symm).symm
    | openapi hop' hmarker' =>
      exact .inl (rejects_of_openapi h hmetadata rfl hop' hmarker' hne.symm hpath.symm hmethod)
    | mcp hop' hmarker' =>
      exact (hclear.metadata_detected h (.mcp hop' hmarker') hmetadata (fun hid => hne (congrArg Sum.inl hid).symm)
        hpath.symm).symm
    | metadata hop' hmarker' hprotected' =>
      refine .inl (rejects_of_mcp h hop hmarker hop' hmarker' (fun hid => hne (congrArg Sum.inl hid)) ?_)
      have hkind := (h.mem_mcpMarkers_iff hop).mp hmarker
      have hkind' := (h.mem_mcpMarkers_iff hop').mp hmarker'
      exact internalPath_eq_of_metadata (h.endpoints _ hop hkind.1 hkind.2) (h.endpoints _ hop' hkind'.1 hkind'.2) hpath

/-- What rejects an endpoint is mounted itself, or the endpoint is covered. -/
theorem Clear.sound (h : site.bundle.Sound) (hclear : site.Clear) {mount : Mount} (hmount : site.Mounted mount)
    (hrejected : mount.rejected site.bundle.ops = true) :
    ∃ other, site.Mounted other ∧ other.owner ≠ mount.owner ∧ internalPath other.path = internalPath mount.path := by
  have hserved : ∀ op ∈ site.bundle.ops, ¬ op.Unmounted → Sum.inl op.id ≠ mount.owner →
      internalPath op.path = internalPath mount.path →
      ∃ other, site.Mounted other ∧ other.owner ≠ mount.owner ∧ internalPath other.path = internalPath mount.path := by
    intro op hop hmounted hne hpath
    obtain ⟨other, hother, howner, hsame⟩ := exists_mounted h hop hmounted
    exact ⟨other, hother, howner ▸ hne, hsame ▸ hpath⟩
  have hget : ∀ op ∈ site.bundle.ops, .get ∈ op.methods → ¬ op.Unmounted := by
    intro op hop hmethod hunmounted
    rw [h.callables op hop hunmounted.1 hunmounted.2] at hmethod
    exact absurd (Methods.mem_only.mp hmethod) (by decide)
  cases hmount with
  | route hop => cases hrejected
  | probe henabled hindex =>
    obtain ⟨op, hop, hpath⟩ := probeConflict_iff.mp hrejected
    by_cases hunmounted : op.Unmounted
    · exact hclear.covered _ (.probe henabled hindex) rfl ⟨op, hop, hunmounted, hpath⟩
    · exact hserved op hop hunmounted Sum.inl_ne_inr hpath
  | openapi hop hmarker =>
    obtain ⟨op, hop', hne, hmethod, hpath⟩ := docConflict_iff.mp hrejected
    exact hserved op hop' (hget op hop' hmethod) (fun hid => hne (Sum.inl.inj hid)) hpath
  | mcp hop hmarker =>
    obtain ⟨op, hop', hne, hpath, -⟩ := mcpConflict_iff.mp hrejected
    by_cases hunmounted : op.Unmounted
    · exact hclear.covered _ (.mcp hop hmarker) rfl ⟨op, hop', hunmounted, hpath⟩
    · exact hserved op hop' hunmounted (fun hid => hne (Sum.inl.inj hid)) hpath
  | metadata hop hmarker hprotected =>
    obtain ⟨op, hop', hpath, hmethod⟩ := metadataConflict_iff.mp hrejected
    refine hserved op hop' (hget op hop' hmethod) (fun hid => ?_) hpath
    have hpost := ((h.mem_mcpMarkers_iff hop).mp hmarker).2
    rw [h.eq_of_id hop' hop (Sum.inl.inj hid), hpost] at hmethod
    exact absurd (Methods.mem_only.mp hmethod) (by decide)

/-! ### Exactness -/

theorem Exact.covered (h : site.bundle.Sound) (hexact : site.Exact) {mount : Mount} (hmount : site.Mounted mount)
    (hcounts : mount.countsAll = true) {op : Operation} (hop : op ∈ site.bundle.ops) (hunmounted : op.Unmounted)
    (hpath : internalPath op.path = internalPath mount.path) :
    ∃ other, site.Mounted other ∧ other.owner ≠ mount.owner ∧ internalPath other.path = internalPath mount.path := by
  refine hexact.sound mount hmount ?_
  cases hmount with
  | probe henabled hindex => exact probeConflict_iff.mpr ⟨op, hop, hpath⟩
  | @mcp endpoint hop' hmarker =>
    have hne : op.id ≠ endpoint.id := fun hid => by
      rw [h.eq_of_id hop hop' hid] at hunmounted
      exact hunmounted.2 ((h.mem_mcpMarkers_iff hop').mp hmarker).1
    refine mcpConflict_iff.mpr ⟨op, hop, hne, hpath, .inl ?_⟩
    rw [h.callables op hop hunmounted.1 hunmounted.2]
    exact Methods.mem_only.mpr rfl
  | _ => cases hcounts

theorem Exact.clear (h : site.bundle.Sound) (hexact : site.Exact) : site.Clear where
  covered mount hmount hcounts hblocked := by
    obtain ⟨op, hop, hunmounted, hpath⟩ := hblocked
    exact hexact.covered h hmount hcounts hop hunmounted hpath
  probes i path j path' hprobe hprobe' hne hpath := by
    have hindices : Sum.inr i ≠ (Sum.inr j : OperationId ⊕ ℕ) := fun heq => hne (Sum.inr.inj heq)
    rcases hexact.detects _ _ hprobe hprobe' rfl hindices hpath ⟨.get, Methods.mem_only.mpr rfl, Methods.mem_only.mpr rfl⟩
      with hfirst | hsecond
    · exact (rejects_probe_iff hprobe).mp hfirst
    · obtain ⟨op, hop, hsame⟩ := (rejects_probe_iff hprobe').mp hsecond
      exact ⟨op, hop, hsame.trans hpath.symm⟩
  probeMetadata i path op hprobe hmetadata hpath := by
    rcases hexact.detects _ _ hprobe hmetadata rfl Sum.inr_ne_inl hpath
      ⟨.get, Methods.mem_only.mpr rfl, Methods.mem_only.mpr rfl⟩ with hfirst | hsecond
    · exact .inl ((rejects_probe_iff hprobe).mp hfirst)
    · exact .inr ((rejects_mcp_iff h (mcp_of_metadata hmetadata)).mp hsecond)
  mcpMetadata op other hmcp hmetadata hne hpath := by
    have howners : Sum.inl op.id ≠ (Sum.inl other.id : OperationId ⊕ ℕ) := fun heq => hne (Sum.inl.inj heq)
    rw [← rejects_mcp_iff h hmcp, ← rejects_mcp_iff h (mcp_of_metadata hmetadata)]
    exact hexact.detects _ _ hmcp hmetadata rfl howners hpath
      ⟨.get, Finset.mem_union_right _ (Methods.mem_only.mpr rfl), Methods.mem_only.mpr rfl⟩

/-- Over every bundle composed without an error, a site passes the endpoint checks just when none of its mounts is
    rejected, and the checks are exact just where the site is clear. -/
theorem endpoint_checks_exact_iff (h : Composed site.bundle) (herrors : site.bundle.errors = []) :
    (site.checkEndpoints = .ok () ↔ ∀ mount, site.Mounted mount → mount.rejected site.bundle.ops = false) ∧
      (site.Exact ↔ site.Clear) := by
  have hsound := h.sound herrors
  refine ⟨checkEndpoints_ok_iff hsound, fun hexact => hexact.clear hsound, fun hclear => ⟨?_, ?_⟩⟩
  · exact fun _ _ hmount hother => hclear.detects hsound hmount hother
  · exact fun _ hmount => hclear.sound hsound hmount

/-- The observability paths of the production profile, but for the readiness path. -/
def probesAt (enabled : Bool) (readiness : String) : ObservabilityConf :=
  ⟨enabled, "/healthz".toList, readiness.toList, "/metrics".toList, 1000⟩

/-- A route and an MCP endpoint. -/
def notesBundle : Bundle :=
  (Bundle.new.addPart 0
    (.route "list_notes".toList ⟨"notes".toList, .only .get, "/notes".toList, true⟩ ⟨none, none⟩)).registerMcp 1
      ⟨"/mcp".toList, []⟩

def notesSite : Assembly := ⟨notesBundle, probesAt true "/readyz", fun _ => false⟩

theorem notesBundle_composed : Composed notesBundle := by
  refine .mcp _ (.addPart _ .new fun op hop => ?_) fun op hop => ?_
  · cases hop
  · obtain rfl := List.mem_singleton.mp hop
    exact Nat.zero_ne_one

theorem notesSite_clear : notesSite.Clear where
  covered mount hmount hcounts hblocked := by
    have hmounted : ∀ op ∈ notesSite.bundle.ops, ¬ op.Unmounted := by decide
    obtain ⟨op, hop, hunmounted, -⟩ := hblocked
    exact absurd hunmounted (hmounted op hop)
  probes i path j path' hprobe hprobe' hne hpath := by
    cases hprobe with
    | probe _ hindex =>
      cases hprobe' with
      | probe _ hindex' =>
        have hapart : (notesSite.observability.paths.map internalPath).Nodup := by decide
        have hsame : (notesSite.observability.paths.map internalPath)[i]? =
            (notesSite.observability.paths.map internalPath)[j]? := by
          rw [List.getElem?_map, List.getElem?_map, hindex, hindex']
          exact congrArg some hpath
        have hlength : i < (notesSite.observability.paths.map internalPath).length := by
          rw [List.length_map]
          exact (List.getElem?_eq_some_iff.mp hindex).choose
        exact absurd ((List.getElem?_inj hlength hapart).mp hsame) hne
  probeMetadata i path op hprobe hmetadata hpath := by
    cases hmetadata with
    | metadata _ _ hprotected => cases hprotected
  mcpMetadata op other hmcp hmetadata hne hpath := by
    cases hmetadata with
    | metadata _ _ hprotected => cases hprotected

theorem endpoint_checks_exact_iff_notes :
    (∀ mount, notesSite.Mounted mount → mount.rejected notesSite.bundle.ops = false) ∧ notesSite.Exact :=
  have hnotes := endpoint_checks_exact_iff notesBundle_composed rfl
  ⟨hnotes.1.mp (by decide), hnotes.2.mpr notesSite_clear⟩

theorem task_unmounted : OperationKind.task ≠ .route ∧ OperationKind.task ≠ .apiDoc := by decide

/-- A bundle of one task below a prefix, with an MCP endpoint at the prefix itself. -/
def jobsBundle : Bundle :=
  ((Bundle.new.addPart 0 (.callable .task task_unmounted "clean".toList ⟨none, none⟩ none)).withPrefix
    "/jobs".toList).registerMcp 1 ⟨"/jobs".toList, []⟩

/-- The marker of that endpoint. -/
def jobsEndpoint : Operation :=
  { Operation.fromApiDoc 1 "__mcp__/jobs".toList "/jobs".toList with methods := .only .post }

def jobsSite : Assembly := ⟨jobsBundle, probesAt false "/readyz", fun _ => false⟩

/-- Probes that differ in a trailing slash alone. -/
def probesSite : Assembly := ⟨Bundle.new, probesAt true "/healthz/", fun _ => false⟩

theorem jobsBundle_composed : Composed jobsBundle := by
  refine .mcp _ (.withPrefix _ (.addPart _ .new fun op hop => ?_)) fun op hop => ?_
  · cases hop
  · obtain rfl := List.mem_singleton.mp hop
    exact Nat.zero_ne_one

/-- Nothing is mounted at the prefix but the MCP endpoint. -/
theorem jobsSite_owner {mount : Mount} (h : jobsSite.Mounted mount) : mount.owner = .inl 1 := by
  cases h with
  | route hop => exact absurd hop (List.not_mem_nil)
  | probe henabled hindex => cases henabled
  | openapi hop hmarker => exact absurd hmarker (List.not_mem_nil)
  | mcp hop hmarker => exact congrArg Sum.inl (List.mem_singleton.mp hmarker)
  | metadata hop hmarker hprotected => cases hprotected

theorem probesSite_rejects (i : ℕ) {path : List Char} (h : probesSite.Mounted (.probe i path)) :
    ¬ probesSite.Rejects (.inr i) := by
  rw [rejects_probe_iff h]
  rintro ⟨op, hop, -⟩
  cases hop

/-- A task that is mounted nowhere has an MCP endpoint rejected, and two probes at one path of the router pass. -/
theorem endpoint_checks_are_not_exact :
    (Composed jobsSite.bundle ∧ jobsSite.bundle.errors = [] ∧
      jobsSite.checkEndpoints = .error (.mcp ("invalid MCP configuration: invalid MCP configuration: " ++
        "MCP endpoint conflicts with GET or POST /jobs").toList) ∧ ¬ jobsSite.Exact) ∧
    probesSite.observability.validate = [] ∧ probesSite.checkEndpoints = .ok () ∧ ¬ probesSite.Exact := by
  refine ⟨⟨jobsBundle_composed, rfl, rfl, fun hexact => ?_⟩, by decide, rfl, fun hexact => ?_⟩
  · have hendpoint : jobsSite.bundle.ops[1]? = some jobsEndpoint := rfl
    have hmcp : jobsSite.Mounted (.mcp jobsEndpoint) :=
      .mcp (List.mem_of_getElem? hendpoint) (List.mem_singleton_self 1)
    obtain ⟨other, hother, hne, -⟩ := hexact.sound _ hmcp (by decide)
    exact hne (jobsSite_owner hother)
  · have hliveness : probesSite.Mounted (.probe 0 "/healthz".toList) := .probe rfl rfl
    have hreadiness : probesSite.Mounted (.probe 1 "/healthz/".toList) := .probe rfl rfl
    rcases hexact.detects _ _ hliveness hreadiness rfl (by decide) (by decide) ⟨.get, by decide, by decide⟩ with
      hfirst | hsecond
    · exact probesSite_rejects 0 hliveness hfirst
    · exact probesSite_rejects 1 hreadiness hsecond

end Assembly

end Vyuh.Bundles
