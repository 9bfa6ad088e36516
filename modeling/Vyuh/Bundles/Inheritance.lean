import Vyuh.Bundles.Topology
import Mathlib

/-! Inheritance follows the nesting of bundles. A composition is written down as the expression that makes it, and the
    bundles around another are read off that expression; the parent links that the composition leaves lead through the
    same ones, whatever the order of its steps and whether errors were gathered on the way. -/

namespace Vyuh.Bundles

open Lib

/-! ### Expressions -/

/-- The expressions that compose bundles. -/
inductive Build
  | new (id : BundleId)
  | part (build : Build) (id : OperationId) (piece : BundlePart)
  | conf (build : Build) (settings : BundleConf) (docIds : ℕ → OperationId × OperationId) (mcpId : OperationId)
  | nest (build : Build) (pre : List Char)
  | merge (build other : Build) (registries resources : Option BundleError)

namespace Build

def eval : Build → ScopedBundle
  | new id => .new id
  | part build id piece => build.eval.addPart id piece
  | conf build settings docIds mcpId => build.eval.withConf settings docIds mcpId
  | nest build pre => build.eval.withPrefix pre
  | merge build other registries resources => build.eval.merge other.eval registries resources

/-- The identities given out. -/
def ids : Build → List BundleId
  | new id => [id]
  | part build _ _ | conf build _ _ _ | nest build _ => build.ids
  | merge build other _ _ => build.ids ++ other.ids

/-- The outermost bundle. -/
def root : Build → BundleId
  | new id => id
  | part build _ _ | conf build _ _ _ | nest build _ | merge build _ _ _ => build.root

/-- The bundles that were taken in. -/
def members : Build → List BundleId
  | new id => [id]
  | part build _ _ | conf build _ _ _ | nest build _ => build.members
  | merge build other _ _ => build.members ++ (if build.eval.joins other.eval then other.members else [])

/-- A bundle and those around it, from the outermost in. -/
def chain : Build → BundleId → List BundleId
  | new id, _ => [id]
  | part build _ _, target | conf build _ _ _, target | nest build _, target => build.chain target
  | merge build other _ _, target =>
    if target ∈ build.members then build.chain target else build.root :: other.chain target

/-! ### Links -/

theorem eval_id (build : Build) : build.eval.id = build.root := by
  induction build with
  | new id => rfl
  | part build id piece ih => exact ih
  | conf build settings docIds mcpId ih => exact ih
  | nest build pre ih => exact ih
  | merge build other registries resources ih _ =>
    rw [eval, ScopedBundle.merge, root, ← ih]
    split_ifs <;> rfl

theorem members_subset (build : Build) : build.members ⊆ build.ids := by
  induction build with
  | new id => exact List.Subset.refl _
  | part build id piece ih => exact ih
  | conf build settings docIds mcpId ih => exact ih
  | nest build pre ih => exact ih
  | merge build other registries resources ih ihother =>
    intro id hid
    rcases List.mem_append.mp hid with hid | hid
    · exact List.mem_append_left _ (ih hid)
    · split_ifs at hid
      · exact List.mem_append_right _ (ihother hid)
      · exact absurd hid List.not_mem_nil

theorem root_mem (build : Build) : build.root ∈ build.members := by
  induction build with
  | new id => exact List.mem_cons_self
  | part build id piece ih => exact ih
  | conf build settings docIds mcpId ih => exact ih
  | nest build pre ih => exact ih
  | merge build other registries resources ih _ => exact List.mem_append_left _ ih

/-- The links lead through the chains of the expression, and nothing else is linked. -/
structure Linked (build : Build) : Prop where
  linked : ∀ {id parent}, build.eval.topology.parents id = some parent → id ∈ build.members ∧ id ≠ build.root
  roots : ∀ id ∈ build.members, build.eval.topology.parents id = none → id = build.root
  climbs : ∀ id ∈ build.members, Forest.Climbs build.eval.topology.parents id (build.chain id).reverse
  inside : ∀ id ∈ build.members, build.chain id ⊆ build.members
  configs : ∀ {id conf}, build.eval.configs id = some conf → id ∈ build.members
  owners : ∀ {id owner}, build.eval.owners id = some owner → owner ∈ build.members
  anchors : build.eval.mcpAnchors ⊆ build.members

theorem linked_new (id : BundleId) : (new id).Linked where
  linked h := by cases h
  roots id' hid _ := List.mem_singleton.mp hid
  climbs id' hid := by
    rw [List.mem_singleton.mp hid]
    exact .root rfl
  inside id' _ := List.Subset.refl _
  configs h := by cases h
  owners h := by cases h
  anchors := List.nil_subset _

/-- Giving operations to the bundle does not change its links. -/
theorem assign_owner {bundle : ScopedBundle} {composed : Bundle} {id : OperationId} {owner : BundleId}
    (h : (bundle.assign composed).owners id = some owner) : bundle.owners id = some owner ∨ owner = bundle.id := by
  rw [ScopedBundle.assign, Option.or_eq_some_iff] at h
  rcases h with h | ⟨-, h⟩
  · exact .inl h
  · split_ifs at h
    exact .inr (Option.some.inj h).symm

theorem Linked.part {build : Build} (h : build.Linked) (id : OperationId) (piece : BundlePart) :
    (Build.part build id piece).Linked where
  anchors := h.anchors
  linked := h.linked
  roots := h.roots
  climbs := h.climbs
  inside := h.inside
  configs := h.configs
  owners howner := by
    rcases assign_owner howner with howner | rfl
    · exact h.owners howner
    · rw [eval_id]
      exact build.root_mem

theorem Linked.conf {build : Build} (h : build.Linked) (settings : BundleConf) (docIds : ℕ → OperationId × OperationId)
    (mcpId : OperationId) : (Build.conf build settings docIds mcpId).Linked where
  anchors := by
    refine List.append_subset.mpr ⟨h.anchors, ?_⟩
    cases settings.mcp with
    | none => exact List.nil_subset _
    | some mcp =>
      dsimp only [Option.elim]
      split_ifs
      · rw [eval_id]
        exact List.cons_subset.mpr ⟨build.root_mem, List.nil_subset _⟩
      · exact List.nil_subset _
  linked := h.linked
  roots := h.roots
  climbs := h.climbs
  inside := h.inside
  configs {id _} hconf := by
    rw [eval, ScopedBundle.withConf] at hconf
    dsimp only at hconf
    rw [FMap.insert_apply] at hconf
    split_ifs at hconf with hid
    · rw [hid, eval_id]
      exact build.root_mem
    · exact h.configs hconf
  owners howner := by
    rcases assign_owner howner with howner | rfl
    · exact h.owners howner
    · rw [eval_id]
      exact build.root_mem

theorem Linked.nest {build : Build} (h : build.Linked) (pre : List Char) : (Build.nest build pre).Linked where
  anchors := h.anchors
  linked := h.linked
  roots := h.roots
  climbs := h.climbs
  inside := h.inside
  configs := h.configs
  owners := h.owners

theorem mergeConfigs_of_none {configs other : FMap BundleId BundleConf} {id : BundleId} (h : other id = none) :
    ScopedBundle.mergeConfigs configs other id = configs id := by
  rw [ScopedBundle.mergeConfigs, h]
  rfl

section Merge

variable {build other : Build} (h : build.Linked) (hother : other.Linked)
  (hapart : ∀ id ∈ build.members, id ∉ other.members)

include h hother hapart

/-- The links of a merged bundle: its own, those of the other, and one from the other's root to its own. -/
theorem absorb_parents (id : BundleId) :
    (build.eval.topology.absorb other.eval.id other.eval.topology build.eval.id).parents id =
      if id = other.root then some build.root
      else if id ∈ other.members then other.eval.topology.parents id else build.eval.topology.parents id := by
  rw [BundleTopology.absorb]
  dsimp only
  rw [FMap.insert_apply, eval_id, eval_id]
  split_ifs with hroot hid
  · rfl
  · cases hparent : other.eval.topology.parents id with
    | none =>
      cases hparent' : build.eval.topology.parents id with
      | none => rfl
      | some parent => exact absurd hid (hapart id (h.linked hparent').1)
    | some parent => rfl
  · cases hparent : other.eval.topology.parents id with
    | none => rfl
    | some parent => exact absurd (hother.linked hparent).1 hid

theorem absorb_climbs_own {id : BundleId} (hid : id ∈ build.members) :
    Forest.Climbs (build.eval.topology.absorb other.eval.id other.eval.topology build.eval.id).parents id
      (build.chain id).reverse := by
  refine (h.climbs id hid).congr fun id' hid' => ?_
  have hmem : id' ∈ build.members := h.inside id hid (List.mem_reverse.mp hid')
  rw [absorb_parents h hother hapart, if_neg, if_neg (hapart id' hmem)]
  rintro rfl
  exact hapart _ hmem other.root_mem

theorem absorb_climbs_other {id : BundleId} (hid : id ∈ other.members) :
    Forest.Climbs (build.eval.topology.absorb other.eval.id other.eval.topology build.eval.id).parents id
      (build.root :: other.chain id).reverse := by
  rw [List.reverse_cons]
  have hmem : ∀ id' ∈ (other.chain id).reverse, id' ∈ other.members := fun id' hid' =>
    hother.inside id hid (List.mem_reverse.mp hid')
  have hroot : Forest.Climbs (build.eval.topology.absorb other.eval.id other.eval.topology build.eval.id).parents
      build.root [build.root] := by
    refine .root ?_
    rw [absorb_parents h hother hapart, if_neg, if_neg (hapart _ build.root_mem)]
    · cases hparent : build.eval.topology.parents build.root with
      | none => rfl
      | some parent => exact absurd rfl (h.linked hparent).2
    · intro heq
      exact hapart _ build.root_mem (heq ▸ other.root_mem)
  refine (hother.climbs id hid).graft (fun id' hid' hlinked => ?_) (fun id' hid' hnone => ?_) hroot
  · obtain ⟨parent, hparent⟩ := Option.ne_none_iff_exists'.mp hlinked
    rw [absorb_parents h hother hapart, if_neg (hother.linked hparent).2, if_pos (hmem id' hid')]
  · rw [absorb_parents h hother hapart, if_pos (hother.roots id' (hmem id' hid') hnone)]

/-- Merging hangs the chains of the other bundle below this one. -/
theorem Linked.merge (registries resources : Option BundleError) :
    (Build.merge build other registries resources).Linked := by
  by_cases hjoins : build.eval.joins other.eval = true
  · have heval : (Build.merge build other registries resources).eval =
        { build.eval with
          toBundle := build.eval.toBundle.merge other.eval.toBundle registries resources
          configs := ScopedBundle.mergeConfigs build.eval.configs other.eval.configs
          topology := build.eval.topology.absorb other.eval.id other.eval.topology build.eval.id
          owners := fun id => (other.eval.owners id).or (build.eval.owners id)
          mcpAnchors := build.eval.mcpAnchors ++ (if registries.isNone then other.eval.mcpAnchors else []) } := by
      rw [eval, ScopedBundle.merge]
      exact if_pos hjoins
    have hmembers : (Build.merge build other registries resources).members = build.members ++ other.members := by
      rw [members, if_pos hjoins]
    refine ⟨?_, ?_, ?_, ?_, ?_, ?_, ?_⟩
    · intro id parent hparent
      rw [heval] at hparent
      dsimp only at hparent
      rw [absorb_parents h hother hapart] at hparent
      rw [hmembers, List.mem_append]
      split_ifs at hparent with hroot hid
      · rw [hroot]
        exact ⟨.inr other.root_mem, fun heq => hapart _ build.root_mem (heq ▸ other.root_mem)⟩
      · exact ⟨.inr hid, fun heq => hapart _ build.root_mem (heq ▸ hid)⟩
      · exact ⟨.inl (h.linked hparent).1, (h.linked hparent).2⟩
    · intro id hid hnone
      rw [heval] at hnone
      dsimp only at hnone
      rw [absorb_parents h hother hapart] at hnone
      rw [hmembers, List.mem_append] at hid
      split_ifs at hnone with hroot hmem
      · exact absurd (hother.roots id hmem hnone) hroot
      · exact h.roots id (hid.resolve_right hmem) hnone
    · intro id hid
      rw [heval, chain]
      dsimp only
      rw [hmembers, List.mem_append] at hid
      split_ifs with hmem
      · exact absorb_climbs_own h hother hapart hmem
      · exact absorb_climbs_other h hother hapart (hid.resolve_left hmem)
    · intro id hid
      rw [hmembers] at hid ⊢
      rw [chain]
      split_ifs with hmem
      · exact List.subset_append_of_subset_left _ (h.inside id hmem)
      · refine List.cons_subset.mpr ⟨List.mem_append_left _ build.root_mem, ?_⟩
        exact List.subset_append_of_subset_right _
          (hother.inside id ((List.mem_append.mp hid).resolve_left hmem))
    · intro id conf hconf
      rw [heval] at hconf
      dsimp only at hconf
      rw [hmembers, List.mem_append]
      cases hown : other.eval.configs id with
      | none =>
        rw [mergeConfigs_of_none hown] at hconf
        exact .inl (h.configs hconf)
      | some conf => exact .inr (hother.configs hown)
    · intro id owner howner
      rw [heval] at howner
      rw [hmembers, List.mem_append]
      rcases Option.or_eq_some_iff.mp howner with howner | ⟨-, howner⟩
      · exact .inr (hother.owners howner)
      · exact .inl (h.owners howner)
    · rw [heval, hmembers]
      refine List.append_subset.mpr ⟨List.subset_append_of_subset_left _ h.anchors, ?_⟩
      split_ifs
      · exact List.subset_append_of_subset_right _ hother.anchors
      · exact List.nil_subset _
  · have heval : (Build.merge build other registries resources).eval =
        { build.eval with toBundle := build.eval.toBundle.merge other.eval.toBundle registries resources } := by
      rw [eval, ScopedBundle.merge]
      exact if_neg hjoins
    have hmembers : (Build.merge build other registries resources).members = build.members := by
      rw [members, if_neg hjoins, List.append_nil]
    have hchain : ∀ id ∈ build.members, (Build.merge build other registries resources).chain id = build.chain id :=
      fun id hid => if_pos hid
    refine ⟨?_, ?_, ?_, ?_, ?_, ?_, ?_⟩
    · rw [heval, hmembers]
      exact h.linked
    · rw [heval, hmembers]
      exact h.roots
    · rw [heval, hmembers]
      intro id hid
      rw [hchain id hid]
      exact h.climbs id hid
    · rw [hmembers]
      intro id hid
      rw [hchain id hid]
      exact h.inside id hid
    · rw [heval, hmembers]
      exact h.configs
    · rw [heval, hmembers]
      exact h.owners
    · rw [heval, hmembers]
      exact h.anchors

end Merge

theorem linked (build : Build) (h : build.ids.Nodup) : build.Linked := by
  induction build with
  | new id => exact linked_new id
  | part build id piece ih => exact (ih h).part id piece
  | conf build settings docIds mcpId ih => exact (ih h).conf settings docIds mcpId
  | nest build pre ih => exact (ih h).nest pre
  | merge build other registries resources ih ihother =>
    obtain ⟨hown, hother, hapart⟩ := List.nodup_append.mp h
    refine (ih hown).merge (ihother hother) (fun id hid hid' => ?_) registries resources
    exact hapart id (build.members_subset hid) id (other.members_subset hid') rfl

theorem chain_length_le (build : Build) (id : BundleId) : (build.chain id).length ≤ build.ids.length := by
  induction build with
  | new id => exact le_rfl
  | part build id piece ih => exact ih
  | conf build settings docIds mcpId ih => exact ih
  | nest build pre ih => exact ih
  | merge build other registries resources ih ihother =>
    rw [chain, ids, List.length_append]
    split_ifs
    · exact ih.trans (Nat.le_add_right _ _)
    · have hpos : 0 < build.ids.length := List.length_pos_of_mem (build.members_subset build.root_mem)
      rw [List.length_cons]
      omega

section Lineage

variable {build : Build} (h : build.ids.Nodup) {steps : ℕ} (hsteps : build.ids.length ≤ steps) {id : BundleId}
  (hid : id ∈ build.members)

include h hsteps hid

theorem lineage_eq : build.eval.topology.lineage steps id = some (build.chain id) := by
  rw [BundleTopology.lineage, ((linked build h).climbs id hid).climb_eq, Option.map_some, List.reverse_reverse]
  rw [List.length_reverse]
  exact (build.chain_length_le id).trans hsteps

theorem contains_eq (anchor : BundleId) :
    build.eval.topology.contains steps anchor id = some (decide (anchor ∈ build.chain id)) := by
  rw [BundleTopology.contains, ((linked build h).climbs id hid).reaches_eq]
  · simp
  · rw [List.length_reverse]
    exact (build.chain_length_le id).trans hsteps

end Lineage

end Build

/-! ### Inheritance -/

/-- The audience at the end of a chain of bundles: each hands on its own, or what it was handed. -/
def handedDown (configs : FMap BundleId BundleConf) (above : Option String) : List BundleId → Option String
  | [] => above
  | id :: inner => handedDown configs (((configs id).bind BundleConf.audience).or above) inner

/-- The tags along a chain of bundles. -/
def gatheredTags (configs : FMap BundleId BundleConf) (chain : List BundleId) : List (List Char) :=
  chain.flatMap fun id => (configs id).elim [] BundleConf.tags

theorem getLast?_audiences (configs : FMap BundleId BundleConf) (above : Option String) (chain : List BundleId) :
    ((chain.filterMap configs).filterMap BundleConf.audience).getLast?.or above = handedDown configs above chain := by
  induction chain generalizing above with
  | nil => rfl
  | cons id inner ih =>
    rw [handedDown, ← ih]
    cases hconf : configs id with
    | none => rw [List.filterMap_cons_none hconf]; rfl
    | some conf =>
      rw [List.filterMap_cons_some hconf]
      cases haudience : conf.audience with
      | none => rw [List.filterMap_cons_none haudience, Option.bind_some, haudience]; rfl
      | some audience =>
        rw [List.filterMap_cons_some haudience, Option.bind_some, haudience, List.getLast?_cons]
        cases ((inner.filterMap configs).filterMap BundleConf.audience).getLast? <;> rfl

theorem flatMap_tags (configs : FMap BundleId BundleConf) (chain : List BundleId) :
    (chain.filterMap configs).flatMap BundleConf.tags = gatheredTags configs chain := by
  induction chain with
  | nil => rfl
  | cons id inner ih =>
    rw [gatheredTags, List.flatMap_cons, ← gatheredTags, ← ih]
    cases hconf : configs id with
    | none => rw [List.filterMap_cons_none hconf]; rfl
    | some conf => rw [List.filterMap_cons_some hconf, List.flatMap_cons]; rfl

/-- In every composition of bundles with identities of their own, the walks up the parent links end, they find the
    bundles that the composition put around an operation's own, and what the operation inherits is what these hand down
    from the outermost in. -/
theorem inheritance_follows_nesting {build : Build} (h : build.ids.Nodup) {steps : ℕ}
    (hsteps : build.ids.length ≤ steps) {op : Operation} {owner : BundleId}
    (howner : build.eval.owners op.id = some owner) (own default : Option Auth.AudienceId) (requiresAuth : Bool) :
    (∀ anchor, build.eval.topology.contains steps anchor owner = some (decide (anchor ∈ build.chain owner))) ∧
      build.eval.operationUpdate steps op own requiresAuth default =
        some (((handedDown build.eval.configs none (build.chain owner)).mapM Auth.AudienceId.new).map fun declared =>
          ((declared.or own).or (if (op.kind ≠ .mcpTool && requiresAuth) ||
              ScopedBundle.aggregateRequiresAudience op.kind then default else none),
            gatheredTags build.eval.configs (build.chain owner))) := by
  have hmem : owner ∈ build.members := (build.linked h).owners howner
  refine ⟨Build.contains_eq h hsteps hmem, ?_⟩
  rw [ScopedBundle.operationUpdate, howner]
  dsimp only
  rw [ScopedBundle.configsFor, Build.lineage_eq h hsteps hmem, Option.map_some, Option.map_some, flatMap_tags,
    ← getLast?_audiences, Option.or_none]

/-! ### Services -/

theorem maxByKey_foldl {entries : List (ℕ × ℕ)} {best : Option (ℕ × ℕ)} {entry : ℕ × ℕ}
    (h : entries.foldl (fun best entry =>
      some (best.elim entry fun best => if best.1 ≤ entry.1 then entry else best)) best = some entry) :
    (entry ∈ entries ∨ best = some entry) ∧ (∀ other ∈ entries, other.1 ≤ entry.1) ∧
      ∀ other ∈ best, other.1 ≤ entry.1 := by
  induction entries generalizing best with
  | nil => exact ⟨.inr h, List.forall_mem_nil _, fun other hother => by rw [← Option.some.inj (hother.symm.trans h)]⟩
  | cons first entries ih =>
    obtain ⟨hmem, hle, hbest⟩ := ih h
    have hfirst := hbest _ rfl
    cases best with
    | none =>
      refine ⟨.inl ?_, List.forall_mem_cons.mpr ⟨hfirst, hle⟩, fun other hother => by cases hother⟩
      rcases hmem with hmem | hmem
      · exact List.mem_cons_of_mem _ hmem
      · exact Option.some.inj hmem ▸ List.mem_cons_self
    | some best =>
      dsimp only [Option.elim] at hmem hfirst
      split_ifs at hmem hfirst with hcompare
      · refine ⟨.inl ?_, List.forall_mem_cons.mpr ⟨hfirst, hle⟩, fun other hother => ?_⟩
        · rcases hmem with hmem | hmem
          · exact List.mem_cons_of_mem _ hmem
          · exact Option.some.inj hmem ▸ List.mem_cons_self
        · rw [← Option.some.inj hother]
          exact hcompare.trans hfirst
      · refine ⟨?_, List.forall_mem_cons.mpr ⟨(Nat.le_of_not_le hcompare).trans hfirst, hle⟩, fun other hother => ?_⟩
        · rcases hmem with hmem | hmem
          · exact .inl (List.mem_cons_of_mem _ hmem)
          · exact .inr hmem
        · rw [← Option.some.inj hother]
          exact hfirst

theorem maxByKey_eq_none {entries : List (ℕ × ℕ)} (h : BundleTopology.maxByKey entries = none) : entries = [] := by
  have hsome (entries : List (ℕ × ℕ)) (best : ℕ × ℕ) : entries.foldl (fun best entry =>
      some (best.elim entry fun best => if best.1 ≤ entry.1 then entry else best)) (some best) ≠ none := by
    induction entries generalizing best with
    | nil => exact Option.some_ne_none _
    | cons first entries ih => exact ih _
  cases entries with
  | nil => rfl
  | cons first entries => exact absurd h (hsome entries first)

theorem mapM_of_some {α β : Type} {f : α → Option β} {g : α → β} {list : List α} (h : ∀ a ∈ list, f a = some (g a)) :
    list.mapM f = some (list.map g) := by
  induction list with
  | nil => rfl
  | cons a list ih =>
    rw [List.mapM_cons, h a List.mem_cons_self, ih fun a' hmem => h a' (List.mem_cons_of_mem _ hmem)]
    rfl

/-- Of two bundles around another, the one with the shorter chain is around the other one. -/
theorem Build.mem_chain_of_length_le {build : Build} (h : build.ids.Nodup) {id anchor other : BundleId}
    (hid : id ∈ build.members) (hanchor : anchor ∈ build.chain id) (hother : other ∈ build.chain id)
    (hlength : (build.chain other).length ≤ (build.chain anchor).length) : other ∈ build.chain anchor := by
  have hclimbs := (build.linked h).climbs id hid
  have hsuffix : ∀ {around : BundleId}, around ∈ build.chain id →
      (build.chain around).reverse <:+ (build.chain id).reverse ∧ around ∈ (build.chain around).reverse := by
    intro around haround
    obtain ⟨below, rest, heq, hrest⟩ := hclimbs.suffix_of_mem (List.mem_reverse.mpr haround)
    have hown := (build.linked h).climbs around ((build.linked h).inside id hid haround)
    rw [hown.unique hrest, heq]
    exact ⟨List.suffix_append _ _, List.mem_cons_self⟩
  have hshorter : (build.chain other).reverse <:+ (build.chain anchor).reverse := by
    refine List.suffix_of_suffix_length_le (hsuffix hother).1 (hsuffix hanchor).1 ?_
    rwa [List.length_reverse, List.length_reverse]
  exact List.mem_reverse.mp (hshorter.subset (hsuffix hother).2)

/-- An operation goes to the innermost of the services around its bundle: to one that is around it, and that every other
    such service is around. -/
theorem service_is_innermost {build : Build} (h : build.ids.Nodup) {steps : ℕ} (hsteps : build.ids.length ≤ steps)
    {op : Operation} {owner : BundleId} (howner : build.eval.owners op.id = some owner) :
    ∃ nearest, build.eval.topology.nearestNode steps build.eval.mcpAnchors owner = some nearest ∧
      (nearest = none → ∀ anchor ∈ build.eval.mcpAnchors, anchor ∉ build.chain owner) ∧
      ∀ index ∈ nearest, ∃ anchor, build.eval.mcpAnchors[index]? = some anchor ∧ anchor ∈ build.chain owner ∧
        ∀ other ∈ build.eval.mcpAnchors, other ∈ build.chain owner → other ∈ build.chain anchor := by
  have hmem : owner ∈ build.members := (build.linked h).owners howner
  have hdepth : ∀ entry ∈ build.eval.mcpAnchors.zipIdx, build.eval.topology.depthAround steps owner entry =
      some (if entry.1 ∈ build.chain owner then some ((build.chain entry.1).length, entry.2) else none) := by
    intro entry hentry
    have hanchor : entry.1 ∈ build.members :=
      (build.linked h).anchors (List.mem_of_getElem? (List.mem_zipIdx_iff_getElem?.mp hentry))
    rw [BundleTopology.depthAround, Build.contains_eq h hsteps hmem, Build.lineage_eq h hsteps hanchor]
    by_cases haround : entry.1 ∈ build.chain owner
    · simp [haround]
    · simp [haround]
  have hdepths : ∀ {length index : ℕ}, (length, index) ∈ (build.eval.mcpAnchors.zipIdx.map fun entry =>
      if entry.1 ∈ build.chain owner then some ((build.chain entry.1).length, entry.2) else none).reduceOption ↔
      ∃ anchor, build.eval.mcpAnchors[index]? = some anchor ∧ anchor ∈ build.chain owner ∧
        length = (build.chain anchor).length := by
    intro length index
    rw [List.reduceOption_mem_iff, List.mem_map]
    constructor
    · rintro ⟨⟨anchor, place⟩, hentry, heq⟩
      split_ifs at heq with haround
      cases heq
      exact ⟨anchor, List.mem_zipIdx_iff_getElem?.mp hentry, haround, rfl⟩
    · rintro ⟨anchor, hanchor, haround, rfl⟩
      exact ⟨(anchor, index), List.mem_zipIdx_iff_getElem?.mpr hanchor, if_pos haround⟩
  have hplaced : ∀ anchor ∈ build.eval.mcpAnchors, anchor ∈ build.chain owner →
      ∃ index, ((build.chain anchor).length, index) ∈ (build.eval.mcpAnchors.zipIdx.map fun entry =>
        if entry.1 ∈ build.chain owner then some ((build.chain entry.1).length, entry.2) else none).reduceOption := by
    intro anchor hanchor haround
    obtain ⟨index, hindex⟩ := List.mem_iff_getElem?.mp hanchor
    exact ⟨index, hdepths.mpr ⟨anchor, hindex, haround, rfl⟩⟩
  rw [BundleTopology.nearestNode, mapM_of_some hdepth]
  refine ⟨_, rfl, fun hnone anchor hanchor haround => ?_, fun index hindex => ?_⟩
  · obtain ⟨index, hmem⟩ := hplaced anchor hanchor haround
    rw [maxByKey_eq_none (Option.map_eq_none_iff.mp hnone)] at hmem
    exact absurd hmem List.not_mem_nil
  · obtain ⟨⟨length, place⟩, hbest, rfl⟩ := Option.map_eq_some_iff.mp hindex
    obtain ⟨hin, hmax, -⟩ := maxByKey_foldl hbest
    obtain ⟨anchor, hanchor, haround, rfl⟩ := hdepths.mp (hin.resolve_right fun h => by cases h)
    refine ⟨anchor, hanchor, haround, fun other hother hotherAround => ?_⟩
    obtain ⟨otherIndex, hplace⟩ := hplaced other hother hotherAround
    exact Build.mem_chain_of_length_le h hmem haround hotherAround (hmax _ hplace)

/-! ### A bundle within a bundle -/

/-- A service's bundle with a bundle inside it that has a tool. -/
def serviceBuild : Build :=
  .merge (.conf (.new 0) ⟨some "web", [['w']], [], some ⟨['/', 'm'], []⟩, []⟩ (fun index => (2 * index, 2 * index + 1)) 7)
    (.part (.new 1) 8 (.callable .mcpTool ⟨OperationKind.noConfusion, OperationKind.noConfusion⟩ ['t'] ⟨none, none⟩ none))
    none none

def toolOperation : Operation := .fromSpecs 8 .mcpTool ['t']

theorem serviceBuild_owner : serviceBuild.eval.owners toolOperation.id = some 1 := by decide

theorem inheritance_follows_nesting_service :
    (∀ anchor, serviceBuild.eval.topology.contains 2 anchor 1 = some (decide (anchor ∈ serviceBuild.chain 1))) ∧
      serviceBuild.eval.operationUpdate 2 toolOperation none false none =
        some (((handedDown serviceBuild.eval.configs none (serviceBuild.chain 1)).mapM Auth.AudienceId.new).map
          fun declared =>
            ((declared.or none).or (if (toolOperation.kind ≠ .mcpTool && false) ||
                ScopedBundle.aggregateRequiresAudience toolOperation.kind then none else none),
              gatheredTags serviceBuild.eval.configs (serviceBuild.chain 1))) :=
  inheritance_follows_nesting (by decide) (by decide) serviceBuild_owner none none false

theorem service_is_innermost_service :
    ∃ nearest, serviceBuild.eval.topology.nearestNode 2 serviceBuild.eval.mcpAnchors 1 = some nearest ∧
      (nearest = none → ∀ anchor ∈ serviceBuild.eval.mcpAnchors, anchor ∉ serviceBuild.chain 1) ∧
      ∀ index ∈ nearest, ∃ anchor, serviceBuild.eval.mcpAnchors[index]? = some anchor ∧ anchor ∈ serviceBuild.chain 1 ∧
        ∀ other ∈ serviceBuild.eval.mcpAnchors, other ∈ serviceBuild.chain 1 → other ∈ serviceBuild.chain anchor :=
  service_is_innermost (by decide) le_rfl serviceBuild_owner

end Vyuh.Bundles
