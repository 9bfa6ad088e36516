import Vyuh.Auth.Runtime.Indexes
import Vyuh.Lib.Sorting

/-! When providers can be indexed together: no two with one selector may cover the same audience. The
    order in which they are registered does not matter, and the index then lists for every audience the
    providers that support it. -/

namespace Vyuh.Auth

open Lib

namespace ProviderAudienceSet

/-- The sets that exist: unrestricted ones and those of checked declarations. -/
def Built (set : ProviderAudienceSet) : Prop := set = .any ∨ ∃ declared, ofValues declared = .ok set

/-- Two sets cover an audience together; an unrestricted one overlaps every other. -/
def Overlaps : ProviderAudienceSet → ProviderAudienceSet → Prop
  | .any, _ => True
  | _, .any => True
  | .only covered, .only covered' => ∃ audience ∈ covered, audience ∈ covered'

theorem Overlaps.symm {set set' : ProviderAudienceSet} (h : set.Overlaps set') : set'.Overlaps set := by
  cases set with
  | any => cases set' <;> trivial
  | only covered =>
    cases set' with
    | any => trivial
    | only covered' =>
      obtain ⟨audience, hmem, hmem'⟩ := h
      exact ⟨audience, hmem', hmem⟩

/-- A checked declaration names an audience, and none twice. -/
theorem Built.only {covered : List AudienceId} (h : (ProviderAudienceSet.only covered).Built) :
    covered ≠ [] ∧ covered.Nodup := by
  rcases h with h | ⟨declared, h⟩
  · exact nomatch h
  rw [ofValues] at h
  split at h
  · exact nomatch h
  next hbounds =>
    cases h
    simp only [Bool.or_eq_true, decide_eq_true_eq, not_or, not_not] at hbounds
    obtain ⟨⟨hnonempty, -⟩, hlength⟩ := hbounds
    refine ⟨fun hnil => hnonempty (by rw [hnil]; rfl), ?_⟩
    have hsame := (List.destutter_sublist (· ≠ ·) _).eq_of_length hlength
    have hchain := List.isChain_destutter (· ≠ ·)
      (declared.mergeSort fun a b => decide (a ≤ b))
    rw [hsame] at hchain ⊢
    refine nodup_of_sorted ?_ hchain
    have hsorted : (declared.mergeSort fun a b => decide (a ≤ b)).Pairwise
        fun a b => decide (a ≤ b) = true :=
      List.pairwise_mergeSort
        (fun a b c hab hbc => by simpa using le_trans (of_decide_eq_true hab) (of_decide_eq_true hbc))
        (fun a b => by simpa using le_total a b) declared
    exact hsorted.imp of_decide_eq_true

/-- What overlaps covers some audience together. -/
theorem Overlaps.common {set set' : ProviderAudienceSet} (hset : set.Built) (hset' : set'.Built)
    (h : set.Overlaps set') :
    ∃ audience, set.supports audience = true ∧ set'.supports audience = true := by
  cases set with
  | any =>
    cases set' with
    | any => exact ⟨⟨"any", by decide⟩, rfl, rfl⟩
    | only covered =>
      obtain ⟨audience, hmem⟩ := List.exists_mem_of_ne_nil covered hset'.only.1
      exact ⟨audience, rfl, List.contains_iff_mem.mpr hmem⟩
  | only covered =>
    cases set' with
    | any =>
      obtain ⟨audience, hmem⟩ := List.exists_mem_of_ne_nil covered hset.only.1
      exact ⟨audience, List.contains_iff_mem.mpr hmem, rfl⟩
    | only covered' =>
      obtain ⟨audience, hmem, hmem'⟩ := h
      exact ⟨audience, List.contains_iff_mem.mpr hmem, List.contains_iff_mem.mpr hmem'⟩

end ProviderAudienceSet

namespace AccessIndex

open ProviderAudienceSet

/-- Two providers may be registered together. -/
def Apart (entry entry' : String × ProviderAudienceSet) : Prop :=
  entry.1 = entry'.1 → ¬ entry.2.Overlaps entry'.2

theorem Apart.symm {entry entry' : String × ProviderAudienceSet} (h : Apart entry entry') :
    Apart entry' entry := fun heq hover => h heq.symm hover.symm

variable {index : AccessIndex} {values : List (String × ProviderAudienceSet)} {selector : String}
  {audience : AudienceId}

theorem insertUnrestricted_of_apart (h : index.Indexes values) (position : ℕ)
    (hapart : ∀ audiences, (selector, audiences) ∉ values) :
    ∃ index', index.insertUnrestricted selector position = .ok index' := by
  have hwild : index.unrestrictedAccess.containsKey selector = false := by
    rw [Bool.eq_false_iff]
    intro hmem
    obtain ⟨position, hmem⟩ := BTreeMap.containsKey_iff.mp hmem
    exact hapart _ (List.mem_of_getElem? ((h.unrestricted selector position).mp hmem))
  have hexact : index.access.find? (fun entry => entry.2.containsKey selector) = none := by
    rw [List.find?_eq_none]
    rintro ⟨audience, bound⟩ hentry hmem
    obtain ⟨position, hmem⟩ := BTreeMap.containsKey_iff.mp hmem
    have hget := (BTreeMap.get_eq_some_iff h.audiences).mpr hentry
    have hbound : (selector, position) ∈ index.exact audience := by
      rw [exact, hget]
      exact hmem
    obtain ⟨covered, hat, -⟩ := (h.restricted audience selector position).mp hbound
    exact hapart _ (List.mem_of_getElem? hat)
  rw [insertUnrestricted, hwild, hexact]
  exact ⟨_, rfl⟩

/-- One more audience of a provider that is bound for the audiences before it. -/
theorem insertRestricted_of_apart {covered : List AudienceId}
    (h : index.Indexes (values ++ [(selector, .only covered)])) (position : ℕ)
    (hwild : (selector, ProviderAudienceSet.any) ∉ values)
    (hapart : ∀ covered', (selector, ProviderAudienceSet.only covered') ∈ values → audience ∉ covered')
    (hnew : audience ∉ covered) :
    ∃ index', index.insertRestricted selector position audience = .ok index' := by
  have hunrestricted : index.unrestrictedAccess.containsKey selector = false := by
    rw [Bool.eq_false_iff]
    intro hmem
    obtain ⟨position, hmem⟩ := BTreeMap.containsKey_iff.mp hmem
    rcases getElem?_concat.mp ((h.unrestricted selector position).mp hmem) with hat | ⟨-, heq⟩
    · exact hwild (List.mem_of_getElem? hat)
    · exact nomatch heq
  have hexact : (index.exact audience).containsKey selector = false := by
    rw [Bool.eq_false_iff]
    intro hmem
    obtain ⟨position, hmem⟩ := BTreeMap.containsKey_iff.mp hmem
    obtain ⟨covered', hat, hcovered⟩ := (h.restricted audience selector position).mp hmem
    rcases getElem?_concat.mp hat with hat | ⟨-, heq⟩
    · exact hapart covered' (List.mem_of_getElem? hat) hcovered
    · cases heq
      exact hnew hcovered
  rw [exact] at hexact
  rw [insertRestricted, hunrestricted]
  dsimp only
  rw [hexact]
  exact ⟨_, rfl⟩

theorem insertEach_of_apart (covered rest : List AudienceId)
    (h : index.Indexes (values ++ [(selector, .only covered)]))
    (hwild : (selector, ProviderAudienceSet.any) ∉ values)
    (hapart : ∀ covered', (selector, ProviderAudienceSet.only covered') ∈ values →
      ∀ audience ∈ rest, audience ∉ covered')
    (hnodup : (covered ++ rest).Nodup) :
    ∃ index', rest.foldlM (insertRestricted selector values.length) index = .ok index' := by
  induction rest generalizing covered index with
  | nil => exact ⟨index, rfl⟩
  | cons audience rest ih =>
    have hnew : audience ∉ covered := fun hmem =>
      (List.nodup_append.mp hnodup).2.2 audience hmem audience List.mem_cons_self rfl
    obtain ⟨next, hnext⟩ := insertRestricted_of_apart h values.length hwild
      (fun covered' hmem => hapart covered' hmem audience List.mem_cons_self) hnew
    obtain ⟨index', hrest⟩ := ih (covered ++ [audience]) (insertRestricted_indexes h hnext)
      (fun covered' hmem other hother => hapart covered' hmem other (List.mem_cons_of_mem _ hother))
      (by rwa [List.append_assoc, List.singleton_append])
    refine ⟨index', ?_⟩
    rw [List.foldlM_cons]
    exact Step.except_bind_ok.mpr ⟨next, hnext, hrest⟩

theorem insert_of_apart {audiences : ProviderAudienceSet} (h : index.Indexes values)
    (hbuilt : audiences.Built) (hapart : ∀ entry ∈ values, Apart entry (selector, audiences)) :
    ∃ index', index.insert audiences selector values.length = .ok index' := by
  cases audiences with
  | any =>
    refine insertUnrestricted_of_apart h values.length fun set hmem => hapart _ hmem rfl ?_
    cases set <;> trivial
  | only covered =>
    refine insertEach_of_apart [] covered h.unbound (fun hmem => hapart _ hmem rfl trivial) ?_
      hbuilt.only.2
    exact fun covered' hmem audience hcovered hcovered' =>
      hapart _ hmem rfl ⟨audience, hcovered', hcovered⟩

theorem build_of_apart (values rest : List (String × ProviderAudienceSet)) (h : index.Indexes values)
    (hbuilt : ∀ entry ∈ rest, entry.2.Built) (hapart : (values ++ rest).Pairwise Apart) :
    ∃ index', index.build values.length rest = .ok index' := by
  induction rest generalizing values index with
  | nil => exact ⟨index, rfl⟩
  | cons entry rest ih =>
    obtain ⟨selector, audiences⟩ := entry
    obtain ⟨next, hnext⟩ := insert_of_apart h (hbuilt _ List.mem_cons_self) fun entry hmem =>
      (List.pairwise_append.mp hapart).2.2 entry hmem _ List.mem_cons_self
    obtain ⟨index', hrest⟩ := ih (values ++ [(selector, audiences)]) (insert_indexes h hnext)
      (fun entry hmem => hbuilt entry (List.mem_cons_of_mem _ hmem))
      (by rwa [List.append_assoc, List.singleton_append])
    rw [List.length_append] at hrest
    exact ⟨index', Step.except_bind_ok.mpr ⟨next, hnext, hrest⟩⟩

/-- An index exists for apart providers only. -/
theorem Indexes.pairwise_apart (h : index.Indexes values) (hbuilt : ∀ entry ∈ values, entry.2.Built) :
    values.Pairwise Apart := by
  rw [List.pairwise_iff_getElem]
  intro i j hi hj hlt heq hover
  obtain ⟨audience, hsupports, hsupports'⟩ :=
    hover.common (hbuilt _ (List.getElem_mem hi)) (hbuilt _ (List.getElem_mem hj))
  have hfirst : values[i]? = some (values[i].1, values[i].2) := List.getElem?_eq_getElem hi
  have hsecond : values[j]? = some (values[i].1, values[j].2) := by
    rw [heq]
    exact List.getElem?_eq_getElem hj
  exact absurd (h.selector_unique hfirst hsupports hsecond hsupports') hlt.ne

end AccessIndex

theorem validateAccessSelectors_eq_ok {values : List (String × ProviderAudienceSet)} :
    validateAccessSelectors values = .ok () ↔ ∃ index, AccessIndex.empty.build 0 values = .ok index := by
  rw [validateAccessSelectors, Step.except_bind_ok]
  exact ⟨fun ⟨index, h, _⟩ => ⟨index, h⟩, fun ⟨index, h⟩ => ⟨index, h, rfl⟩⟩

theorem validateAccessSelectors_iff {values : List (String × ProviderAudienceSet)}
    (hbuilt : ∀ entry ∈ values, entry.2.Built) :
    validateAccessSelectors values = .ok () ↔ values.Pairwise AccessIndex.Apart := by
  rw [validateAccessSelectors_eq_ok]
  constructor
  · rintro ⟨index, h⟩
    exact (AccessIndex.build_indexes [] values AccessIndex.empty_indexes h).pairwise_apart hbuilt
  · exact AccessIndex.build_of_apart [] values AccessIndex.empty_indexes hbuilt

/-- Providers are accepted when no two with one selector overlap, in whatever order they come, and the
    index lists for an audience the positions of those that support it. -/
theorem access_selectors_are_exact {values : List (String × ProviderAudienceSet)}
    (hbuilt : ∀ entry ∈ values, entry.2.Built) :
    (validateAccessSelectors values = .ok () ↔ values.Pairwise fun entry entry' =>
      entry.1 = entry'.1 → ¬ entry.2.Overlaps entry'.2) ∧
    (∀ values', values.Perm values' →
      (validateAccessSelectors values' = .ok () ↔ validateAccessSelectors values = .ok ())) ∧
    (validateAccessSelectors values = .ok () →
      ∃ index, AccessIndex.empty.build 0 values = .ok index ∧ ∀ audience,
        (index.accessFor audience).Nodup ∧ ∀ position, position ∈ index.accessFor audience ↔
          ∃ selector audiences, values[position]? = some (selector, audiences) ∧
            audiences.supports audience = true) := by
  refine ⟨validateAccessSelectors_iff hbuilt, fun values' hperm => ?_, fun haccepted => ?_⟩
  · rw [validateAccessSelectors_iff hbuilt,
      validateAccessSelectors_iff fun entry hmem => hbuilt entry (hperm.mem_iff.mpr hmem)]
    exact (hperm.pairwise_iff fun h => h.symm).symm
  · obtain ⟨index, hindex⟩ := validateAccessSelectors_eq_ok.mp haccepted
    have hindexes := AccessIndex.build_indexes [] values AccessIndex.empty_indexes hindex
    exact ⟨index, hindex, fun audience => ⟨hindexes.nodup_accessFor, fun _ => hindexes.mem_accessFor⟩⟩

/-- One selector for two audiences, and another for any. -/
def threeProviders : List (String × ProviderAudienceSet) :=
  [("cookie sid", .only [⟨"api", by decide⟩]), ("header authorization", .any),
    ("cookie sid", .only [⟨"web", by decide⟩])]

theorem threeProviders_are_indexed : ∃ index, AccessIndex.empty.build 0 threeProviders = .ok index ∧
    (index.accessFor ⟨"web", by decide⟩).Nodup ∧ 2 ∈ index.accessFor ⟨"web", by decide⟩ := by
  have hone : ∀ audience : AudienceId, (ProviderAudienceSet.only [audience]).Built := fun audience =>
    .inr ⟨[audience], by simp [ProviderAudienceSet.ofValues]⟩
  have hbuilt : ∀ entry ∈ threeProviders, entry.2.Built := by
    simp only [threeProviders, List.forall_mem_cons]
    exact ⟨hone _, .inl rfl, hone _, fun _ hmem => (nomatch hmem)⟩
  have hapart : threeProviders.Pairwise fun entry entry' =>
      entry.1 = entry'.1 → ¬ entry.2.Overlaps entry'.2 := by
    refine .cons ?_ (.cons ?_ (.cons (fun _ hmem => (nomatch hmem)) .nil))
    · simp only [List.forall_mem_cons]
      refine ⟨fun heq => absurd heq (by decide), fun _ => ?_, fun _ hmem => (nomatch hmem)⟩
      rintro ⟨audience, hmem, hmem'⟩
      have hsame := (List.mem_singleton.mp hmem).symm.trans (List.mem_singleton.mp hmem')
      exact absurd (congrArg Subtype.val hsame) (by decide)
    · simp only [List.forall_mem_cons]
      exact ⟨fun heq => absurd heq (by decide), fun _ hmem => (nomatch hmem)⟩
  obtain ⟨haccepts, -, hlists⟩ := access_selectors_are_exact hbuilt
  obtain ⟨index, hindex, hlisted⟩ := hlists (haccepts.mpr hapart)
  refine ⟨index, hindex, (hlisted _).1, ((hlisted _).2 2).mpr ⟨_, _, rfl, ?_⟩⟩
  exact List.contains_iff_mem.mpr List.mem_cons_self

end Vyuh.Auth
