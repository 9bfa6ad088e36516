import Mathlib

/-! Maps that are iterated in key order, as the list of their entries. -/

namespace Lib

variable {κ υ : Type} [LinearOrder κ]

/-- The entries of a map by ascending key. -/
abbrev BTreeMap (κ υ : Type) := List (κ × υ)

namespace BTreeMap

def get (map : BTreeMap κ υ) (key : κ) : Option υ :=
  (map.find? fun entry => entry.1 = key).map Prod.snd

def containsKey (map : BTreeMap κ υ) (key : κ) : Bool := map.any fun entry => entry.1 = key

def insert (map : BTreeMap κ υ) (key : κ) (value : υ) : BTreeMap κ υ :=
  (map.filter fun entry => entry.1 ≠ key).orderedInsert (fun a b => a.1 ≤ b.1) (key, value)

def values (map : BTreeMap κ υ) : List υ := map.map Prod.snd

def keys (map : BTreeMap κ υ) : List κ := map.map Prod.fst

theorem mem_insert {map : BTreeMap κ υ} {key : κ} {value : υ} {entry : κ × υ} :
    entry ∈ map.insert key value ↔ entry = (key, value) ∨ entry ∈ map ∧ entry.1 ≠ key := by
  simp [insert, List.mem_orderedInsert]

theorem containsKey_iff {map : BTreeMap κ υ} {key : κ} :
    map.containsKey key = true ↔ ∃ value, (key, value) ∈ map := by
  simp only [containsKey, List.any_eq_true, decide_eq_true_eq]
  constructor
  · rintro ⟨⟨k, value⟩, hmem, rfl⟩
    exact ⟨value, hmem⟩
  · rintro ⟨value, hmem⟩
    exact ⟨(key, value), hmem, rfl⟩

theorem nodup_keys_insert {map : BTreeMap κ υ} (h : map.keys.Nodup) (key : κ) (value : υ) :
    (map.insert key value).keys.Nodup := by
  have hperm := ((List.perm_orderedInsert (fun a b : κ × υ => a.1 ≤ b.1) (key, value)
    (map.filter fun entry => entry.1 ≠ key)).map Prod.fst)
  refine hperm.nodup_iff.mpr (List.nodup_cons.mpr ⟨?_, ?_⟩)
  · intro hmem
    obtain ⟨entry, hentry, heq⟩ := List.mem_map.mp hmem
    exact (of_decide_eq_true (List.mem_filter.mp hentry).2) heq
  · exact h.sublist (List.filter_sublist.map Prod.fst)

/-- With distinct keys, a key is bound to what it is listed with. -/
theorem get_eq_some_iff {map : BTreeMap κ υ} (h : map.keys.Nodup) {key : κ} {value : υ} :
    map.get key = some value ↔ (key, value) ∈ map := by
  induction map with
  | nil => simp [get]
  | cons entry rest ih =>
    obtain ⟨k, v⟩ := entry
    obtain ⟨hnew, hrest⟩ := List.nodup_cons.mp h
    have hih := ih hrest
    rw [get] at hih ⊢
    by_cases hk : k = key
    · subst hk
      have hnot : (k, value) ∉ rest := fun hmem => hnew (List.mem_map.mpr ⟨_, hmem, rfl⟩)
      simp [hnot, eq_comm]
    · have hne : (key, value) ≠ (k, v) := fun heq => hk (congrArg Prod.fst heq).symm
      simp [hk, hih, hne]

theorem value_unique {map : BTreeMap κ υ} (h : map.keys.Nodup) {key : κ} {value other : υ}
    (hvalue : (key, value) ∈ map) (hother : (key, other) ∈ map) : value = other := by
  have hget := (get_eq_some_iff h).mpr hvalue
  rw [(get_eq_some_iff h).mpr hother] at hget
  exact (Option.some.inj hget).symm

omit [LinearOrder κ] in
/-- With distinct keys, values are distinct where each is listed under one key. -/
theorem nodup_values {map : BTreeMap κ υ} (h : map.keys.Nodup)
    (hkey : ∀ key other value, (key, value) ∈ map → (other, value) ∈ map → key = other) :
    map.values.Nodup := by
  refine List.Nodup.map_on ?_ (List.Nodup.of_map Prod.fst h)
  rintro ⟨key, value⟩ hmem ⟨other, value'⟩ hother (rfl : value = value')
  rw [hkey key other value hmem hother]

theorem get_insert {map : BTreeMap κ υ} (h : map.keys.Nodup) (key other : κ) (value : υ) :
    (map.insert key value).get other = if other = key then some value else map.get other := by
  have hkeys := nodup_keys_insert h key value
  split
  next heq =>
    subst heq
    exact (get_eq_some_iff hkeys).mpr (mem_insert.mpr (.inl rfl))
  next hne =>
    refine Option.ext fun v => ?_
    rw [get_eq_some_iff hkeys, get_eq_some_iff h, mem_insert]
    simp [hne]

/-- A new key adds an entry to those there are. -/
theorem insert_perm {map : BTreeMap κ υ} {key : κ} (h : ¬ map.containsKey key = true) (value : υ) :
    (map.insert key value).Perm ((key, value) :: map) := by
  have hnew : map.filter (fun entry => entry.1 ≠ key) = map := by
    refine List.filter_eq_self.mpr fun entry hm => decide_eq_true fun heq => h ?_
    exact containsKey_iff.mpr ⟨entry.2, heq ▸ hm⟩
  rw [insert, hnew]
  exact List.perm_orderedInsert _ _ _

/-! ### Maps that are sorted -/

/-- Keys ascend, which every map has that insertions made. -/
def Sorted (map : BTreeMap κ υ) : Prop := map.Pairwise fun a b => a.1 < b.1

theorem Sorted.nodup_keys {map : BTreeMap κ υ} (h : map.Sorted) : map.keys.Nodup :=
  List.pairwise_map.mpr (h.imp fun hlt => hlt.ne)

theorem Sorted.orderedInsert {key : κ} {value : υ} : ∀ {rest : BTreeMap κ υ}, Sorted rest →
    (∀ entry ∈ rest, entry.1 ≠ key) → Sorted (rest.orderedInsert (fun a b => a.1 ≤ b.1) (key, value))
  | [], _, _ => List.pairwise_singleton _ _
  | entry :: rest, h, hne => by
    obtain ⟨hfirst, hsorted⟩ := List.pairwise_cons.mp h
    obtain ⟨hentry, hrest⟩ := List.forall_mem_cons.mp hne
    rw [List.orderedInsert_cons]
    split
    next hle =>
      have hlt : key < entry.1 := lt_of_le_of_ne hle hentry.symm
      refine List.pairwise_cons.mpr ⟨fun other hother => ?_, h⟩
      rcases List.mem_cons.mp hother with rfl | hm
      · exact hlt
      · exact hlt.trans (hfirst other hm)
    next hgt =>
      refine List.pairwise_cons.mpr ⟨fun other hother => ?_, Sorted.orderedInsert hsorted hrest⟩
      rcases (List.mem_orderedInsert _).mp hother with rfl | hm
      · exact not_le.mp hgt
      · exact hfirst other hm

theorem Sorted.insert {map : BTreeMap κ υ} (h : map.Sorted) (key : κ) (value : υ) :
    Sorted (map.insert key value) :=
  Sorted.orderedInsert (h.sublist List.filter_sublist) fun _ hm => of_decide_eq_true (List.mem_filter.mp hm).2

/-- Two sorted maps with the same entries are the same map. -/
theorem Sorted.ext {map other : BTreeMap κ υ} (h : map.Sorted) (h' : other.Sorted)
    (hmem : ∀ entry, entry ∈ map ↔ entry ∈ other) : map = other := by
  have hnodup : ∀ {m : BTreeMap κ υ}, m.Sorted → m.Nodup := fun hm => List.Nodup.of_map _ hm.nodup_keys
  have hperm : map.Perm other := (List.perm_ext_iff_of_nodup (hnodup h) (hnodup h')).mpr hmem
  exact hperm.eq_of_pairwise (fun a b _ _ hab hba => absurd hba hab.not_gt) h h'

/-- Values inserted under the keys they carry, one after the other. -/
theorem mem_foldl_insert {key : υ → κ} {values : List υ} (h : (values.map key).Nodup) :
    ∀ {map : BTreeMap κ υ} {k : κ} {v : υ},
      (k, v) ∈ values.foldl (fun map value => map.insert (key value) value) map ↔
        v ∈ values ∧ key v = k ∨ (k, v) ∈ map ∧ ∀ other ∈ values, key other ≠ k := by
  induction values with
  | nil => simp
  | cons value values ih =>
    intro map k v
    obtain ⟨hnew, hrest⟩ := List.nodup_cons.mp h
    rw [List.foldl_cons, ih hrest, mem_insert, Prod.mk.injEq, List.mem_cons, List.forall_mem_cons]
    constructor
    · rintro (⟨hv, hk⟩ | ⟨⟨rfl, rfl⟩ | ⟨hm, hne⟩, hothers⟩)
      · exact .inl ⟨.inr hv, hk⟩
      · exact .inl ⟨.inl rfl, rfl⟩
      · exact .inr ⟨hm, Ne.symm hne, hothers⟩
    · rintro (⟨rfl | hv, hk⟩ | ⟨hm, hne, hothers⟩)
      · refine .inr ⟨.inl ⟨hk.symm, rfl⟩, fun other hother heq => hnew ?_⟩
        exact List.mem_map.mpr ⟨other, hother, heq.trans hk.symm⟩
      · exact .inl ⟨hv, hk⟩
      · exact .inr ⟨.inr ⟨hm, Ne.symm hne⟩, hothers⟩

theorem Sorted.foldl_insert {key : υ → κ} : ∀ (values : List υ) {map : BTreeMap κ υ}, map.Sorted →
    (values.foldl (fun map value => map.insert (key value) value) map).Sorted
  | [], _, h => h
  | _ :: values, _, h => Sorted.foldl_insert values (h.insert _ _)

end BTreeMap

end Lib
