import Mathlib

/-! Insertion sort and filters. Sorting is stable, so it commutes with dropping elements: what is left
    of a sorted list is the sorted list of what is left (`filter_insertionSort`). -/

namespace Lib

variable {α : Type} {r : α → α → Prop} [DecidableRel r]

/-- An element no later than every element of a list goes to its front. -/
theorem orderedInsert_of_forall {a : α} {l : List α} (h : ∀ b ∈ l, r a b) : l.orderedInsert r a = a :: l := by
  cases l with
  | nil => rfl
  | cons b l => exact List.orderedInsert_cons_of_le r l (h b List.mem_cons_self)

theorem filter_orderedInsert [IsTrans α r] (p : α → Bool) (a : α) {l : List α} (hl : l.Pairwise r) :
    (l.orderedInsert r a).filter p =
      if p a then (l.filter p).orderedInsert r a else l.filter p := by
  induction l with
  | nil => cases hp : p a <;> simp [hp]
  | cons b l ih =>
    obtain ⟨hb, hl⟩ := List.pairwise_cons.mp hl
    by_cases hab : r a b
    · -- `a` comes first, and stays first whatever is dropped behind it
      have hall : ∀ c ∈ (b :: l).filter p, r a c := by
        intro c hc
        obtain rfl | hc := List.mem_cons.mp (List.mem_filter.mp hc).1
        · exact hab
        · exact trans_of r hab (hb c hc)
      rw [List.orderedInsert_cons_of_le r l hab, orderedInsert_of_forall hall, List.filter_cons]
    · rw [List.orderedInsert_of_not_le r l hab, List.filter_cons, ih hl]
      cases hpb : p b with
      | false => simp [hpb]
      | true =>
        cases hpa : p a with
        | false => simp [hpb]
        | true => simp [hpb, hab]

/-- Sorting commutes with a filter. -/
theorem filter_insertionSort [IsTrans α r] [Std.Total r] (p : α → Bool) (l : List α) :
    (l.insertionSort r).filter p = (l.filter p).insertionSort r := by
  induction l with
  | nil => rfl
  | cons a l ih =>
    rw [List.insertionSort_cons, filter_orderedInsert p a (List.pairwise_insertionSort r l), ih]
    cases hp : p a <;> simp [hp]

/-- Two relations that agree on a list sort it alike. -/
theorem insertionSort_congr {r' : α → α → Prop} [DecidableRel r'] {l : List α}
    (h : ∀ a ∈ l, ∀ b ∈ l, r a b ↔ r' a b) : l.insertionSort r = l.insertionSort r' := by
  have hmap := List.map_insertionSort r r' id l h
  simpa using hmap

/-- A sorted list with no two equal neighbours has no two equal elements. -/
theorem nodup_of_sorted {α : Type} [LinearOrder α] : ∀ {l : List α}, l.Pairwise (· ≤ ·) →
    l.IsChain (· ≠ ·) → l.Nodup
  | [], _, _ => .nil
  | [a], _, _ => List.nodup_singleton a
  | a :: b :: l, hsorted, hchain => by
    obtain ⟨hle, hsorted⟩ := List.pairwise_cons.mp hsorted
    obtain ⟨hne, hchain⟩ := List.isChain_cons_cons.mp hchain
    refine List.nodup_cons.mpr ⟨fun hmem => ?_, nodup_of_sorted hsorted hchain⟩
    have hback : b ≤ a := by
      rcases List.mem_cons.mp hmem with rfl | hmem
      · exact le_refl _
      · exact (List.pairwise_cons.mp hsorted).1 a hmem
    exact hne (le_antisymm (hle b List.mem_cons_self) hback)

end Lib
