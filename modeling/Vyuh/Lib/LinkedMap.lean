import Vyuh.Lib.Dict

/-! Linked hash maps: a `Dict` whose entries keep the order in which their keys were last inserted.
    `pushBack` inserts behind every entry and `popFront` takes the front one. `Stamped` says that the
    order of the entries is the order of a clock over their keys, so that the front entry is the one
    inserted longest ago. -/

namespace Lib

namespace Dict

variable {κ υ : Type}

/-- `LinkedHashMap::pop_front`. -/
def popFront : Dict κ υ → Option ((κ × υ) × Dict κ υ)
  | ⟨[], _⟩ => none
  | ⟨e :: es, h⟩ => some ((e.1, e.2), ⟨es, (List.nodupKeys_cons.mp h).2⟩)

/-- The entries stand in the order of a clock, which has not passed `now`. -/
structure Stamped (clock : κ → ℕ) (now : ℕ) (d : Dict κ υ) : Prop where
  sorted : d.toList.Pairwise fun a b => clock a.1 < clock b.1
  past : ∀ e ∈ d.toList, clock e.1 ≤ now

/-! ### Taking the front -/

theorem toList_of_popFront {d rest : Dict κ υ} {e : κ × υ} (h : popFront d = some (e, rest)) :
    d.toList = e :: rest.toList := by
  obtain ⟨_ | ⟨a, es⟩, hd⟩ := d
  · simp [popFront] at h
  · simp only [popFront, Option.some.injEq, Prod.mk.injEq] at h
    obtain ⟨rfl, rfl⟩ := h
    rfl

theorem weigh_of_popFront (w : υ → ℕ) {d rest : Dict κ υ} {e : κ × υ}
    (h : popFront d = some (e, rest)) : weigh w d = w e.2 + weigh w rest := by
  obtain ⟨_ | ⟨a, es⟩, hd⟩ := d
  · simp [popFront] at h
  · simp only [popFront, Option.some.injEq, Prod.mk.injEq] at h
    obtain ⟨rfl, rfl⟩ := h
    simp [weigh]

theorem size_of_popFront {d rest : Dict κ υ} {e : κ × υ} (h : popFront d = some (e, rest)) :
    size d = size rest + 1 := by
  have hlist := congrArg List.length (toList_of_popFront h)
  simpa [toList, size] using hlist

/-- Only an empty map has no front. -/
theorem popFront_eq_none {d : Dict κ υ} (h : popFront d = none) : d = ∅ := by
  obtain ⟨_ | ⟨a, es⟩, hd⟩ := d
  · rfl
  · simp [popFront] at h

namespace Stamped

variable {clock clock' : κ → ℕ} {now now' : ℕ} {d : Dict κ υ}

theorem empty : Stamped clock now (∅ : Dict κ υ) := ⟨.nil, fun _ h => (nomatch h)⟩

/-- The front entry was inserted before every other one. -/
theorem popFront {e : κ × υ} {rest : Dict κ υ} (h : Stamped clock now d)
    (hpop : d.popFront = some (e, rest)) :
    Stamped clock now rest ∧ ∀ e' ∈ rest.toList, clock e.1 < clock e'.1 := by
  obtain ⟨hsorted, hpast⟩ := h
  rw [toList_of_popFront hpop] at hsorted hpast
  obtain ⟨hfront, hrest⟩ := List.pairwise_cons.mp hsorted
  exact ⟨⟨hrest, fun e' he => hpast e' (List.mem_cons_of_mem _ he)⟩, hfront⟩

/-- A later clock that agrees on the keys of the map keeps its order. -/
theorem congr (h : Stamped clock now d) (hnow : now ≤ now')
    (hsame : ∀ e ∈ d.toList, clock' e.1 = clock e.1) : Stamped clock' now' d := by
  refine ⟨h.sorted.imp_of_mem fun ha hb hlt => ?_, fun e he => ?_⟩
  · rw [hsame _ ha, hsame _ hb]
    exact hlt
  · rw [hsame e he]
    exact (h.past e he).trans hnow

end Stamped

/-! ### Erasing and inserting -/

variable [DecidableEq κ]

/-- `LinkedHashMap::insert`: the entry moves behind every other. -/
def pushBack (d : Dict κ υ) (k : κ) (v : υ) : Dict κ υ :=
  ⟨(d.erase k).entries ++ [⟨k, v⟩], by
    have hk : k ∉ (d.erase k).entries.keys := fun h => (AList.mem_erase.mp h).1 rfl
    rw [List.nodupKeys_iff_pairwise, List.pairwise_append]
    refine ⟨List.nodupKeys_iff_pairwise.mp (d.erase k).nodupKeys, by simp, ?_⟩
    intro a ha b hb heq
    have hmem : a.1 ∈ (d.erase k).entries.keys := List.mem_keys_of_mem ha
    rw [heq, List.mem_singleton.mp hb] at hmem
    exact hk hmem⟩

theorem toList_pushBack (d : Dict κ υ) (k : κ) (v : υ) :
    (pushBack d k v).toList = toList (d.erase k) ++ [(k, v)] := by
  simp [pushBack, toList]

theorem weigh_pushBack (w : υ → ℕ) (d : Dict κ υ) (k : κ) (v : υ) :
    weigh w (pushBack d k v) = weigh w (d.erase k) + w v := by
  simp [pushBack, weigh]

theorem erase_toList_sublist (d : Dict κ υ) (k : κ) : (toList (d.erase k)).Sublist d.toList :=
  (List.kerase_sublist k d.entries).map _

theorem mem_toList_erase {d : Dict κ υ} {k j : κ} {v : υ} :
    (j, v) ∈ toList (d.erase k) ↔ j ≠ k ∧ (j, v) ∈ d.toList := by
  rw [mem_toList, mem_toList, lookup_erase_apply]
  split
  · next h => simp [h]
  · next h => simp [h]

namespace Stamped

variable {clock : κ → ℕ} {now : ℕ} {d : Dict κ υ}

theorem erase (h : Stamped clock now d) (k : κ) : Stamped clock now (d.erase k) := by
  have hsub := erase_toList_sublist d k
  exact ⟨h.sorted.sublist hsub, fun e he => h.past e (hsub.subset he)⟩

/-- Inserting a key stamps it as the latest one. -/
theorem pushBack (h : Stamped clock now d) (k : κ) (v : υ) :
    Stamped (Function.update clock k (now + 1)) (now + 1) (d.pushBack k v) := by
  have hother : ∀ e ∈ toList (d.erase k), Function.update clock k (now + 1) e.1 = clock e.1 := by
    rintro ⟨j, u⟩ he
    exact Function.update_of_ne (mem_toList_erase.mp he).1 ..
  have hkeep := (h.erase k).congr (Nat.le_succ now) hother
  constructor
  · rw [toList_pushBack, List.pairwise_append]
    refine ⟨hkeep.sorted, List.pairwise_singleton .., fun a ha b hb => ?_⟩
    obtain rfl := List.mem_singleton.mp hb
    have hpast := (h.erase k).past a ha
    rw [hother a ha, Function.update_self]
    omega
  · intro e he
    rw [toList_pushBack, List.mem_append, List.mem_singleton] at he
    rcases he with he | rfl
    · exact hkeep.past e he
    · simp

end Stamped

end Dict

end Lib
