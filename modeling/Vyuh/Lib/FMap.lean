import Mathlib

/-! Finite-map operations on `κ → Option υ`. Hash maps are read by key only, so two maps with the
    same entries are the same map; the lemmas are Mathlib's for `Function.update`. -/

namespace Lib

/-- A map from keys to values, as a partial function. -/
abbrev FMap (κ υ : Type) := κ → Option υ

namespace FMap

variable {κ υ : Type} [DecidableEq κ]

def empty : FMap κ υ := fun _ => none

def insert (m : FMap κ υ) (k : κ) (v : υ) : FMap κ υ := Function.update m k (some v)

def remove (m : FMap κ υ) (k : κ) : FMap κ υ := Function.update m k none

/-- `entry(k).or_insert(v)`: an entry that is there stays. -/
def orInsert (m : FMap κ υ) (k : κ) (v : υ) : FMap κ υ := insert m k ((m k).getD v)

/-- `contains_key`. -/
def contains (m : FMap κ υ) (k : κ) : Bool := (m k).isSome

@[simp] theorem insert_self (m : FMap κ υ) (k : κ) (v : υ) : insert m k v k = some v :=
  Function.update_self ..

theorem insert_of_ne (m : FMap κ υ) {k j : κ} (v : υ) (h : j ≠ k) : insert m k v j = m j :=
  Function.update_of_ne h ..

@[simp] theorem remove_self (m : FMap κ υ) (k : κ) : remove m k k = none :=
  Function.update_self ..

theorem remove_of_ne (m : FMap κ υ) {k j : κ} (h : j ≠ k) : remove m k j = m j :=
  Function.update_of_ne h ..

theorem insert_apply (m : FMap κ υ) (k j : κ) (v : υ) :
    insert m k v j = if j = k then some v else m j := by
  rw [insert, Function.update_apply]

theorem remove_apply (m : FMap κ υ) (k j : κ) : remove m k j = if j = k then none else m j := by
  rw [remove, Function.update_apply]

/-- Taking an entry out and putting a new one back only changes that entry. -/
@[simp] theorem insert_remove (m : FMap κ υ) (k : κ) (v : υ) :
    insert (remove m k) k v = insert m k v :=
  Function.update_idem ..

end FMap

end Lib
