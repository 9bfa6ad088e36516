import Mathlib

/-! Forests by their parent links. A node's chain leads up to a root; a walk up takes as many steps as the chain is long,
    and a forest that is hung below a node of another lengthens the chains of its own nodes and no others. -/

namespace Lib.Forest

variable {α : Type*} {parents parents' : α → Option α} {node root : α} {up up' : List α}

/-- The nodes from here up to the root. -/
inductive Climbs (parents : α → Option α) : α → List α → Prop
  | root {node : α} : parents node = none → Climbs parents node [node]
  | step {node parent : α} {up : List α} : parents node = some parent → Climbs parents parent up →
    Climbs parents node (node :: up)

/-- The walk up, in at most so many steps. -/
def climb (parents : α → Option α) : ℕ → α → Option (List α)
  | 0, _ => none
  | steps + 1, node =>
    match parents node with
    | none => some [node]
    | some parent => (climb parents steps parent).map (node :: ·)

/-- The walk up that stops at a node it looks for. -/
def reaches [DecidableEq α] (parents : α → Option α) (root : α) : ℕ → α → Option Bool
  | 0, _ => none
  | steps + 1, node =>
    if node = root then some true
    else
      match parents node with
      | none => some false
      | some parent => reaches parents root steps parent

namespace Climbs

theorem unique (h : Climbs parents node up) (h' : Climbs parents node up') : up = up' := by
  induction h generalizing up' with
  | root hnone =>
    cases h' with
    | root _ => rfl
    | step hsome _ =>
      rw [hnone] at hsome
      cases hsome
  | step hsome _ ih =>
    cases h' with
    | root hnone =>
      rw [hnone] at hsome
      cases hsome
    | step hsome' h' =>
      rw [hsome] at hsome'
      cases hsome'
      rw [ih h']

theorem climb_eq (h : Climbs parents node up) {steps : ℕ} (hsteps : up.length ≤ steps) :
    climb parents steps node = some up := by
  induction h generalizing steps with
  | @root node hnone =>
    obtain ⟨more, rfl⟩ : ∃ more, steps = more + 1 := Nat.exists_eq_add_of_le' hsteps
    rw [climb, hnone]
  | @step node parent up hsome _ ih =>
    obtain ⟨more, rfl⟩ : ∃ more, steps = more + 1 := Nat.exists_eq_add_of_le' ((Nat.le_add_left 1 _).trans hsteps)
    rw [climb, hsome]
    dsimp only
    rw [ih (Nat.le_of_succ_le_succ hsteps), Option.map_some]

theorem reaches_eq [DecidableEq α] (h : Climbs parents node up) (root : α) {steps : ℕ} (hsteps : up.length ≤ steps) :
    reaches parents root steps node = some (decide (root ∈ up)) := by
  induction h generalizing steps with
  | @root node hnone =>
    obtain ⟨more, rfl⟩ : ∃ more, steps = more + 1 := Nat.exists_eq_add_of_le' hsteps
    rw [reaches, hnone]
    by_cases hroot : node = root
    · simp [hroot]
    · simp [hroot, Ne.symm hroot]
  | @step node parent up hsome _ ih =>
    obtain ⟨more, rfl⟩ : ∃ more, steps = more + 1 := Nat.exists_eq_add_of_le' ((Nat.le_add_left 1 _).trans hsteps)
    rw [reaches, hsome]
    dsimp only
    rw [ih (Nat.le_of_succ_le_succ hsteps)]
    by_cases hroot : node = root
    · simp [hroot]
    · simp [hroot, Ne.symm hroot]

/-- A chain stays where its links do. -/
theorem congr (h : Climbs parents node up) (hagree : ∀ other ∈ up, parents' other = parents other) :
    Climbs parents' node up := by
  induction h with
  | @root node hnone => exact .root (by rw [hagree node List.mem_cons_self, hnone])
  | @step node parent up hsome _ ih =>
    refine .step (by rw [hagree node List.mem_cons_self, hsome]) (ih fun other hmem => ?_)
    exact hagree other (List.mem_cons_of_mem _ hmem)

/-- A root that is given a parent lengthens the chains below it. -/
theorem graft (h : Climbs parents node up) (hagree : ∀ other ∈ up, parents other ≠ none → parents' other = parents other)
    (hroots : ∀ other ∈ up, parents other = none → parents' other = some root) (hup : Climbs parents' root up') :
    Climbs parents' node (up ++ up') := by
  induction h with
  | @root node hnone => exact .step (hroots node List.mem_cons_self hnone) hup
  | @step node parent up hsome _ ih =>
    have hparent : parents' node = some parent := by
      rw [hagree node List.mem_cons_self (by rw [hsome]; exact Option.some_ne_none _), hsome]
    refine .step hparent (ih ?_ ?_)
    · exact fun other hmem => hagree other (List.mem_cons_of_mem _ hmem)
    · exact fun other hmem => hroots other (List.mem_cons_of_mem _ hmem)

/-- The chain of a node further up is the rest of the chain. -/
theorem suffix_of_mem (h : Climbs parents node up) {other : α} (hmem : other ∈ up) :
    ∃ below rest, up = below ++ other :: rest ∧ Climbs parents other (other :: rest) := by
  induction h with
  | @root node hnone =>
    obtain rfl := List.mem_singleton.mp hmem
    exact ⟨[], [], rfl, .root hnone⟩
  | @step node parent up hsome h ih =>
    rcases List.mem_cons.mp hmem with rfl | hmem
    · exact ⟨[], up, rfl, .step hsome h⟩
    · obtain ⟨below, rest, rfl, hrest⟩ := ih hmem
      exact ⟨node :: below, rest, rfl, hrest⟩

end Climbs

end Lib.Forest
