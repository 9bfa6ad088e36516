import Mathlib

/-! `while` loops over a state. `turn` is one pass through the loop, `none` when its condition stops
    it. `Loop turn s n s'` is the loop itself, ending in `s'` after `n` passes; `loop` runs it for a
    bounded number of passes, which is the loop when a measure falls with every pass (`Loop.ends`). -/

namespace Lib

variable {σ : Type} {turn : σ → Option σ}

/-- `while let Some(next) = turn(s) { s = next; }`, with the number of its passes. -/
inductive Loop (turn : σ → Option σ) : σ → ℕ → σ → Prop
  | stop {s : σ} (h : turn s = none) : Loop turn s 0 s
  | pass {s s' s'' : σ} {n : ℕ} (h : turn s = some s') (rest : Loop turn s' n s'') :
      Loop turn s (n + 1) s''

/-- The loop for at most the given number of passes. -/
def loop (turn : σ → Option σ) : ℕ → σ → σ
  | 0, s => s
  | fuel + 1, s =>
    match turn s with
    | none => s
    | some s' => loop turn fuel s'

/-- A measure that falls with every pass bounds the passes. -/
theorem Loop.ends {μ : σ → ℕ} (hμ : ∀ s s', turn s = some s' → μ s' < μ s) :
    ∀ (fuel : ℕ) (s : σ), μ s ≤ fuel → ∃ n, n ≤ μ s ∧ Loop turn s n (loop turn fuel s)
  | 0, s, h => by
    refine ⟨0, Nat.zero_le _, .stop ?_⟩
    cases hs : turn s with
    | none => rfl
    | some s' => exact absurd (hμ s s' hs) (by omega)
  | fuel + 1, s, h => by
    cases hs : turn s with
    | none => exact ⟨0, Nat.zero_le _, by simpa [loop, hs] using .stop hs⟩
    | some s' =>
      have hlt := hμ s s' hs
      obtain ⟨n, hn, hloop⟩ := Loop.ends hμ fuel s' (by omega)
      exact ⟨n + 1, by omega, by simpa [loop, hs] using .pass hs hloop⟩

/-- What every pass preserves holds at the end, where the loop's condition has stopped it. -/
theorem Loop.inv {I : σ → Prop} (hpass : ∀ s s', I s → turn s = some s' → I s') {s s' : σ} {n : ℕ}
    (h : Loop turn s n s') (hs : I s) : I s' ∧ turn s' = none := by
  induction h with
  | stop hstop => exact ⟨hs, hstop⟩
  | pass hturn rest ih => exact ih (hpass _ _ hs hturn)

end Lib
