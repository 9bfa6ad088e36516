import Mathlib

/-! Runs of a labelled transition relation. `Run step s ls s'` takes one step per label of `ls`. What
    every step preserves, every run preserves (`Run.inv`). -/

namespace Lib

variable {σ ι : Type} {step : σ → ι → σ → Prop}

/-- A finite run, one step per label. -/
inductive Run (step : σ → ι → σ → Prop) : σ → List ι → σ → Prop
  | nil (s : σ) : Run step s [] s
  | cons {s s' s'' : σ} {l : ι} {ls : List ι} (first : step s l s') (rest : Run step s' ls s'') :
      Run step s (l :: ls) s''

/-- A state some run from an initial state reaches. -/
def Reachable (init : σ → Prop) (step : σ → ι → σ → Prop) (s : σ) : Prop :=
  ∃ s₀ ls, init s₀ ∧ Run step s₀ ls s

theorem Run.single {s s' : σ} {l : ι} (h : step s l s') : Run step s [l] s' := .cons h (.nil s')

theorem Run.append {s s' s'' : σ} {ls ls' : List ι} (h : Run step s ls s') (h' : Run step s' ls' s'') :
    Run step s (ls ++ ls') s'' := by
  induction h with
  | nil s => exact h'
  | cons first rest ih => exact .cons first (ih h')

/-- A run over two pieces stops between them. -/
theorem Run.split : ∀ {ls ls' : List ι} {s s'' : σ}, Run step s (ls ++ ls') s'' →
    ∃ s', Run step s ls s' ∧ Run step s' ls' s''
  | [], _, s, _, h => ⟨s, .nil s, h⟩
  | _ :: _, _, _, _, .cons first rest => by
    obtain ⟨s', h, h'⟩ := Run.split rest
    exact ⟨s', .cons first h, h'⟩

/-- A run whose labels all satisfy a condition is a run of the steps that do. -/
theorem Run.restrict {P : ι → Prop} {s s' : σ} {ls : List ι} (h : Run step s ls s') (hP : ∀ l ∈ ls, P l) :
    Run (fun s l s' => P l ∧ step s l s') s ls s' := by
  induction h with
  | nil s => exact .nil s
  | cons first rest ih =>
    refine .cons ⟨hP _ List.mem_cons_self, first⟩ (ih fun l hl => ?_)
    exact hP l (List.mem_cons_of_mem _ hl)

/-- What every step preserves holds at the end of a run. -/
theorem Run.inv {I : σ → Prop} (hstep : ∀ s l s', I s → step s l s' → I s') {s s' : σ} {ls : List ι}
    (h : Run step s ls s') (hs : I s) : I s' := by
  induction h with
  | nil s => exact hs
  | cons first rest ih => exact ih (hstep _ _ _ hs first)

/-- What every step from a state of the invariant has for its label, all labels of a run have. -/
theorem Run.labels {I : σ → Prop} {P : ι → Prop} (hstep : ∀ s l s', I s → step s l s' → I s' ∧ P l)
    {s s' : σ} {ls : List ι} (h : Run step s ls s') (hs : I s) : ∀ l ∈ ls, P l := by
  induction h with
  | nil s => exact fun _ hmem => nomatch hmem
  | cons first rest ih =>
    obtain ⟨hnext, hlabel⟩ := hstep _ _ _ hs first
    exact List.forall_mem_cons.mpr ⟨hlabel, ih hnext⟩

/-- What holds initially and is preserved by every step holds in every reachable state. -/
theorem Reachable.inv {init : σ → Prop} {I : σ → Prop} (hinit : ∀ s, init s → I s)
    (hstep : ∀ s l s', I s → step s l s' → I s') {s : σ} (h : Reachable init step s) : I s := by
  obtain ⟨s₀, ls, hs₀, hrun⟩ := h
  exact hrun.inv hstep (hinit s₀ hs₀)

end Lib
