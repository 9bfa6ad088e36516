import Vyuh.Lib.Step

/-! Two computations of one result, compared. Their errors may differ, their values are related; which
    of the two failed first is left open. The rules are those of a relational logic: sequences are
    compared part by part, a shared test is decided once. -/

namespace Lib

/-- Both fail, or both succeed with related values. -/
inductive Agree {ε ε' α β : Type} (R : α → β → Prop) : Except ε α → Except ε' β → Prop
  | ok {a : α} {b : β} (related : R a b) : Agree R (.ok a) (.ok b)
  | error (e : ε) (e' : ε') : Agree R (.error e) (.error e')

namespace Agree

variable {ε ε' α α' β γ δ : Type} {R : α → β → Prop}

theorem rfl {x : Except ε α} : Agree Eq x x := by
  cases x with
  | ok a => exact .ok (Eq.refl a)
  | error e => exact .error e e

theorem mono {R' : α → β → Prop} {x : Except ε α} {y : Except ε' β} (h : Agree R x y)
    (hR : ∀ a b, R a b → R' a b) : Agree R' x y := by
  cases h with
  | ok related => exact .ok (hR _ _ related)
  | error e e' => exact .error e e'

/-- Sequences agree when their first parts do and their second parts do from related values. -/
theorem bind {S : γ → δ → Prop} {x : Except ε α} {y : Except ε' β} {f : α → Except ε γ}
    {g : β → Except ε' δ} (h : Agree R x y) (hf : ∀ a b, R a b → Agree S (f a) (g b)) :
    Agree S (x >>= f) (y >>= g) := by
  cases h with
  | ok related => exact hf _ _ related
  | error e e' => exact .error e e'

/-- A check that one side makes before and the other side after. -/
theorem bind_swap {Q : γ → δ → Prop} {S : α' → β → Prop} {x : Except ε α} {y : Except ε' β}
    {u : α → Except ε γ} {v : Except ε' δ} {k : α → γ → α'} (h : Agree R x y)
    (hu : ∀ a b, R a b → Agree Q (u a) v) (hk : ∀ a b c, R a b → S (k a c) b) :
    Agree S (x >>= fun a => u a >>= fun c => .ok (k a c)) (v >>= fun _ => y) := by
  cases h with
  | @ok a b related =>
    refine (hu a b related).bind fun c _ _ => ?_
    exact .ok (hk a b c related)
  | error e e' =>
    cases v with
    | ok d => exact .error e e'
    | error e'' => exact .error e e''

theorem of_ok {x : Except ε α} {y : Except ε' β} {a : α} (h : Agree R x y) (hx : x = .ok a) :
    ∃ b, y = .ok b ∧ R a b := by
  cases h with
  | ok related => exact ⟨_, Eq.refl _, Except.ok.inj hx ▸ related⟩
  | error e e' => exact nomatch hx

theorem of_error {x : Except ε α} {y : Except ε' β} {e : ε} (h : Agree R x y) (hx : x = .error e) :
    ∃ e', y = .error e' := by
  cases h with
  | ok related => exact nomatch hx
  | error e e' => exact ⟨e', Eq.refl _⟩

end Agree

/-! ### Steps run on a private copy -/

namespace Step

variable {σ ε α β : Type}

@[simp] theorem exec_modify (f : σ → σ) (s : σ) : (modify f : Step σ ε Unit).exec s = .ok (f s) := rfl

theorem exec_bind_modify (f : σ → σ) (g : Unit → Step σ ε β) (s : σ) :
    (modify f >>= g).exec s = (g ()).exec (f s) := rfl

theorem exec_bind_get (g : σ → Step σ ε β) (s : σ) : (get >>= g).exec s = (g s).exec s := rfl

theorem exec_bind_lift (r : Except ε α) (g : α → Step σ ε β) (s : σ) :
    (lift r >>= g).exec s = r >>= fun a => (g a).exec s := by
  cases r <;> rfl

/-- A last rewrite applies to what the run before it left. -/
theorem exec_then_modify (m : Step σ ε α) (f : σ → σ) (s : σ) :
    (m >>= fun _ => modify f).exec s = m.exec s >>= fun t => .ok (f t) := by
  rw [exec, bind_run, exec]
  rcases m s with ⟨r, t⟩
  cases r <;> rfl

end Step

end Lib
