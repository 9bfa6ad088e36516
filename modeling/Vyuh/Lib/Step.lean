import Mathlib

/-! Fallible computations over a mutable state. A failed computation keeps the mutations it made
    before failing, so that a caller can roll them back: `Step σ ε α` is a function from a state to
    a result *and* the state it leaves behind, whichever way it ends.

    Two kinds of rules are proved. `Keeps R m` says that every run of `m`, successful or not,
    relates its first state to its last one by `R`. The `_ok` lemmas invert a successful run into
    the successful runs of its parts. -/

namespace Lib

/-- A fallible state computation; the state survives a failure. -/
def Step (σ ε α : Type) : Type := σ → Except ε α × σ

namespace Step

variable {σ τ ε α β : Type}

/-- Sequencing: the second computation starts where a successful first one ended. -/
def bind (m : Step σ ε α) (f : α → Step σ ε β) : Step σ ε β := fun s =>
  match m s with
  | (.ok a, s') => f a s'
  | (.error e, s') => (.error e, s')

instance : Monad (Step σ ε) where
  pure a := fun s => (.ok a, s)
  bind := bind

/-- Fails without touching the state. -/
def fail (e : ε) : Step σ ε α := fun s => (.error e, s)

/-- Reads the state. -/
def get : Step σ ε σ := fun s => (.ok s, s)

/-- Rewrites the state. -/
def modify (f : σ → σ) : Step σ ε Unit := fun s => (.ok (), f s)

/-- Runs a computation that reads nothing and writes nothing. -/
def lift (r : Except ε α) : Step σ ε α := fun s => (r, s)

/-- Runs a computation on a part of the state. -/
def zoom (view : σ → τ) (put : τ → σ → σ) (m : Step τ ε α) : Step σ ε α := fun s =>
  ((m (view s)).1, put (m (view s)).2 s)

/-- Runs a computation and reports its failure as another. -/
def mapError {ε' : Type} (f : ε → ε') (m : Step σ ε α) : Step σ ε' α := fun s => ((m s).1.mapError f, (m s).2)

/-- The final state of a successful run on a private copy; a failure drops the copy. -/
def exec (m : Step σ ε α) (s : σ) : Except ε σ :=
  match m s with
  | (.ok _, s') => .ok s'
  | (.error e, _) => .error e

/-- Runs a computation for every element of a list, in order. -/
def each (f : α → Step σ ε Unit) : List α → Step σ ε Unit
  | [] => pure ()
  | a :: as => do
    f a
    each f as

/-- Runs a computation for every element of a list, in order, and collects the results. -/
def collect (f : α → Step σ ε β) : List α → Step σ ε (List β)
  | [] => pure []
  | a :: as => do
    let b ← f a
    let bs ← collect f as
    pure (b :: bs)

/-! ### Running -/

@[simp] theorem pure_run (a : α) (s : σ) : (pure a : Step σ ε α) s = (.ok a, s) := rfl

@[simp] theorem fail_run (e : ε) (s : σ) : (fail e : Step σ ε α) s = (.error e, s) := rfl

@[simp] theorem get_run (s : σ) : (get : Step σ ε σ) s = (.ok s, s) := rfl

@[simp] theorem modify_run (f : σ → σ) (s : σ) :
    (modify f : Step σ ε Unit) s = (.ok (), f s) := rfl

@[simp] theorem lift_run (r : Except ε α) (s : σ) : (lift r : Step σ ε α) s = (r, s) := rfl

theorem bind_run (m : Step σ ε α) (f : α → Step σ ε β) (s : σ) :
    (m >>= f) s = match m s with
      | (.ok a, s') => f a s'
      | (.error e, s') => (.error e, s') := rfl

/-! ### Successful runs -/

/-- A sequence succeeds exactly when both parts do. -/
theorem bind_ok {m : Step σ ε α} {f : α → Step σ ε β} {s s' : σ} {b : β} :
    (m >>= f) s = (.ok b, s') ↔ ∃ a s₁, m s = (.ok a, s₁) ∧ f a s₁ = (.ok b, s') := by
  rw [bind_run]
  constructor
  · intro h
    rcases hm : m s with ⟨r, s₁⟩
    rw [hm] at h
    cases r with
    | ok a => exact ⟨a, s₁, rfl, h⟩
    | error e => simp at h
  · rintro ⟨a, s₁, hm, hf⟩
    rw [hm]
    exact hf

@[simp] theorem pure_ok {a b : α} {s s' : σ} :
    (pure a : Step σ ε α) s = (.ok b, s') ↔ a = b ∧ s = s' := by
  simp

@[simp] theorem fail_ok {e : ε} {a : α} {s s' : σ} :
    ¬ (fail e : Step σ ε α) s = (.ok a, s') := by
  simp

@[simp] theorem get_ok {s s' t : σ} : (get : Step σ ε σ) s = (.ok t, s') ↔ s = t ∧ s = s' := by
  simp

@[simp] theorem modify_ok {f : σ → σ} {s s' : σ} {u : Unit} :
    (modify f : Step σ ε Unit) s = (.ok u, s') ↔ f s = s' := by
  simp

@[simp] theorem lift_ok {r : Except ε α} {a : α} {s s' : σ} :
    (lift r : Step σ ε α) s = (.ok a, s') ↔ r = .ok a ∧ s = s' := by
  simp

theorem zoom_ok {view : σ → τ} {put : τ → σ → σ} {m : Step τ ε α} {s s' : σ} {a : α} :
    zoom view put m s = (.ok a, s') ↔ ∃ t, m (view s) = (.ok a, t) ∧ put t s = s' := by
  rw [zoom]
  rcases m (view s) with ⟨r, t⟩
  simp only [Prod.mk.injEq]
  constructor
  · rintro ⟨hr, hp⟩
    exact ⟨t, ⟨hr, rfl⟩, hp⟩
  · rintro ⟨_, ⟨hr, rfl⟩, hp⟩
    exact ⟨hr, hp⟩

theorem exec_ok {m : Step σ ε α} {s s' : σ} :
    m.exec s = .ok s' ↔ ∃ a, m s = (.ok a, s') := by
  rw [exec]
  rcases hm : m s with ⟨r, t⟩
  cases r <;> simp

/-- `each` is `collect` with the results dropped. -/
theorem each_eq_collect (f : α → Step σ ε Unit) : ∀ l : List α,
    each f l = (collect f l >>= fun _ => pure () : Step σ ε Unit)
  | [] => rfl
  | a :: l => by
    rw [each, collect, each_eq_collect f l]
    funext s
    simp only [bind_run]
    rcases f a s with ⟨r, s₁⟩
    cases r with
    | error e => rfl
    | ok u =>
      simp only
      rcases collect f l s₁ with ⟨r, s₂⟩
      cases r <;> rfl

/-- A loop over distinct elements that are all ready when it starts, where the work on one element
    leaves the others ready: the loop does the work of its elements in order. -/
theorem collect_ok {γ : Type} (ready : α → σ → Prop) (T : σ → List γ → σ → Prop) (out : β → List γ)
    (hnil : ∀ s, T s [] s)
    (happ : ∀ s s' s'' cs cs', T s cs s' → T s' cs' s'' → T s (cs ++ cs') s'')
    {f : α → Step σ ε β} (hf : ∀ a s b s', ready a s → f a s = (.ok b, s') →
      T s (out b) s' ∧ ∀ a', a' ≠ a → ready a' s → ready a' s') :
    ∀ (l : List α) (s : σ) (bs : List β) (s' : σ), l.Nodup → (∀ a ∈ l, ready a s) →
      collect f l s = (.ok bs, s') → T s (bs.flatMap out) s'
  | [], s, bs, s', _, _, h => by
    obtain ⟨rfl, rfl⟩ := pure_ok.mp h
    exact hnil s
  | a :: l, s, bs, s', hn, hr, h => by
    simp only [collect, bind_ok, pure_ok] at h
    obtain ⟨b, s₁, h₁, bs', s₂, h₂, rfl, rfl⟩ := h
    obtain ⟨hna, hn⟩ := List.nodup_cons.mp hn
    obtain ⟨ht, hkeep⟩ := hf a s b s₁ (hr a List.mem_cons_self) h₁
    have hr' : ∀ a' ∈ l, ready a' s₁ := fun a' hm =>
      hkeep a' (fun he => hna (he ▸ hm)) (hr a' (List.mem_cons_of_mem _ hm))
    exact happ _ _ _ _ _ ht (collect_ok ready T out hnil happ hf l s₁ bs' s₂ hn hr' h₂)

/-- A loop that passes an element: what ran before it, what it did, and what ran after. -/
theorem collect_split {f : α → Step σ ε β} {a : α} {after : List α} :
    ∀ (before : List α) (s s' : σ) (bs : List β), collect f (before ++ a :: after) s = (.ok bs, s') →
      ∃ bs₁ s₁ b s₂ bs₂, collect f before s = (.ok bs₁, s₁) ∧ f a s₁ = (.ok b, s₂) ∧
        collect f after s₂ = (.ok bs₂, s') ∧ bs = bs₁ ++ b :: bs₂ ∧ bs₁.length = before.length
  | [], s, s', bs, h => by
    simp only [List.nil_append, collect, bind_ok, pure_ok] at h
    obtain ⟨b, s₂, hone, bs₂, _, hrest, rfl, rfl⟩ := h
    exact ⟨[], s, b, s₂, bs₂, rfl, hone, hrest, rfl, rfl⟩
  | a₀ :: before, s, s', bs, h => by
    simp only [List.cons_append, collect, bind_ok, pure_ok] at h
    obtain ⟨b₀, s₀, hfirst, bs', _, hrest, rfl, rfl⟩ := h
    obtain ⟨bs₁, s₁, b, s₂, bs₂, h₁, hone, h₂, rfl, hlen⟩ := collect_split before s₀ _ _ hrest
    refine ⟨b₀ :: bs₁, s₁, b, s₂, bs₂, ?_, hone, h₂, rfl, congrArg (· + 1) hlen⟩
    simp only [collect, bind_ok, pure_ok]
    exact ⟨b₀, s₀, hfirst, bs₁, s₁, h₁, rfl, rfl⟩

/-- The same inversion for computations without a state. -/
theorem except_bind_ok {m : Except ε α} {f : α → Except ε β} {b : β} :
    (m >>= f) = .ok b ↔ ∃ a, m = .ok a ∧ f a = .ok b := by
  cases m with
  | error e => exact ⟨fun h => absurd h (by simp [Bind.bind, Except.bind]), fun ⟨_, h, _⟩ => nomatch h⟩
  | ok a => exact ⟨fun h => ⟨a, rfl, h⟩, fun ⟨_, h, hf⟩ => Except.ok.inj h ▸ hf⟩

/-- A check and what comes after it. -/
theorem except_seq_ok {m : Except ε Unit} {rest : Except ε α} {a : α} :
    (m >>= fun _ => rest) = .ok a ↔ m = .ok () ∧ rest = .ok a :=
  except_bind_ok.trans ⟨fun ⟨_, hm, h⟩ => ⟨hm, h⟩, fun ⟨hm, h⟩ => ⟨(), hm, h⟩⟩

theorem except_bind_error {m : Except ε α} {f : α → Except ε β} {e : ε} :
    (m >>= f) = .error e ↔ m = .error e ∨ ∃ a, m = .ok a ∧ f a = .error e := by
  cases m with
  | error e' =>
    refine ⟨fun h => .inl (congrArg _ (Except.error.inj h)), ?_⟩
    rintro (h | ⟨a, h, -⟩)
    · exact congrArg _ (Except.error.inj h)
    · exact nomatch h
  | ok a =>
    refine ⟨fun h => .inr ⟨a, rfl, h⟩, ?_⟩
    rintro (h | ⟨b, h, hf⟩)
    · exact nomatch h
    · exact Except.ok.inj h ▸ hf

theorem except_toOption_eq_some {m : Except ε α} {a : α} : m.toOption = some a ↔ m = .ok a := by
  cases m with
  | ok b => exact ⟨fun h => congrArg _ (Option.some.inj h), fun h => congrArg _ (Except.ok.inj h)⟩
  | error e => exact ⟨fun h => (nomatch h), fun h => (nomatch h)⟩

/-- A check passes exactly when its refusal does not apply and the rest passes. -/
theorem except_check_ok {refused : Prop} [Decidable refused] {e : ε} {rest : Except ε α} {a : α} :
    (if refused then .error e else rest) = .ok a ↔ ¬ refused ∧ rest = .ok a := by
  split
  next h => exact ⟨fun heq => (nomatch heq), fun heq => absurd h heq.1⟩
  next h => exact ⟨fun heq => ⟨h, heq⟩, fun heq => heq.2⟩

/-- A pass that only checks succeeds just when every check does. -/
theorem except_forM_ok {f : α → Except ε Unit} {as : List α} :
    forM as f = .ok () ↔ ∀ a ∈ as, f a = .ok () := by
  induction as with
  | nil => exact iff_of_true rfl fun a ha => by cases ha
  | cons a as ih =>
    rw [List.forM_cons, except_bind_ok, List.forall_mem_cons, ← ih]
    constructor
    · rintro ⟨done, hhead, hrest⟩
      exact ⟨hhead, hrest⟩
    · rintro ⟨hhead, hrest⟩
      exact ⟨(), hhead, hrest⟩

/-- A pass over a list gives at each position what its element gives. -/
theorem except_mapM_rel {f : α → Except ε β} {as : List α} {bs : List β} (h : as.mapM f = .ok bs)
    (i : ℕ) : Option.Rel (fun a b => f a = .ok b) as[i]? bs[i]? := by
  induction as generalizing bs i with
  | nil =>
    cases h
    exact .none
  | cons a as ih =>
    rw [List.mapM_cons] at h
    obtain ⟨b, hb, h⟩ := except_bind_ok.mp h
    obtain ⟨rest, hrest, h⟩ := except_bind_ok.mp h
    cases h
    cases i with
    | zero => exact .some hb
    | succ i => exact ih hrest i

theorem except_mapM_forall₂ {f : α → Except ε β} {as : List α} {bs : List β} (h : as.mapM f = .ok bs) :
    List.Forall₂ (fun a b => f a = .ok b) as bs := by
  induction as generalizing bs with
  | nil =>
    cases h
    exact .nil
  | cons a as ih =>
    rw [List.mapM_cons] at h
    obtain ⟨b, hb, h⟩ := except_bind_ok.mp h
    obtain ⟨rest, hrest, h⟩ := except_bind_ok.mp h
    cases h
    exact .cons hb (ih hrest)

theorem except_mapM_mem {f : α → Except ε β} {as : List α} {bs : List β} (h : as.mapM f = .ok bs) {b : β}
    (hb : b ∈ bs) : ∃ a ∈ as, f a = .ok b := by
  obtain ⟨i, hi⟩ := List.mem_iff_getElem?.mp hb
  have hrel := except_mapM_rel h i
  rw [hi] at hrel
  cases ha : as[i]? with
  | none =>
    rw [ha] at hrel
    exact nomatch hrel
  | some a =>
    rw [ha] at hrel
    cases hrel with
    | some hab => exact ⟨a, List.mem_of_getElem? ha, hab⟩

theorem except_mapM_total {f : α → Except ε β} {as : List α} (h : ∀ a ∈ as, ∃ b, f a = .ok b) :
    ∃ bs, as.mapM f = .ok bs := by
  induction as with
  | nil => exact ⟨[], rfl⟩
  | cons a as ih =>
    obtain ⟨b, hb⟩ := h a List.mem_cons_self
    obtain ⟨bs, hbs⟩ := ih fun a' hmem => h a' (List.mem_cons_of_mem a hmem)
    refine ⟨b :: bs, ?_⟩
    rw [List.mapM_cons]
    exact except_bind_ok.mpr ⟨b, hb, except_bind_ok.mpr ⟨bs, hbs, rfl⟩⟩

theorem except_mapM_map {γ : Type} {f : α → Except ε β} (f' : α → Except ε γ) (g : β → γ)
    (hf : ∀ a b, f a = .ok b → f' a = .ok (g b)) {as : List α} {bs : List β} (h : as.mapM f = .ok bs) :
    as.mapM f' = .ok (bs.map g) := by
  induction as generalizing bs with
  | nil =>
    cases h
    rfl
  | cons a as ih =>
    rw [List.mapM_cons] at h ⊢
    obtain ⟨b, hb, h⟩ := except_bind_ok.mp h
    obtain ⟨rest, hrest, h⟩ := except_bind_ok.mp h
    cases h
    exact except_bind_ok.mpr ⟨g b, hf a b hb, except_bind_ok.mpr ⟨rest.map g, ih hrest, rfl⟩⟩

/-! ### What every run keeps -/

/-- Every run, successful or not, relates its first state to its last. -/
def Keeps (R : σ → σ → Prop) (m : Step σ ε α) : Prop := ∀ s, R s (m s).2

section Keeps

variable {R : σ → σ → Prop} [Std.Refl R]

theorem Keeps.pure (a : α) : Keeps R (Pure.pure a : Step σ ε α) := fun s => refl_of R s

theorem Keeps.fail (e : ε) : Keeps R (Step.fail e : Step σ ε α) := fun s => refl_of R s

theorem Keeps.get : Keeps R (Step.get : Step σ ε σ) := fun s => refl_of R s

theorem Keeps.lift (r : Except ε α) : Keeps R (Step.lift r : Step σ ε α) := fun s => refl_of R s

omit [Std.Refl R] in
theorem Keeps.modify {f : σ → σ} (h : ∀ s, R s (f s)) :
    Keeps R (Step.modify f : Step σ ε Unit) := h

omit [Std.Refl R] in
/-- Sequencing at one state: the second part only has to keep `R` from where the first one ended. -/
theorem run_bind [IsTrans σ R] {m : Step σ ε α} {f : α → Step σ ε β} {s : σ} (hm : R s (m s).2)
    (hf : ∀ a s', m s = (.ok a, s') → R s' (f a s').2) : R s ((m >>= f) s).2 := by
  rw [bind_run]
  rcases hs : m s with ⟨r, s₁⟩
  rw [hs] at hm
  cases r with
  | ok a => exact trans_of R hm (hf a s₁ hs)
  | error e => exact hm

omit [Std.Refl R] in
theorem Keeps.bind [IsTrans σ R] {m : Step σ ε α} {f : α → Step σ ε β} (hm : Keeps R m)
    (hf : ∀ a, Keeps R (f a)) : Keeps R (m >>= f) := fun s =>
  run_bind (hm s) fun a s' _ => hf a s'

omit [Std.Refl R] in
theorem Keeps.mono {Q : σ → σ → Prop} {m : Step σ ε α} (hm : Keeps Q m) (h : ∀ s s', Q s s' → R s s') :
    Keeps R m := fun s => h s _ (hm s)

theorem Keeps.each [IsTrans σ R] {f : α → Step σ ε Unit} (hf : ∀ a, Keeps R (f a)) :
    ∀ l : List α, Keeps R (Step.each f l)
  | [] => Keeps.pure ()
  | a :: l => Keeps.bind (hf a) (fun _ => Keeps.each hf l)

theorem Keeps.collect [IsTrans σ R] {f : α → Step σ ε β} (hf : ∀ a, Keeps R (f a)) :
    ∀ l : List α, Keeps R (Step.collect f l)
  | [] => Keeps.pure []
  | a :: l => Keeps.bind (hf a) (fun _ => Keeps.bind (Keeps.collect hf l) (fun _ => Keeps.pure _))

omit [Std.Refl R] in
/-- A computation on a part keeps `R` when the part's own relation lifts to it. -/
theorem Keeps.zoom {view : σ → τ} {put : τ → σ → σ} {Q : τ → τ → Prop} {m : Step τ ε α}
    (hm : Keeps Q m) (h : ∀ s t, Q (view s) t → R s (put t s)) :
    Keeps R (Step.zoom view put m) := fun s => h s _ (hm (view s))

end Keeps

end Step

/-- What a run answers, read off through a function. -/
theorem ok_of_toOption {ε α β σ : Type} {run : Except ε α × σ} {f : α → β} {b : β}
    (h : run.1.toOption.map f = some b) : ∃ a s, run = (.ok a, s) ∧ f a = b := by
  obtain ⟨r, s⟩ := run
  cases r with
  | error error => exact nomatch h
  | ok a => exact ⟨a, s, rfl, Option.some.inj h⟩

end Lib
