import Mathlib

/-! Rows kept in a list and addressed by a key or by position. `modifyFirst` is the in-place update
    of the first row that meets a condition; `restore` undoes a log of overwritten rows, newest
    first. `Rows R old new` says that `new` holds the rows of `old`, each related by `R` to what it
    was and in the same place. -/

namespace Lib

variable {α β γ κ : Type} {R : α → α → Prop}

/-- Rewrites the first element that meets `p` (`iter_mut().find(p)`). -/
def modifyFirst (p : α → Bool) (f : α → α) : List α → List α
  | [] => []
  | a :: l => if p a then f a :: l else a :: modifyFirst p f l

/-- Left-to-right map with an accumulator (`iter_mut` beside other mutable data). -/
def mapAccum (f : γ → α → γ × β) : γ → List α → γ × List β
  | c, [] => (c, [])
  | c, a :: l =>
    let (c₁, b) := f c a
    let (c₂, bs) := mapAccum f c₁ l
    (c₂, b :: bs)

/-- `chunks` of a slice, for a bounded number of pieces. -/
def chunksUpTo (size : ℕ) : ℕ → List α → List (List α)
  | 0, _ => []
  | _ + 1, [] => []
  | fuel + 1, a :: l => (a :: l).take size :: chunksUpTo size fuel ((a :: l).drop size)

/-- `chunks`: consecutive pieces of the given size, the last one shorter. -/
def chunks (size : ℕ) (l : List α) : List (List α) := chunksUpTo size l.length l

theorem chunksUpTo_flatten {size : ℕ} (hsize : 0 < size) : ∀ (fuel : ℕ) (l : List α), l.length ≤ fuel →
    (chunksUpTo size fuel l).flatten = l
  | 0, l, h => by
    rw [List.length_eq_zero_iff.mp (Nat.le_zero.mp h)]
    rfl
  | _ + 1, [], _ => rfl
  | fuel + 1, a :: l, h => by
    have hdrop : ((a :: l).drop size).length ≤ fuel := by
      rw [List.length_drop]
      rw [List.length_cons] at h ⊢
      omega
    rw [chunksUpTo, List.flatten_cons, chunksUpTo_flatten hsize fuel _ hdrop, List.take_append_drop]

/-- The pieces make up the list. -/
theorem chunks_flatten {size : ℕ} (hsize : 0 < size) (l : List α) : (chunks size l).flatten = l :=
  chunksUpTo_flatten hsize _ l (Nat.le_refl _)

/-- Puts a saved row back over the row that has its key. -/
def put [DecidableEq κ] (key : α → κ) (row : α) (rows : List α) : List α :=
  modifyFirst (fun r => decide (key r = key row)) (fun _ => row) rows

/-- Puts a log of saved rows back, the newest first. -/
def restore [DecidableEq κ] (key : α → κ) (log rows : List α) : List α :=
  log.foldr (put key) rows

/-- Overwrites rows at given positions, in order. -/
def overwrite (updates : List (ℕ × α)) (rows : List α) : List α :=
  updates.foldl (fun rows update => rows.set update.1 update.2) rows

/-- `new` holds the rows of `old` in place, each related to what it was. -/
abbrev Rows (R : α → α → Prop) (old new : List α) : Prop := List.Forall₂ R old new

/-! ### `modifyFirst` -/

/-- Only a stored row that meets the condition is rewritten. -/
theorem Rows.of_modifyFirst {R : α → α → Prop} (p : α → Bool) (f : α → α) (hr : ∀ a, R a a) :
    ∀ l : List α, (∀ a ∈ l, p a = true → R a (f a)) → Rows R l (modifyFirst p f l)
  | [], _ => .nil
  | a :: l, hf => by
    rw [modifyFirst]
    split
    · next h => exact .cons (hf a List.mem_cons_self h) (List.forall₂_same.mpr fun x _ => hr x)
    · exact .cons (hr a) (Rows.of_modifyFirst p f hr l fun b hb => hf b (List.mem_cons_of_mem _ hb))

theorem modifyFirst_rows (p : α → Bool) (f : α → α) (hr : ∀ a, R a a) (hf : ∀ a, p a = true → R a (f a))
    (l : List α) : Rows R l (modifyFirst p f l) :=
  Rows.of_modifyFirst p f hr l fun a _ => hf a

theorem modifyFirst_map (g : α → κ) (p : α → Bool) (f : α → α) (hf : ∀ a, p a = true → g (f a) = g a) :
    ∀ l : List α, (modifyFirst p f l).map g = l.map g
  | [] => rfl
  | a :: l => by
    rw [modifyFirst]
    split
    · next h => rw [List.map_cons, List.map_cons, hf a h]
    · rw [List.map_cons, List.map_cons, modifyFirst_map g p f hf l]

/-- With one row meeting the condition, that row is rewritten where it stands. -/
theorem modifyFirst_some (p : α → Bool) (f : α → α) :
    ∀ (l : List α) (a : α), l.find? p = some a →
      ∃ i, l[i]? = some a ∧ modifyFirst p f l = l.set i (f a)
  | [], a, h => by simp at h
  | b :: l, a, h => by
    rw [List.find?_cons] at h
    rw [modifyFirst]
    split at h
    · next hp =>
      rw [hp, if_pos rfl]
      obtain rfl := Option.some.inj h
      exact ⟨0, rfl, rfl⟩
    · next hp =>
      rw [hp, if_neg (by simp)]
      obtain ⟨i, hi, hm⟩ := modifyFirst_some p f l a h
      exact ⟨i + 1, by simpa using hi, by rw [hm]; rfl⟩

/-- Where keys are distinct, the first row of a key is its only one. -/
theorem modifyFirst_eq_map [DecidableEq κ] {key : α → κ} (k : κ) (f : α → α) : ∀ {l : List α},
    (l.map key).Nodup → modifyFirst (fun a => key a = k) f l = l.map fun a => if key a = k then f a else a
  | [], _ => rfl
  | a :: l, h => by
    rw [List.map_cons, List.nodup_cons] at h
    rw [modifyFirst, List.map_cons]
    by_cases hk : key a = k
    · have hrest : l.map (fun a => if key a = k then f a else a) = l.map id := by
        refine List.map_congr_left fun b hb => if_neg ?_
        rintro rfl
        exact h.1 (hk ▸ List.mem_map_of_mem hb)
      rw [if_pos (by simpa using hk), if_pos hk, hrest, List.map_id]
    · rw [if_neg (by simpa using hk), if_neg hk, modifyFirst_eq_map k f h.2]

/-- Rewriting the rows of some keys, one key after the other. -/
theorem foldl_modifyFirst [DecidableEq κ] (key : α → κ) {f : κ → α → α} (hf : ∀ k a, key (f k a) = key a) :
    ∀ (ks : List κ) {l : List α}, ks.Nodup → (l.map key).Nodup →
      ks.foldl (fun l k => modifyFirst (fun a => key a = k) (f k) l) l =
        l.map fun a => if key a ∈ ks then f (key a) a else a
  | [], l, _, _ => by simp
  | k :: ks, l, hks, hl => by
    rw [List.nodup_cons] at hks
    have hkeys : ((modifyFirst (fun a => key a = k) (f k) l).map key).Nodup := by
      rwa [modifyFirst_map key _ _ fun a _ => hf k a]
    rw [List.foldl_cons, foldl_modifyFirst key hf ks hks.2 hkeys, modifyFirst_eq_map k (f k) hl, List.map_map]
    refine List.map_congr_left fun a _ => ?_
    by_cases hk : key a = k
    · subst hk
      simp [hf, hks.1]
    · simp [hk]

/-! ### Undoing a log -/

/-- A saved row goes back over its overwritten version. -/
theorem put_set [DecidableEq κ] {key : α → κ} : ∀ (l : List α) (i : ℕ) (r r' : α),
    (l.map key).Nodup → l[i]? = some r → key r' = key r → put key r (l.set i r') = l
  | [], _, _, _, _, hi, _ => by simp at hi
  | a :: l, 0, r, r', _, hi, hk => by
    obtain rfl : a = r := by simpa using hi
    rw [List.set_cons_zero, put, modifyFirst, if_pos (decide_eq_true hk)]
  | a :: l, i + 1, r, r', hn, hi, hk => by
    rw [List.map_cons, List.nodup_cons] at hn
    rw [List.getElem?_cons_succ] at hi
    have hne : key a ≠ key r := fun h =>
      hn.1 (h ▸ List.mem_map_of_mem (List.mem_of_getElem? hi))
    rw [List.set_cons_succ, put, modifyFirst, if_neg (by simpa using hne)]
    exact congrArg _ (put_set l i r r' hn.2 hi hk)

theorem restore_append [DecidableEq κ] (key : α → κ) (log log' rows : List α) :
    restore key (log ++ log') rows = restore key log (restore key log' rows) :=
  List.foldr_append

theorem set_map_key {g : α → κ} {l : List α} {i : ℕ} {r r' : α} (hi : l[i]? = some r)
    (hk : g r' = g r) : (l.set i r').map g = l.map g := by
  obtain ⟨hlt, rfl⟩ := List.getElem?_eq_some_iff.mp hi
  have hg : g l[i] = (l.map g).get ⟨i, by simpa using hlt⟩ := by simp
  rw [List.map_set, hk, hg, List.get_eq_getElem, List.set_getElem_self]

/-- Rows with keys of their own are found by them. -/
theorem find?_key {κ : Type} [DecidableEq κ] {key : α → κ} {l : List α} (h : (l.map key).Nodup) {a : α}
    (hm : a ∈ l) : l.find? (fun b => key b = key a) = some a := by
  cases hf : l.find? fun b => key b = key a with
  | none => exact absurd (decide_eq_true rfl) (List.find?_eq_none.mp hf a hm)
  | some b =>
    have hkey := List.find?_some hf
    rw [decide_eq_true_eq] at hkey
    rw [List.inj_on_of_nodup_map h (List.mem_of_find?_eq_some hf) hm hkey]

/-- Counting rows and counting their positions is the same. -/
theorem countP_positions (p : α → Bool) (l : List α) :
    (List.range l.length).countP (fun i => l[i]?.any p) = l.countP p := by
  induction l using List.reverseRecOn with
  | nil => rfl
  | append_singleton l a ih =>
    have hfront : (List.range l.length).countP (fun i => (l ++ [a])[i]?.any p) =
        (List.range l.length).countP (fun i => l[i]?.any p) := by
      refine List.countP_congr fun i hi => ?_
      rw [List.getElem?_append_left (List.mem_range.mp hi)]
    rw [List.length_append, List.length_singleton, List.range_succ, List.countP_append,
      List.countP_append, hfront, ih, List.countP_singleton, List.countP_singleton,
      List.getElem?_concat_length, Option.any_some]

/-! ### Overwriting -/

theorem overwrite_untouched : ∀ (updates : List (ℕ × α)) (rows : List α) (i : ℕ),
    i ∉ updates.map (·.1) → (overwrite updates rows)[i]? = rows[i]?
  | [], _, _, _ => rfl
  | update :: updates, rows, i, hi => by
    rw [List.map_cons, List.mem_cons, not_or] at hi
    have hrec := overwrite_untouched updates (rows.set update.1 update.2) i hi.2
    rw [List.getElem?_set_ne (Ne.symm hi.1)] at hrec
    exact hrec

/-- With distinct positions every update is there in the end. -/
theorem overwrite_written : ∀ (updates : List (ℕ × α)) (rows : List α), (updates.map (·.1)).Nodup →
    (∀ update ∈ updates, update.1 < rows.length) →
      ∀ update ∈ updates, (overwrite updates rows)[update.1]? = some update.2
  | [], _, _, _, _, hm => nomatch hm
  | first :: updates, rows, hn, hlt, update, hm => by
    rw [List.map_cons, List.nodup_cons] at hn
    rcases List.mem_cons.mp hm with rfl | hm
    · have hrec := overwrite_untouched updates (rows.set update.1 update.2) update.1 hn.1
      rw [List.getElem?_set_self (hlt update List.mem_cons_self)] at hrec
      exact hrec
    · refine overwrite_written updates _ hn.2 (fun other ho => ?_) update hm
      rw [List.length_set]
      exact hlt other (List.mem_cons_of_mem _ ho)

/-! ### Accumulating maps -/

theorem mapAccum_fst (f : γ → α → γ × β) : ∀ (l : List α) (c : γ),
    (mapAccum f c l).1 = l.foldl (fun c a => (f c a).1) c
  | [], _ => rfl
  | a :: l, c => by rw [mapAccum, List.foldl_cons, ← mapAccum_fst f l]

/-- What each step of a fold respects, the whole fold respects. -/
theorem foldl_rel {R : γ → γ → Prop} (hr : ∀ c, R c c) (ht : ∀ a b c, R a b → R b c → R a c)
    (f : γ → α → γ) : ∀ (l : List α) (c : γ), (∀ c, ∀ a ∈ l, R c (f c a)) → R c (l.foldl f c)
  | [], c, _ => hr c
  | a :: l, c, h => by
    rw [List.foldl_cons]
    exact ht _ _ _ (h c a List.mem_cons_self)
      (foldl_rel hr ht f l _ fun c' a' hm => h c' a' (List.mem_cons_of_mem _ hm))

/-! ### Rows -/

theorem rows_refl (hr : ∀ a, R a a) (l : List α) : Rows R l l :=
  List.forall₂_same.mpr fun a _ => hr a

theorem rows_trans {R : α → α → Prop} (ht : ∀ a b c, R a b → R b c → R a c) :
    ∀ {l l' l'' : List α}, Rows R l l' → Rows R l' l'' → Rows R l l''
  | _, _, _, .nil, .nil => .nil
  | _, _, _, .cons h hs, .cons h' hs' => .cons (ht _ _ _ h h') (rows_trans ht hs hs')

theorem Rows.comp {R Q : α → α → Prop} : ∀ {l l' l'' : List α}, Rows R l l' → Rows Q l' l'' →
    Rows (fun a c => ∃ b, R a b ∧ Q b c) l l''
  | _, _, _, .nil, .nil => .nil
  | _, _, _, .cons h hs, .cons h' hs' => .cons ⟨_, h, h'⟩ (Rows.comp hs hs')

theorem Rows.imp_mem {R Q : α → α → Prop} : ∀ {l l' : List α}, Rows R l l' →
    (∀ a ∈ l, ∀ b, R a b → Q a b) → Rows Q l l'
  | _, _, .nil, _ => .nil
  | _, _, .cons h hs, himp => .cons (himp _ List.mem_cons_self _ h)
      (Rows.imp_mem hs fun a ha => himp a (List.mem_cons_of_mem _ ha))

theorem Rows.append {a a' b b' : List α} (h : Rows R a a') (h' : Rows R b b') :
    Rows R (a ++ b) (a' ++ b') := List.rel_append h h'

/-- A table in two pieces stays in two pieces. -/
theorem Rows.split {R : α → α → Prop} : ∀ {a b c : List α}, Rows R (a ++ b) c →
    ∃ a' b', c = a' ++ b' ∧ Rows R a a' ∧ Rows R b b'
  | [], _, c, h => ⟨[], c, rfl, .nil, h⟩
  | _ :: _, _, _, .cons h hs => by
    obtain ⟨a', b', rfl, ha, hb⟩ := Rows.split hs
    exact ⟨_ :: a', b', rfl, .cons h ha, hb⟩

/-- Overwriting one row relates the tables when it relates the rows. -/
theorem rows_set {R : α → α → Prop} (hr : ∀ a, R a a) : ∀ (l : List α) (i : ℕ) (a a' : α),
    l[i]? = some a → R a a' → Rows R l (l.set i a')
  | [], _, _, _, hi, _ => by simp at hi
  | b :: l, 0, a, a', hi, h => by
    obtain rfl : b = a := by simpa using hi
    exact .cons h (rows_refl hr l)
  | b :: l, i + 1, a, a', hi, h => by
    rw [List.getElem?_cons_succ] at hi
    exact .cons (hr b) (rows_set hr l i a a' hi h)

theorem rows_map (f : α → α) (l : List α) (h : ∀ a ∈ l, R a (f a)) :
    Rows R l (l.map f) := by
  rw [Rows, List.forall₂_map_right_iff]
  exact List.forall₂_same.mpr h

theorem rows_mapIdx {R : α → α → Prop} : ∀ (l : List α) (f : ℕ → α → α), (∀ i a, R a (f i a)) →
    Rows R l (l.mapIdx f)
  | [], _, _ => .nil
  | a :: l, f, h => by
    rw [List.mapIdx_cons]
    exact .cons (h 0 a) (rows_mapIdx l (fun i => f (i + 1)) fun i => h (i + 1))

/-- Rewriting the first row that meets a condition, when that row is known. -/
theorem rows_modifyFound (hr : ∀ a, R a a) {p : α → Bool} {f : α → α} {l : List α} {a : α}
    (hf : l.find? p = some a) (h : R a (f a)) : Rows R l (modifyFirst p f l) := by
  obtain ⟨i, hi, he⟩ := modifyFirst_some p f l a hf
  rw [he]
  exact rows_set hr l i a (f a) hi h

theorem mapAccum_rows {R : α → α → Prop} {f : γ → α → γ × α} (hf : ∀ c a, R a (f c a).2) :
    ∀ (l : List α) (c : γ), Rows R l (mapAccum f c l).2
  | [], _ => .nil
  | a :: l, c => .cons (hf c a) (mapAccum_rows hf l _)

/-- Related tables address related rows. -/
theorem Rows.get {R : α → α → Prop} : ∀ {l l' : List α}, Rows R l l' → ∀ {i : ℕ} {a : α},
    l[i]? = some a → ∃ a', l'[i]? = some a' ∧ R a a'
  | _, _, .nil, i, a, hi => by simp at hi
  | _, _, .cons h _, 0, a, hi => by
    obtain rfl := Option.some.inj hi
    exact ⟨_, rfl, h⟩
  | _, _, .cons _ hs, i + 1, a, hi => Rows.get hs hi

theorem Rows.get_right {R : α → α → Prop} : ∀ {l l' : List α}, Rows R l l' → ∀ {i : ℕ} {a' : α},
    l'[i]? = some a' → ∃ a, l[i]? = some a ∧ R a a'
  | _, _, .nil, i, a, hi => by simp at hi
  | _, _, .cons h _, 0, a, hi => by
    obtain rfl := Option.some.inj hi
    exact ⟨_, rfl, h⟩
  | _, _, .cons _ hs, i + 1, a, hi => Rows.get_right hs hi

theorem Rows.mem_right {l l' : List α} (h : Rows R l l') {a' : α} (hm : a' ∈ l') :
    ∃ a ∈ l, R a a' := by
  obtain ⟨i, hi⟩ := List.mem_iff_getElem?.mp hm
  obtain ⟨a, ha, hr⟩ := h.get_right hi
  exact ⟨a, List.mem_of_getElem? ha, hr⟩

theorem Rows.mem_left {l l' : List α} (h : Rows R l l') {a : α} (hm : a ∈ l) :
    ∃ a' ∈ l', R a a' := by
  obtain ⟨i, hi⟩ := List.mem_iff_getElem?.mp hm
  obtain ⟨a', ha, hr⟩ := h.get hi
  exact ⟨a', List.mem_of_getElem? ha, hr⟩

/-- Tables of one length are related row by row. -/
theorem rows_of_get {l l' : List α} (hlen : l'.length = l.length)
    (h : ∀ (i : ℕ) (a : α), l[i]? = some a → ∃ a', l'[i]? = some a' ∧ R a a') : Rows R l l' := by
  refine List.forall₂_iff_get.mpr ⟨hlen.symm, fun i hi hi' => ?_⟩
  obtain ⟨a', ha', hr⟩ := h i _ (List.getElem?_eq_getElem hi)
  rw [List.getElem?_eq_getElem hi'] at ha'
  obtain rfl := Option.some.inj ha'
  exact hr

/-- A condition that related elements share holds of all or of none on both sides. -/
theorem forall₂_forall_iff {R : α → β → Prop} {P : α → Prop} {Q : β → Prop}
    (hR : ∀ a b, R a b → (P a ↔ Q b)) {l : List α} {l' : List β} (h : List.Forall₂ R l l') :
    (∀ a ∈ l, P a) ↔ ∀ b ∈ l', Q b := by
  induction h with
  | nil => simp
  | cons hab _ ih => rw [List.forall_mem_cons, List.forall_mem_cons, hR _ _ hab, ih]

/-- Rows keep what the relation keeps. -/
theorem Rows.map_eq {R : α → α → Prop} {g : α → κ} (hg : ∀ a b, R a b → g b = g a) :
    ∀ {l l' : List α}, Rows R l l' → l'.map g = l.map g
  | _, _, .nil => rfl
  | _, _, .cons h hs => by rw [List.map_cons, List.map_cons, hg _ _ h, Rows.map_eq hg hs]

/-- What related rows keep pairwise. -/
theorem Rows.pairwise {R P Q : α → α → Prop} (hstep : ∀ a a' b b', R a a' → R b b' → P a b → Q a' b') :
    ∀ {l l' : List α}, Rows R l l' → l.Pairwise P → l'.Pairwise Q
  | _, _, .nil, _ => .nil
  | _, _, .cons h hs, hp => by
    rw [List.pairwise_cons] at hp ⊢
    refine ⟨fun b' hb' => ?_, Rows.pairwise hstep hs hp.2⟩
    obtain ⟨b, hb, hr⟩ := Rows.mem_right hs hb'
    exact hstep _ _ _ _ h hr (hp.1 b hb)

/-- With no two rows meeting a condition, at most one does. -/
theorem countP_le_one {p : α → Bool} : ∀ {l : List α},
    l.Pairwise (fun a b => p a = true → p b = false) → l.countP p ≤ 1
  | [], _ => by simp
  | a :: l, h => by
    rw [List.pairwise_cons] at h
    cases ha : p a with
    | false =>
      rw [List.countP_cons_of_neg (by simp [ha])]
      exact countP_le_one h.2
    | true =>
      have hnone : l.countP p = 0 := by
        rw [List.countP_eq_zero]
        intro b hb
        simp [h.1 b hb ha]
      rw [List.countP_cons_of_pos ha, hnone]

end Lib
