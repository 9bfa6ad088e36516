import Vyuh.Lib.Table

/-! Outstanding obligations. A row of a table may owe one posting to a key, and owes nothing once it is
    closed. A write that closes a row posts what the row owed, so what a key still gets, owed or
    posted, is the same before and after every write. -/

namespace Lib

section

variable {α β κ : Type} [DecidableEq κ] {creditor : α → Option κ}

/-- How many rows owe `k` a posting. -/
def owing (creditor : α → Option κ) (rows : List α) (k : κ) : ℕ :=
  rows.countP (fun a => creditor a = some k)

/-- How many postings `k` got. -/
def posted (log : List (κ × β)) (k : κ) : ℕ := log.countP (fun entry => entry.1 = k)

@[simp] theorem posted_nil (k : κ) : posted ([] : List (κ × β)) k = 0 := rfl

@[simp] theorem posted_append (log log' : List (κ × β)) (k : κ) :
    posted (log ++ log') k = posted log k + posted log' k := by
  simp [posted]

@[simp] theorem owing_append (rows rows' : List α) (k : κ) :
    owing creditor (rows ++ rows') k = owing creditor rows k + owing creditor rows' k := by
  simp [owing]

theorem owing_eq_zero {rows : List α} {k : κ} :
    owing creditor rows k = 0 ↔ ∀ a ∈ rows, creditor a ≠ some k := by
  simp [owing]

theorem owing_pos {rows : List α} {k : κ} {a : α} (ha : a ∈ rows) (hk : creditor a = some k) :
    0 < owing creditor rows k := by
  simp only [owing, List.countP_pos_iff]
  exact ⟨a, ha, by simp [hk]⟩

/-- Where one posting at most is owed, one row at most owes it. -/
theorem owing_unique {k : κ} : ∀ {rows : List α}, owing creditor rows k ≤ 1 → ∀ {a b : α}, a ∈ rows →
    creditor a = some k → b ∈ rows → creditor b = some k → a = b
  | c :: rows, h, a, b, ha, hak, hb, hbk => by
    have hrest : owing creditor rows k + (if creditor c = some k then 1 else 0) ≤ 1 := by
      simpa [owing, List.countP_cons] using h
    have hnone : ∀ d ∈ rows, creditor d = some k → creditor c ≠ some k := fun d hd hdk hc => by
      have hpos : 0 < owing creditor rows k := owing_pos hd hdk
      rw [if_pos hc] at hrest
      omega
    rcases List.mem_cons.mp ha with rfl | ha'
    · rcases List.mem_cons.mp hb with rfl | hb'
      · rfl
      · exact absurd hak (hnone b hb' hbk)
    · rcases List.mem_cons.mp hb with rfl | hb'
      · exact absurd hbk (hnone a ha' hak)
      · exact owing_unique (by omega) ha' hak hb' hbk

/-- One write moves one row's debt. -/
theorem owing_set : ∀ {rows : List α} {i : ℕ} {old new : α}, rows[i]? = some old → ∀ k : κ,
    owing creditor (rows.set i new) k + (if creditor old = some k then 1 else 0) =
      owing creditor rows k + (if creditor new = some k then 1 else 0)
  | [], _, _, _, h, _ => by simp at h
  | a :: rows, 0, old, new, h, k => by
    obtain rfl : a = old := by simpa using h
    simp only [owing, List.set_cons_zero, List.countP_cons, decide_eq_true_eq]
    omega
  | a :: rows, i + 1, old, new, h, k => by
    have hrow : rows[i]? = some old := by simpa using h
    have ih : owing creditor (rows.set i new) k + (if creditor old = some k then 1 else 0) =
        owing creditor rows k + (if creditor new = some k then 1 else 0) := owing_set hrow k
    simp only [owing, List.set_cons_succ, List.countP_cons, decide_eq_true_eq] at ih ⊢
    omega

/-- A write that leaves its row's debt leaves every debt. -/
theorem owing_set_kept {rows : List α} {i : ℕ} {old new : α} (h : rows[i]? = some old)
    (hkept : creditor new = creditor old) (k : κ) : owing creditor (rows.set i new) k = owing creditor rows k := by
  have hset : owing creditor (rows.set i new) k + (if creditor old = some k then 1 else 0) =
      owing creditor rows k + (if creditor new = some k then 1 else 0) := owing_set h k
  rw [hkept] at hset
  omega

/-- A write that closes its row and posts what the row owed leaves what every key gets. -/
theorem owed_set_closed {rows : List α} {i : ℕ} {old new : α} {log queued : List (κ × β)}
    (h : rows[i]? = some old) (hclosed : creditor new = none)
    (hqueued : queued.map (·.1) = (creditor old).toList) (k : κ) :
    owing creditor (rows.set i new) k + posted (log ++ queued) k = owing creditor rows k + posted log k := by
  have hset : owing creditor (rows.set i new) k + (if creditor old = some k then 1 else 0) =
      owing creditor rows k + (if creditor new = some k then 1 else 0) := owing_set h k
  have hposted : posted queued k = if creditor old = some k then 1 else 0 := by
    have hcount : posted queued k = (queued.map (·.1)).countP (fun key => key = k) := by
      rw [List.countP_map]
      rfl
    rw [hcount, hqueued]
    cases creditor old with
    | none => rfl
    | some key => simp [List.countP_cons]
  simp only [hclosed, reduceCtorEq, if_false, Nat.add_zero] at hset
  rw [posted_append, hposted]
  omega

/-- Rows that keep their debts keep every count. -/
theorem owing_rows {rows rows' : List α} (h : Rows (fun a b => creditor b = creditor a) rows rows') (k : κ) :
    owing creditor rows' k = owing creditor rows k := by
  induction h with
  | nil => rfl
  | cons hab _ ih =>
    simp only [owing, List.countP_cons] at ih ⊢
    rw [ih, hab]

/-- Counting the debts to `k` among its members: every row that owes `k` is one of the members, and
    a member stands for one row. -/
theorem owing_members {key : α → κ} {rows : List α} {members : List κ} {k : κ}
    (hrows : (rows.map key).Nodup) (hmembers : members.Nodup)
    (hall : ∀ a ∈ rows, creditor a = some k → key a ∈ members) :
    owing creditor rows k =
      members.countP (fun m => rows.any (fun a => key a = m && creditor a = some k)) := by
  rw [owing, List.countP_eq_length_filter, List.countP_eq_length_filter, ← List.length_map key]
  refine List.Perm.length_eq ((List.perm_ext_iff_of_nodup ?_ (hmembers.filter _)).mpr fun m => ?_)
  · exact hrows.sublist (List.filter_sublist.map key)
  · simp only [List.mem_map, List.mem_filter, decide_eq_true_eq, List.any_eq_true, Bool.and_eq_true]
    constructor
    · rintro ⟨a, ⟨ha, hk⟩, rfl⟩
      exact ⟨hall a ha hk, a, ha, rfl, hk⟩
    · rintro ⟨-, a, ha, rfl, hk⟩
      exact ⟨a, ⟨ha, hk⟩, rfl⟩

end

end Lib
