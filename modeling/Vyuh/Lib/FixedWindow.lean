import Mathlib

/-! Fixed windows: a counter that starts again when a whole window has passed since it was opened. What is taken
    while there is room stays within the limit in each window, and within twice the limit in any interval as long as
    a window. -/

namespace Lib

structure FixedWindow where
  length : ℕ
  limit : ℕ
  length_pos : 0 < length

/-- What has been used of the window that was opened last. -/
structure Used where
  openedAt : ℕ
  count : ℕ

/-- Something that is asked for at a time, and whether it is taken. -/
structure Request where
  at_ : ℕ
  taken : Bool

namespace FixedWindow

variable (w : FixedWindow)

def refresh (now : ℕ) (used : Used) : Used := if w.length ≤ now - used.openedAt then ⟨now, 0⟩ else used

def charge (taken : Bool) (used : Used) : Used := if taken then { used with count := used.count + 1 } else used

/-- Whatever is taken is taken while there is room. -/
inductive Admits : Used → List Request → Prop
  | nil (used : Used) : Admits used []
  | cons {used : Used} {request : Request} {requests : List Request}
      (room : request.taken = true → (w.refresh request.at_ used).count < w.limit)
      (rest : Admits (charge request.taken (w.refresh request.at_ used)) requests) : Admits used (request :: requests)

/-- How much is taken at some times. -/
def takenAt (requests : List Request) (during : ℕ → Bool) : ℕ :=
  requests.countP fun request => request.taken && during request.at_

/-- When windows are opened: at first, and by what is asked for when a window has passed. -/
def openings (length openedAt : ℕ) : List Request → List ℕ
  | [] => [openedAt]
  | request :: requests =>
    if length ≤ request.at_ - openedAt then openedAt :: openings length request.at_ requests
    else openings length openedAt requests

/-- Requests by time. -/
def Ordered (requests : List Request) : Prop := requests.Pairwise fun a b => a.at_ ≤ b.at_

section

variable {w} {used : Used} {request : Request} {requests : List Request} {during : ℕ → Bool} {now : ℕ}

theorem takenAt_cons : takenAt (request :: requests) during =
    takenAt requests during + if request.taken && during request.at_ then 1 else 0 :=
  List.countP_cons

theorem takenAt_eq_zero (h : ∀ request ∈ requests, during request.at_ = false) : takenAt requests during = 0 := by
  rw [takenAt, List.countP_eq_zero]
  intro request hmem
  rw [h request hmem, Bool.and_false]
  exact Bool.false_ne_true

theorem takenAt_mono {during' : ℕ → Bool} (h : ∀ request ∈ requests, during request.at_ = true → during' request.at_ = true) :
    takenAt requests during ≤ takenAt requests during' := by
  refine List.countP_mono_left fun request hmem htaken => ?_
  rw [Bool.and_eq_true] at htaken ⊢
  exact ⟨htaken.1, h request hmem htaken.2⟩

theorem refresh_of_le (h : w.length ≤ now - used.openedAt) : w.refresh now used = ⟨now, 0⟩ := if_pos h

theorem refresh_of_lt (h : now - used.openedAt < w.length) : w.refresh now used = used := if_neg (not_le.mpr h)

theorem charge_openedAt (taken : Bool) (used : Used) : (charge taken used).openedAt = used.openedAt := by
  cases taken <;> rfl

theorem charge_count (taken : Bool) (used : Used) :
    (charge taken used).count = used.count + if taken then 1 else 0 := by
  cases taken <;> rfl

/-- What is taken in the open window, with what has been used of it, stays within the limit. -/
theorem Admits.taken_before (h : w.Admits used requests) (hordered : Ordered requests) (hused : used.count ≤ w.limit) :
    takenAt requests (fun at_ => at_ < used.openedAt + w.length) + used.count ≤ w.limit := by
  induction h with
  | nil used => rwa [takenAt, List.countP_nil, Nat.zero_add]
  | @cons used request requests room rest ih =>
    obtain ⟨hlater, hordered⟩ := List.pairwise_cons.mp hordered
    rw [takenAt_cons]
    by_cases hpassed : w.length ≤ request.at_ - used.openedAt
    · have hpos := w.length_pos
      have hnone : ∀ at_, request.at_ ≤ at_ → decide (at_ < used.openedAt + w.length) = false := fun at_ hle =>
        decide_eq_false (by omega)
      rw [takenAt_eq_zero fun later hmem => hnone _ (hlater later hmem), hnone _ le_rfl, Bool.and_false,
        if_neg Bool.false_ne_true, Nat.zero_add]
      exact hused
    · have hrefresh := refresh_of_lt (not_le.mp hpassed)
      rw [hrefresh] at room ih
      have hwithin : (charge request.taken used).count ≤ w.limit := by
        rw [charge_count]
        cases htaken : request.taken with
        | true => exact room htaken
        | false => exact hused
      have hih := ih hordered hwithin
      rw [charge_openedAt, charge_count] at hih
      have hle : (if request.taken && decide (request.at_ < used.openedAt + w.length) then 1 else 0) ≤
          if request.taken then 1 else 0 := by
        cases request.taken with
        | true => rw [Bool.true_and, if_pos rfl]; split <;> decide
        | false => exact le_rfl
      omega

theorem takenAt_add {first second : ℕ → Bool} (h : ∀ at_, during at_ = true → first at_ = true ∨ second at_ = true) :
    takenAt requests during ≤ takenAt requests first + takenAt requests second := by
  induction requests with
  | nil => exact le_rfl
  | cons request requests ih =>
    have hone : (if request.taken && during request.at_ then 1 else 0) ≤
        (if request.taken && first request.at_ then 1 else 0) + if request.taken && second request.at_ then 1 else 0 := by
      by_cases hduring : (request.taken && during request.at_) = true
      · rw [if_pos hduring]
        rw [Bool.and_eq_true] at hduring
        rw [hduring.1]
        rcases h _ hduring.2 with hfirst | hsecond
        · rw [hfirst]
          exact Nat.le_add_right _ _
        · rw [hsecond]
          exact Nat.le_add_left _ _
      · rw [if_neg hduring]
        exact Nat.zero_le _
    rw [takenAt_cons, takenAt_cons, takenAt_cons]
    omega

/-- A window that is opened later is opened when the open one has passed. -/
theorem openings_cases {openedAt opening : ℕ} (h : opening ∈ openings w.length openedAt requests) :
    opening = openedAt ∨ openedAt + w.length ≤ opening := by
  have hpos := w.length_pos
  induction requests generalizing openedAt with
  | nil => exact .inl (List.mem_singleton.mp h)
  | cons request requests ih =>
    rw [openings] at h
    split at h
    next hpassed =>
      obtain rfl | hlater := List.mem_cons.mp h
      · exact .inl rfl
      · rcases ih hlater with rfl | hle <;> omega
    next => exact ih h

/-- A request opens a new window, or falls into the open one. -/
theorem refresh_cases (now : ℕ) (used : Used) :
    w.length ≤ now - used.openedAt ∧ w.refresh now used = ⟨now, 0⟩ ∨
      now - used.openedAt < w.length ∧ w.refresh now used = used := by
  rcases Nat.lt_or_ge (now - used.openedAt) w.length with hlt | hle
  · exact .inr ⟨hlt, refresh_of_lt hlt⟩
  · exact .inl ⟨hle, refresh_of_le hle⟩

theorem refresh_refresh (now : ℕ) (used : Used) : w.refresh now (w.refresh now used) = w.refresh now used := by
  have hpos := w.length_pos
  rcases refresh_cases (w := w) now used with ⟨-, heq⟩ | ⟨-, heq⟩
  · rw [heq]
    exact refresh_of_lt (by dsimp only; omega)
  · rw [heq, heq]

/-- The counter may as well be refreshed before its first request. -/
theorem Admits.refreshed (h : w.Admits used (request :: requests)) :
    w.Admits (w.refresh request.at_ used) (request :: requests) := by
  cases h with
  | cons room rest => exact .cons (by rwa [refresh_refresh]) (by rwa [refresh_refresh])

theorem refresh_count_le (hused : used.count ≤ w.limit) : (w.refresh now used).count ≤ w.limit := by
  rcases refresh_cases (w := w) now used with ⟨-, heq⟩ | ⟨-, heq⟩
  · rw [heq]
    exact Nat.zero_le _
  · rwa [heq]

/-- What has been used after a request is within the limit. -/
theorem charge_count_le (hused : used.count ≤ w.limit)
    (room : request.taken = true → (w.refresh request.at_ used).count < w.limit) :
    (charge request.taken (w.refresh request.at_ used)).count ≤ w.limit := by
  have hle : (w.refresh request.at_ used).count ≤ w.limit := refresh_count_le hused
  rw [charge_count]
  cases htaken : request.taken with
  | true => exact room htaken
  | false => exact hle

theorem lt_refresh (now : ℕ) (used : Used) : now < (w.refresh now used).openedAt + w.length := by
  have hpos := w.length_pos
  rcases refresh_cases (w := w) now used with ⟨-, heq⟩ | ⟨hlt, heq⟩
  · rw [heq]
    exact Nat.lt_add_of_pos_right hpos
  · rw [heq]
    omega

theorem mem_openings_cons {opening : ℕ} (h : opening ∈ openings w.length used.openedAt (request :: requests)) :
    opening = used.openedAt ∨ opening ∈ openings w.length (w.refresh request.at_ used).openedAt requests := by
  rw [openings] at h
  rcases refresh_cases (w := w) request.at_ used with ⟨hle, heq⟩ | ⟨hlt, heq⟩
  · rw [if_pos hle, List.mem_cons] at h
    rwa [heq]
  · rw [if_neg (not_le.mpr hlt)] at h
    rw [heq]
    exact .inr h

theorem Admits.taken_since_opening (h : w.Admits used requests) (hordered : Ordered requests)
    (hused : used.count ≤ w.limit) :
    takenAt requests (fun at_ => used.openedAt ≤ at_ && at_ < used.openedAt + w.length) ≤ w.limit := by
  refine le_trans (@takenAt_mono requests _ (fun at_ => at_ < used.openedAt + w.length) fun request _ hduring => ?_)
    (le_trans (Nat.le_add_right _ _) (h.taken_before hordered hused))
  rw [Bool.and_eq_true] at hduring
  exact hduring.2

/-- What is taken in a fixed window stays within its limit. -/
theorem Admits.taken_in_window (h : w.Admits used requests) (hordered : Ordered requests) (hused : used.count ≤ w.limit)
    {opening : ℕ} (hopening : opening ∈ openings w.length used.openedAt requests) :
    takenAt requests (fun at_ => opening ≤ at_ && at_ < opening + w.length) ≤ w.limit := by
  induction h with
  | nil => exact Nat.zero_le _
  | @cons used request requests room rest ih =>
    have hadmits := Admits.cons room rest
    obtain ⟨-, hrest⟩ := List.pairwise_cons.mp hordered
    rcases mem_openings_cons hopening with rfl | hlater
    · exact hadmits.taken_since_opening hordered hused
    · rcases openings_cases hlater with rfl | hpassed
      · exact hadmits.refreshed.taken_since_opening hordered (refresh_count_le hused)
      · have hearly : decide (opening ≤ request.at_) = false :=
          decide_eq_false (not_le.mpr (lt_of_lt_of_le (lt_refresh request.at_ used) hpassed))
        rw [takenAt_cons, hearly, Bool.false_and, Bool.and_false, if_neg Bool.false_ne_true, Nat.add_zero]
        rw [← charge_openedAt request.taken] at hlater
        exact ih hrest (charge_count_le hused room) hlater

/-- What is taken when the open window has passed, up to a window's length after some time in it, fits the next. -/
theorem Admits.taken_after (h : w.Admits used requests) (hordered : Ordered requests) (hused : used.count ≤ w.limit)
    {start : ℕ} (hstart : start < used.openedAt + w.length) :
    takenAt requests (fun at_ => used.openedAt + w.length ≤ at_ && at_ ≤ start + w.length) ≤ w.limit := by
  induction h with
  | nil => exact Nat.zero_le _
  | @cons used request requests room rest ih =>
    have hpos := w.length_pos
    have hadmits := Admits.cons room rest
    obtain ⟨-, hrest⟩ := List.pairwise_cons.mp hordered
    rcases refresh_cases (w := w) request.at_ used with ⟨hle, heq⟩ | ⟨hlt, heq⟩
    · have hnext := hadmits.refreshed.taken_before hordered (refresh_count_le hused)
      rw [heq] at hnext
      refine le_trans (takenAt_mono fun later _ hduring => ?_) (le_trans (Nat.le_add_right _ _) hnext)
      rw [Bool.and_eq_true, decide_eq_true_eq, decide_eq_true_eq] at hduring
      exact decide_eq_true (by dsimp only; omega)
    · have hearly : decide (used.openedAt + w.length ≤ request.at_) = false := decide_eq_false (by omega)
      have hcount := charge_count_le hused room
      rw [heq] at ih hcount
      have hih := ih hrest hcount (by rwa [charge_openedAt])
      rw [charge_openedAt] at hih
      rwa [takenAt_cons, hearly, Bool.false_and, Bool.and_false, if_neg Bool.false_ne_true, Nat.add_zero]

/-- An interval as long as a window meets at most two of them. -/
theorem Admits.taken_in_interval (h : w.Admits used requests) (hordered : Ordered requests) (hused : used.count ≤ w.limit)
    (start : ℕ) : takenAt requests (fun at_ => start ≤ at_ && at_ ≤ start + w.length) ≤ 2 * w.limit := by
  induction h with
  | nil => exact Nat.zero_le _
  | @cons used request requests room rest ih =>
    have hadmits := (Admits.cons room rest).refreshed
    have hcount : (w.refresh request.at_ used).count ≤ w.limit := refresh_count_le hused
    obtain ⟨-, hrest⟩ := List.pairwise_cons.mp hordered
    rcases Nat.lt_or_ge request.at_ start with hearly | hstart
    · rw [takenAt_cons, decide_eq_false (not_le.mpr hearly), Bool.false_and, Bool.and_false,
        if_neg Bool.false_ne_true, Nat.add_zero]
      exact ih hrest (charge_count_le hused room)
    · have hopen := hadmits.taken_before hordered hcount
      have hnext := hadmits.taken_after hordered hcount (lt_of_le_of_lt hstart (lt_refresh request.at_ used))
      refine le_trans (takenAt_add fun at_ hduring => ?_) (le_trans (Nat.add_le_add (le_trans (Nat.le_add_right _ _) hopen)
        hnext) (le_of_eq (Nat.two_mul _).symm))
      rw [Bool.and_eq_true, decide_eq_true_eq, decide_eq_true_eq] at hduring
      rw [Bool.and_eq_true, decide_eq_true_eq, decide_eq_true_eq, decide_eq_true_eq]
      omega

end

end FixedWindow

end Lib
