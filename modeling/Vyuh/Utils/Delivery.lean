import Mathlib
import Vyuh.Utils.Debounce

/-! What a debounced stream emits, and when. Two invariants carry the result: `Ordered`, about the
    outstanding deadlines, keeps the newest deadline less than `2 ^ 64` ahead of each of them, so that
    equal generations are equal deadlines although the counter wraps; `Tracks` relates the flags of the
    debouncer to the windows of the calls made so far, and the newest deadline to the end of the open
    one. -/

namespace Vyuh.Utils
open Lib

variable {α : Type}

/-! ### Outstanding deadlines -/

/-- How many outstanding deadlines were returned after one, and how many end after it. -/
def newer (serial : ℕ) (queue : List (ℕ × DebounceDeadline)) : ℕ := queue.countP fun e => serial < e.1

def later (deadline : Instant) (queue : List (ℕ × DebounceDeadline)) : ℕ :=
  queue.countP fun e => deadline < e.2.deadline

/-- The distance from a deadline to the last one returned. Until it is due every newer deadline is
    outstanding; from then on the newer ones are those that end with it, all of which were in the
    heap at once, and those that end later, which are outstanding. -/
def Near (s : Stream α) (e : ℕ × DebounceDeadline) : Prop :=
  (s.clock < e.2.deadline ∧ s.returned ≤ e.1 + newer e.1 s.queue) ∨
    (e.2.deadline ≤ s.clock ∧
      ∃ ties, ties ≤ isizeMax ∧ s.returned ≤ e.1 + ties + later e.2.deadline s.queue)

/-- The outstanding deadlines of a stream whose window is `window`. -/
structure Ordered (window : Duration) (s : Stream α) : Prop where
  numbered : ∀ e ∈ s.queue, 1 ≤ e.1 ∧ e.1 ≤ s.returned ∧ e.2.generation = e.1 % 2 ^ 64
  distinct : (s.queue.map (·.1)).Nodup
  sorted : ∀ e ∈ s.queue, ∀ e' ∈ s.queue, e.1 < e'.1 → e.2.deadline ≤ e'.2.deadline
  bounded : ∀ e ∈ s.queue, e.2.deadline ≤ s.clock + window
  fits : s.queue.length ≤ isizeMax
  near : ∀ e ∈ s.queue, Near s e

namespace Ordered

variable {window : Duration} {s : Stream α}

theorem newer_le (serial : ℕ) (queue : List (ℕ × DebounceDeadline)) : newer serial queue ≤ queue.length :=
  List.countP_le_length

theorem later_le (deadline : Instant) (queue : List (ℕ × DebounceDeadline)) :
    later deadline queue ≤ queue.length :=
  List.countP_le_length

/-- An outstanding deadline has the current generation only if it is the last one returned. -/
theorem generation_eq (h : Ordered window s) {e : ℕ × DebounceDeadline} (he : e ∈ s.queue) :
    e.2.generation = s.returned % 2 ^ 64 ↔ e.1 = s.returned := by
  obtain ⟨-, hle, hgen⟩ := h.numbered e he
  have hfits := h.fits
  have hspan : s.returned < e.1 + 2 ^ 64 := by
    rw [isizeMax] at hfits
    rcases h.near e he with ⟨-, hnear⟩ | ⟨-, ties, hties, hnear⟩
    · have hcount := newer_le e.1 s.queue
      omega
    · have hcount := later_le e.2.deadline s.queue
      rw [isizeMax] at hties
      omega
  rw [hgen]
  omega

theorem new (window : Duration) (conf : DebounceConf) : Ordered window (Stream.new conf : Stream α) := by
  refine ⟨?_, List.nodup_nil, ?_, ?_, Nat.zero_le _, ?_⟩
  all_goals intro e he; exact (nomatch he)

/-- Only the clock, the queue and the count matter. -/
theorem congr (h : Ordered window s) {s' : Stream α} (hclock : s'.clock = s.clock)
    (hqueue : s'.queue = s.queue) (hret : s'.returned = s.returned) : Ordered window s' := by
  obtain ⟨hnum, hdistinct, hsorted, hbounded, hfits, hnear⟩ := h
  simp only [Near] at hnear
  rw [← hqueue, ← hret] at hnum
  rw [← hqueue] at hdistinct hsorted hfits
  rw [← hqueue, ← hclock] at hbounded
  rw [← hqueue, ← hclock, ← hret] at hnear
  exact ⟨hnum, hdistinct, hsorted, hbounded, hfits, hnear⟩

/-- Time passes: deadlines that come due are now counted by when they end. -/
theorem advance (h : Ordered window s) {now : Instant} (hnow : s.clock ≤ now) :
    Ordered window { s with clock := now } := by
  refine ⟨h.numbered, h.distinct, h.sorted, fun e he => ?_, h.fits, fun e he => ?_⟩
  · exact (h.bounded e he).trans (Nat.add_le_add_right hnow _)
  · rcases h.near e he with ⟨hclock, hnear⟩ | ⟨hclock, ties, hties, hnear⟩
    · by_cases hdue : e.2.deadline ≤ now
      · refine .inr ⟨hdue, s.queue.length - later e.2.deadline s.queue, ?_, ?_⟩
        · exact (Nat.sub_le _ _).trans h.fits
        · have hnewer := newer_le e.1 s.queue
          have hlater := later_le e.2.deadline s.queue
          show s.returned ≤ e.1 + (s.queue.length - later e.2.deadline s.queue)
            + later e.2.deadline s.queue
          omega
      · exact .inl ⟨Nat.lt_of_not_le hdue, hnear⟩
    · exact .inr ⟨hclock.trans hnow, ties, hties, hnear⟩

/-- A deadline is returned: it ends after every deadline that is due. -/
theorem insert (h : Ordered window s) (hwindow : 0 < window) (hroom : s.queue.length < isizeMax)
    {d : DebounceDeadline} (hgen : d.generation = (s.returned + 1) % 2 ^ 64)
    (hd : d.deadline = s.clock + window) {s' : Stream α} (hclock : s'.clock = s.clock)
    (hqueue : s'.queue = s.queue ++ [(s.returned + 1, d)]) (hret : s'.returned = s.returned + 1) :
    Ordered window s' := by
  have hmem : ∀ {e}, e ∈ s'.queue → e ∈ s.queue ∨ e = (s.returned + 1, d) := by
    intro e he
    rwa [hqueue, List.mem_append, List.mem_singleton] at he
  refine ⟨fun e he => ?_, ?_, fun e he e' he' hlt => ?_, fun e he => ?_, ?_, fun e he => ?_⟩
  · rw [hret]
    rcases hmem he with he | rfl
    · obtain ⟨hpos, hle, hg⟩ := h.numbered e he
      exact ⟨hpos, by omega, hg⟩
    · exact ⟨Nat.le_add_left _ _, Nat.le_refl _, hgen⟩
  · rw [hqueue, List.map_append, List.nodup_append]
    refine ⟨h.distinct, by simp, fun a ha b hb => ?_⟩
    obtain ⟨e, he, rfl⟩ := List.mem_map.mp ha
    obtain rfl := List.mem_singleton.mp hb
    have hle := (h.numbered e he).2.1
    show e.1 ≠ s.returned + 1
    omega
  · rcases hmem he with he | rfl
    · rcases hmem he' with he' | rfl
      · exact h.sorted e he e' he' hlt
      · exact hd ▸ h.bounded e he
    · rcases hmem he' with he' | rfl
      · have hle := (h.numbered e' he').2.1
        simp only at hlt
        omega
      · exact Nat.le_refl _
  · rw [hclock]
    rcases hmem he with he | rfl
    · exact h.bounded e he
    · exact Nat.le_of_eq hd
  · rw [hqueue, List.length_append, List.length_singleton]
    exact hroom
  · have hnewer : newer e.1 s'.queue = newer e.1 s.queue + if e.1 < s.returned + 1 then 1 else 0 := by
      simp [newer, hqueue, List.countP_append, List.countP_singleton]
    have hlater : later e.2.deadline s'.queue =
        later e.2.deadline s.queue + if e.2.deadline < d.deadline then 1 else 0 := by
      simp [later, hqueue, List.countP_append, List.countP_singleton]
    unfold Near
    rw [hclock, hret, hnewer, hlater]
    rcases hmem he with he | rfl
    · have hle := (h.numbered e he).2.1
      rw [if_pos (by omega)]
      rcases h.near e he with ⟨hpast, hnear⟩ | ⟨hpast, ties, hties, hnear⟩
      · exact .inl ⟨hpast, by omega⟩
      · rw [if_pos (by rw [hd]; exact Nat.lt_of_le_of_lt hpast (Nat.lt_add_of_pos_right hwindow))]
        exact .inr ⟨hpast, ties, hties, by omega⟩
    · refine .inl ⟨?_, by simp only; omega⟩
      simp only [hd]
      exact Nat.lt_add_of_pos_right hwindow

/-- The earliest deadline is taken out once it is due. -/
theorem remove (h : Ordered window s) {before after : List (ℕ × DebounceDeadline)}
    {e₀ : ℕ × DebounceDeadline} (hqueue : s.queue = before ++ e₀ :: after)
    (hfirst : ∀ e ∈ s.queue, e₀.2.deadline ≤ e.2.deadline) (hdue : e₀.2.deadline ≤ s.clock)
    {s' : Stream α} (hclock : s'.clock = s.clock) (hqueue' : s'.queue = before ++ after)
    (hret : s'.returned = s.returned) : Ordered window s' := by
  have hsub : s'.queue.Sublist s.queue := by
    rw [hqueue, hqueue']
    exact (List.Sublist.refl _).append (List.sublist_cons_self ..)
  have hmem : ∀ {e}, e ∈ s'.queue → e ∈ s.queue := fun he => hsub.subset he
  have h₀ : e₀ ∈ s.queue := by simp [hqueue]
  refine ⟨fun e he => ?_, h.distinct.sublist (hsub.map _), fun e he e' he' => ?_, fun e he => ?_,
    hsub.length_le.trans h.fits, fun e he => ?_⟩
  · rw [hret]
    exact h.numbered e (hmem he)
  · exact h.sorted e (hmem he) e' (hmem he')
  · rw [hclock]
    exact h.bounded e (hmem he)
  · have hnewer : newer e.1 s.queue = newer e.1 s'.queue + if e.1 < e₀.1 then 1 else 0 := by
      simp [newer, hqueue, hqueue', List.countP_append, List.countP_cons]
      omega
    have hlater : later e.2.deadline s.queue =
        later e.2.deadline s'.queue + if e.2.deadline < e₀.2.deadline then 1 else 0 := by
      simp [later, hqueue, hqueue', List.countP_append, List.countP_cons]
      omega
    unfold Near
    rw [hclock, hret]
    rcases h.near e (hmem he) with ⟨hpast, hnear⟩ | ⟨hpast, ties, hties, hnear⟩
    · refine .inl ⟨hpast, ?_⟩
      rw [hnewer, if_neg] at hnear
      · exact hnear
      · intro hlt
        have hle := h.sorted e (hmem he) e₀ h₀ hlt
        exact absurd (hle.trans hdue) (Nat.not_le.mpr hpast)
    · refine .inr ⟨hpast, ties, hties, ?_⟩
      rw [hlater, if_neg (Nat.not_lt.mpr (hfirst e (hmem he)))] at hnear
      exact hnear

end Ordered

/-! ### The debouncer and its windows -/

/-- The state of a debouncer, read off the windows of the calls made on it. -/
def Windows.state (conf : DebounceConf) (w : Windows α) : Debouncer α where
  conf := conf
  active := !w.current.isEmpty
  generation := w.returned % 2 ^ 64
  pending := Windows.held conf.mode (Windows.values w.current)
  sawExtra := conf.mode = .leadingAndTrailing && !w.current.tail.isEmpty

/-- Whether a push on these windows returns a deadline. -/
def Windows.arms (mode : DebounceMode) (w : Windows α) : Bool :=
  !(mode = .leading && !w.current.isEmpty)

/-- The first push of a window is emitted at once unless the mode is trailing. -/
theorem push_state (conf : DebounceConf) (w : Windows α) (value : α) (now : Instant) :
    (w.state conf).push value now =
      (⟨if w.current = [] && conf.mode ≠ .trailing then some value else none,
        if w.arms conf.mode then some ⟨(w.returned + 1) % 2 ^ 64, now + conf.window⟩ else none⟩,
       (w.after conf (.push value now)).state conf) := by
  obtain ⟨window, mode⟩ := conf
  obtain ⟨closed, current, returned⟩ := w
  cases mode with
  | leading =>
    cases current <;>
      simp [Windows.state, Windows.after, Windows.arms, Windows.held, Debouncer.push,
        Debouncer.pushLeading, Debouncer.start, Debouncer.deadline, wrappingAddU64]
  | trailing =>
    simp [Windows.state, Windows.after, Windows.arms, Windows.held, Windows.values, Debouncer.push,
      Debouncer.pushTrailing, Debouncer.deadline, wrappingAddU64]
  | leadingAndTrailing =>
    cases current <;>
      simp [Windows.state, Windows.after, Windows.arms, Windows.held, Windows.values, Debouncer.push,
        Debouncer.pushBoth, Debouncer.start, Debouncer.deadline, wrappingAddU64]

/-- The deadline returned last finishes the open window. -/
theorem due_state (conf : DebounceConf) (w : Windows α) (hopen : w.current ≠ []) :
    (w.state conf).due (w.returned % 2 ^ 64) =
      (Windows.held conf.mode (Windows.values w.current),
        { w with closed := w.closed ++ [w.current], current := [] }.state conf) := by
  obtain ⟨window, mode⟩ := conf
  obtain ⟨closed, current, returned⟩ := w
  cases current with
  | nil => exact absurd rfl hopen
  | cons value rest =>
    cases mode with
    | leading => simp [Windows.state, Windows.held, Debouncer.due, Debouncer.reset]
    | trailing => simp [Windows.state, Windows.held, Windows.values, Debouncer.due]
    | leadingAndTrailing =>
      cases rest <;>
        simp [Windows.state, Windows.held, Windows.values, Debouncer.due, Debouncer.finishBoth]

/-- Any other generation is stale. -/
theorem due_stale {generation : ℕ} {d : Debouncer α} (h : generation ≠ d.generation) :
    d.due generation = (none, d) := by
  rw [Debouncer.due, if_pos h]

/-- A window ends one quiet time after the push that returned its newest deadline. -/
theorem ends_concat (conf : DebounceConf) (current : List (α × Instant)) (value : α) (now : Instant) :
    Windows.ends conf (current ++ [(value, now)]) =
      if conf.mode = .leading && !current.isEmpty then Windows.ends conf current else now + conf.window := by
  rw [Windows.ends, Windows.ends]
  by_cases hmode : conf.mode = .leading
  · cases current <;> simp [hmode]
  · simp [hmode]

/-- What relates a stream to the windows of the calls made on it. -/
structure Tracks (conf : DebounceConf) (w : Windows α) (s : Stream α) : Prop where
  debouncer : s.debouncer = w.state conf
  returned : s.returned = w.returned
  armed : w.current ≠ [] ↔ w.returned ∈ s.queue.map (·.1)
  emitted : s.emitted = w.emits conf.mode
  ends : ∀ e ∈ s.queue, e.1 = w.returned → e.2.deadline = Windows.ends conf w.current

namespace Tracks

variable {conf : DebounceConf} {w : Windows α} {s : Stream α}

theorem new (conf : DebounceConf) : Tracks conf (⟨[], [], 0⟩ : Windows α) (Stream.new conf) := by
  obtain ⟨window, mode⟩ := conf
  refine ⟨?_, rfl, by simp [Stream.new], ?_, fun e he => (nomatch he)⟩
  · cases mode <;> rfl
  · cases mode <;> rfl

/-- Opening a window is what its first push emits. -/
theorem opening_concat (mode : DebounceMode) (current : List (α × Instant)) (value : α) (now : Instant) :
    Windows.opening mode (Windows.values (current ++ [(value, now)])) =
      Windows.opening mode (Windows.values current) ++
        (if current = [] && mode ≠ .trailing then some value else none).toList := by
  cases mode <;> cases current <;> simp [Windows.opening, Windows.values]

/-- A push opens the window or joins it. -/
theorem push (h : Tracks conf w s) {window : Duration} (hord : Ordered window s) (value : α)
    (now : Instant) : Tracks conf (w.after conf (.push value now)) (s.pushed value now) := by
  obtain ⟨hd, hret, harmed, hemit, hends⟩ := h
  have hpush := push_state conf w value now
  rw [← hd] at hpush
  refine ⟨?_, ?_, ?_, ?_, ?_⟩
  · rw [Stream.pushed, hpush]
  · rw [Stream.pushed, hpush, hret]
    cases hleading : decide (conf.mode = .leading) && !w.current.isEmpty <;>
      simp [Windows.after, Windows.arms, hleading]
  · rw [Stream.pushed, hpush, hret]
    cases hleading : decide (conf.mode = .leading) && !w.current.isEmpty with
    | false => simp [Windows.after, Windows.arms, hleading]
    | true =>
      have hopen : w.current ≠ [] := by
        rintro hnil
        simp [hnil] at hleading
      simpa [Windows.after, Windows.arms, hleading] using harmed.mp hopen
  · rw [Stream.pushed, hpush, hemit]
    simp only [Windows.emits, Windows.after]
    rw [opening_concat, List.append_assoc]
  · intro e he hlast
    rw [Stream.pushed, hpush, hret] at he
    simp only [Windows.after] at hlast ⊢
    rw [ends_concat]
    cases hleading : decide (conf.mode = .leading) && !w.current.isEmpty with
    | true =>
      simp only [Windows.arms, hleading, Bool.not_true, Bool.false_eq_true, if_false, Option.map_none,
        Option.toList_none, List.append_nil] at he
      rw [hleading, if_pos rfl] at hlast
      rw [if_pos rfl]
      exact hends e he hlast
    | false =>
      simp only [Windows.arms, hleading, Bool.not_false, if_true, Option.map_some, Option.toList_some,
        List.mem_append, List.mem_singleton] at he
      rw [hleading, if_neg Bool.false_ne_true] at hlast
      rw [if_neg Bool.false_ne_true]
      -- An older deadline has a smaller number.
      rcases he with he | rfl
      · have hle := (hord.numbered e he).2.1
        omega
      · rfl

/-- A deadline closes the window when it is the last one returned, and is stale otherwise. -/
theorem due (h : Tracks conf w s) {window : Duration} (hord : Ordered window s)
    {before after : List (ℕ × DebounceDeadline)} {serial : ℕ} {d : DebounceDeadline}
    (hqueue : s.queue = before ++ (serial, d) :: after) {now : Instant} (hdue : d.deadline ≤ now) :
    Tracks conf (w.after conf (.due serial now)) (s.fired d (before ++ after) now) := by
  obtain ⟨hd, hret, harmed, hemit, hends⟩ := h
  have hmem : (serial, d) ∈ s.queue := by simp [hqueue]
  have hsub : ∀ e ∈ before ++ after, e ∈ s.queue := by
    intro e he
    rw [hqueue]
    exact ((List.Sublist.refl before).append (List.sublist_cons_self ..)).subset he
  have hgen := hord.generation_eq hmem
  simp only [hret] at hgen
  by_cases hlast : serial = w.returned
  · subst hlast
    have hopen : w.current ≠ [] := harmed.mpr (List.mem_map_of_mem hmem)
    have hclose := due_state conf w hopen
    rw [← hd] at hclose
    have hgone : w.returned ∉ (before ++ after).map (·.1) := by
      have hnodup := hord.distinct
      rw [hqueue, List.map_append, List.map_cons, List.nodup_middle, List.nodup_cons] at hnodup
      rw [List.map_append]
      exact hnodup.1
    have hafter : w.after conf (.due w.returned now) =
        { w with closed := w.closed ++ [w.current], current := [] } := by
      simp [Windows.after, hopen, ← hends _ hmem rfl, hdue]
    rw [Stream.fired, hgen.mpr rfl, hclose, hafter]
    refine ⟨rfl, hret, by simpa using hgone, ?_, fun e he heq => ?_⟩
    · rw [hemit]
      have hnone : Windows.opening conf.mode ([] : List α) = [] := by cases conf.mode <;> rfl
      simp [Windows.emits, Windows.values, hnone]
    · exact absurd (heq ▸ List.mem_map_of_mem he) hgone
  · have hstale : d.generation ≠ s.debouncer.generation := by
      rw [hd]
      exact fun heq => hlast (hgen.mp heq)
    have hafter : w.after conf (.due serial now) = w := by
      simp [Windows.after, hlast]
    rw [Stream.fired, due_stale hstale, hafter]
    refine ⟨hd, hret, ?_, by simpa using hemit, fun e he => hends e (hsub e he)⟩
    rw [harmed, hqueue]
    simp [Ne.symm hlast]

end Tracks

/-! ### Runs -/

/-- The windows hold exactly the pushes, in order. -/
theorem windows_pushes (conf : DebounceConf) (calls : List (Call α)) :
    (windows conf calls).closed.flatten ++ (windows conf calls).current = pushes calls := by
  induction calls using List.reverseRecOn with
  | nil => rfl
  | append_singleton calls call ih =>
    rw [pushes, List.filterMap_append, windows, List.foldl_append, ← pushes, ← ih]
    cases call with
    | push value now => simp [Windows.after, windows]
    | due serial now =>
      simp only [List.foldl_cons, List.foldl_nil, Windows.after, windows]
      split <;> simp

/-- What a mode emits of one window is a subsequence of it. -/
theorem emits_window_sublist (mode : DebounceMode) (window : List α) :
    (Windows.opening mode window ++ (Windows.held mode window).toList).Sublist window := by
  cases window with
  | nil => cases mode <;> simp [Windows.opening, Windows.held]
  | cons first rest =>
    have hlast : (rest.getLast?.toList).Sublist rest := by
      cases hrest : rest.getLast? with
      | none => simp
      | some last => simpa using List.mem_of_getLast? hrest
    cases mode with
    | leading => simp [Windows.opening, Windows.held]
    | trailing =>
      cases hrest : (first :: rest).getLast? with
      | none => simp [Windows.opening, Windows.held, hrest]
      | some last =>
        have hmem := List.mem_of_getLast? hrest
        simpa [Windows.opening, Windows.held, hrest] using hmem
    | leadingAndTrailing => simpa [Windows.opening, Windows.held] using hlast

theorem values_append (window rest : List (α × Instant)) :
    Windows.values (window ++ rest) = Windows.values window ++ Windows.values rest := List.map_append

theorem emits_sublist (mode : DebounceMode) (w : Windows α) :
    (w.emits mode).Sublist (Windows.values (w.closed.flatten ++ w.current)) := by
  have hclosed : (w.closed.flatMap fun window => Windows.opening mode (Windows.values window) ++
      (Windows.held mode (Windows.values window)).toList).Sublist (Windows.values w.closed.flatten) := by
    induction w.closed with
    | nil => simp [Windows.values]
    | cons window rest ih =>
      rw [List.flatMap_cons, List.flatten_cons, values_append]
      exact (emits_window_sublist mode _).append ih
  rw [values_append]
  refine hclosed.append ?_
  exact (List.sublist_append_left ..).trans (emits_window_sublist mode _)

/-- What one call keeps. -/
theorem deliver_step {conf : DebounceConf} (hvalid : conf.isValid = true) {w : Windows α}
    {s s' : Stream α} {call : Call α} (h : Deliver s call s') (hord : Ordered conf.window s)
    (htracks : Tracks conf w s) :
    Ordered conf.window s' ∧ Tracks conf (w.after conf call) s' := by
  cases h with
  | @push value now hclock hroom =>
    refine ⟨?_, htracks.push hord value now⟩
    have hadvanced := hord.advance hclock
    have hpush := push_state conf w value now
    rw [← htracks.debouncer] at hpush
    cases harms : w.arms conf.mode with
    | true =>
      have hwindow : 0 < conf.window := Nat.pos_of_ne_zero (by simpa [DebounceConf.isValid] using hvalid)
      refine hadvanced.insert hwindow hroom (d := ⟨(w.returned + 1) % 2 ^ 64, now + conf.window⟩)
        (by rw [htracks.returned]) rfl ?_ ?_ ?_
      all_goals rw [Stream.pushed, hpush]
      · simp [harms]
      · simp [harms]
    | false =>
      refine hadvanced.congr ?_ ?_ ?_
      all_goals rw [Stream.pushed, hpush]
      · simp [harms]
      · simp [harms]
  | @due serial d before after now hclock hqueue hfirst hdue =>
    refine ⟨?_, htracks.due hord hqueue hdue⟩
    exact (hord.advance hclock).remove hqueue hfirst hdue rfl rfl rfl

/-- What a run keeps, whatever windows it starts from. -/
theorem deliver_run {conf : DebounceConf} (hvalid : conf.isValid = true) {s s' : Stream α}
    {calls : List (Call α)} (hrun : Run Deliver s calls s') :
    ∀ w, Ordered conf.window s → Tracks conf w s →
      Ordered conf.window s' ∧ Tracks conf (calls.foldl (Windows.after conf) w) s' := by
  induction hrun with
  | nil s => exact fun w hord htracks => ⟨hord, htracks⟩
  | cons first rest ih =>
    intro w hord htracks
    obtain ⟨hord', htracks'⟩ := deliver_step hvalid first hord htracks
    exact ih _ hord' htracks'

/-! ### When windows begin and end -/

/-- The closed windows are over, and what is pushed later is pushed after their ends. -/
structure Timed (conf : DebounceConf) (w : Windows α) (clock : Instant) : Prop where
  ended : ∀ window ∈ w.closed, Windows.ends conf window ≤ clock
  apart : (w.closed ++ [w.current]).Pairwise fun early late => ∀ push ∈ late, Windows.ends conf early ≤ push.2

namespace Timed

variable {conf : DebounceConf} {w : Windows α} {clock now : Instant}

theorem new (conf : DebounceConf) : Timed conf (⟨[], [], 0⟩ : Windows α) 0 :=
  ⟨fun _ h => (nomatch h), List.pairwise_singleton _ _⟩

theorem push (h : Timed conf w clock) (value : α) (hnow : clock ≤ now) :
    Timed conf (w.after conf (.push value now)) now := by
  obtain ⟨hclosed, -, hopen⟩ := List.pairwise_append.mp h.apart
  refine ⟨fun window hmem => (h.ended window hmem).trans hnow, ?_⟩
  refine List.pairwise_append.mpr ⟨hclosed, List.pairwise_singleton _ _, fun early hearly late hlate push hpush => ?_⟩
  obtain rfl := List.mem_singleton.mp hlate
  rcases List.mem_append.mp hpush with hold | hnew
  · exact hopen early hearly _ (List.mem_singleton_self _) push hold
  · obtain rfl := List.mem_singleton.mp hnew
    exact (h.ended early hearly).trans hnow

theorem due (h : Timed conf w clock) (serial : ℕ) (hnow : clock ≤ now) :
    Timed conf (w.after conf (.due serial now)) now := by
  rw [Windows.after]
  split
  next hclose =>
    rw [Bool.and_eq_true, decide_eq_true_eq] at hclose
    refine ⟨fun window hmem => ?_, ?_⟩
    · rcases List.mem_append.mp hmem with hold | hlast
      · exact (h.ended window hold).trans hnow
      · rw [List.mem_singleton.mp hlast]
        exact hclose.2
    · refine List.pairwise_append.mpr ⟨h.apart, List.pairwise_singleton _ _, fun _ _ late hlate push hpush => ?_⟩
      rw [List.mem_singleton.mp hlate] at hpush
      exact nomatch hpush
  next => exact ⟨fun window hmem => (h.ended window hmem).trans hnow, h.apart⟩

/-- The clock does not go back in a run. -/
theorem run {s s' : Stream α} {calls : List (Call α)} (hrun : Run Deliver s calls s') :
    ∀ w, Timed conf w s.clock → Timed conf (calls.foldl (Windows.after conf) w) s'.clock := by
  induction hrun with
  | nil s => exact fun w h => h
  | cons first rest ih =>
    intro w h
    refine ih _ ?_
    cases first with
    | push hclock _ => exact h.push _ hclock
    | due hclock _ _ _ => exact h.due _ hclock

end Timed

/-- After any calls a stream has emitted what its mode emits of the windows of those calls: in
    leading mode the first value of each, in trailing mode the last value of each closed one, in the
    combined mode the first value and, once closed, the last later one. That is a subsequence of the
    values pushed. An open window is closed by an outstanding deadline, the last one returned, which is
    due when the window ends; no value of a later window was pushed before that end; and any other
    deadline is stale: it emits nothing and changes nothing. -/
theorem debouncer_delivery {conf : DebounceConf} (hvalid : conf.isValid = true)
    {calls : List (Call α)} {s : Stream α} (hrun : Run Deliver (Stream.new conf) calls s) :
    s.emitted = (windows conf calls).emits conf.mode ∧
      s.emitted.Sublist (Windows.values (pushes calls)) ∧
      ((windows conf calls).current ≠ [] → ∃ e ∈ s.queue, e.1 = (windows conf calls).returned ∧
        e.2.deadline = Windows.ends conf (windows conf calls).current) ∧
      ((windows conf calls).closed ++ [(windows conf calls).current]).Pairwise
        (fun early late => ∀ push ∈ late, Windows.ends conf early ≤ push.2) ∧
      ∀ e ∈ s.queue, e.1 ≠ (windows conf calls).returned →
        s.debouncer.due e.2.generation = (none, s.debouncer) := by
  obtain ⟨hord, htracks⟩ := deliver_run hvalid hrun _ (Ordered.new conf.window conf) (Tracks.new conf)
  replace htracks : Tracks conf (windows conf calls) s := htracks
  refine ⟨htracks.emitted, ?_, fun hopen => ?_, (Timed.run hrun _ (Timed.new conf)).apart,
    fun e he hne => due_stale fun hgen => hne ?_⟩
  · rw [htracks.emitted, ← windows_pushes conf calls]
    exact emits_sublist conf.mode _
  · obtain ⟨e, he, hlast⟩ := List.mem_map.mp (htracks.armed.mp hopen)
    exact ⟨e, he, hlast, htracks.ends e he hlast⟩
  · rw [htracks.debouncer] at hgen
    rw [← htracks.returned]
    refine (hord.generation_eq he).mp ?_
    rw [hgen, htracks.returned]
    rfl

/-- Two bursts of the values 7, 8 and 9, and their deadlines: the second comes due before the third was
    pushed, the first is stale. -/
theorem debouncer_delivery_pair : ∃ s : Stream ℕ,
    Run Deliver (Stream.new ⟨5, .trailing⟩)
      [.push 7 0, .push 8 1, .due 1 5, .due 2 6, .push 9 7, .due 3 12] s ∧
      s.emitted = [8, 9] ∧
      (windows ⟨5, .trailing⟩ [.push 7 0, .push 8 1, .due 1 5, .due 2 6, .push 9 7, .due 3 12]).closed =
        [[(7, 0), (8, 1)], [(9, 7)]] := by
  let first : Stream ℕ := ((Stream.new ⟨5, .trailing⟩).pushed 7 0).pushed 8 1
  let second : Stream ℕ := ((first.fired ⟨1, 5⟩ [(2, ⟨2, 6⟩)] 5).fired ⟨2, 6⟩ [] 6).pushed 9 7
  have hrun : Run Deliver (Stream.new ⟨5, .trailing⟩)
      [.push 7 0, .push 8 1, .due 1 5, .due 2 6, .push 9 7, .due 3 12] (second.fired ⟨3, 12⟩ [] 12) := by
    refine .cons (.push (by decide) (by decide)) (.cons (.push (by decide) (by decide)) ?_)
    refine .cons (@Deliver.due _ _ _ _ [] _ _ (by decide) rfl (by decide) (by decide)) ?_
    refine .cons (@Deliver.due _ _ _ _ [] _ _ (by decide) rfl (by decide) (by decide)) ?_
    refine .cons (.push (by decide) (by decide)) ?_
    exact .cons (@Deliver.due _ _ _ _ [] _ _ (by decide) rfl (by decide) (by decide)) (.nil _)
  refine ⟨_, hrun, ?_, by decide⟩
  rw [(debouncer_delivery (by decide) hrun).1]
  decide

/-! ### Quiet bursts -/

/-- A call that comes before no deadline is overdue. -/
def Prompt (s : Stream α) (call : Call α) (s' : Stream α) : Prop :=
  Deliver s call s' ∧ ∀ value now, call = .push value now → ∀ e ∈ s.queue, now ≤ e.2.deadline

/-- Every push of a window but its first comes no later than the end that the window had before. -/
def Burst (conf : DebounceConf) (window : List (α × Instant)) : Prop :=
  ∀ n push, window[n + 1]? = some push → push.2 ≤ Windows.ends conf (window.take (n + 1))

theorem Burst.concat {conf : DebounceConf} {window : List (α × Instant)} (h : Burst conf window) {value : α}
    {now : Instant} (hnow : window ≠ [] → now ≤ Windows.ends conf window) :
    Burst conf (window ++ [(value, now)]) := by
  intro n push hpush
  rcases Nat.lt_or_ge (n + 1) window.length with hlt | hge
  · rw [List.getElem?_append_left hlt] at hpush
    rw [List.take_append_of_le_length hlt.le]
    exact h n push hpush
  · rw [List.getElem?_append_right hge, List.getElem?_singleton] at hpush
    split at hpush
    next hlast =>
      have hlength : n + 1 = window.length := by omega
      rw [hlength, List.take_left, ← Option.some.inj hpush]
      refine hnow fun hnil => ?_
      rw [hnil] at hlength
      exact nomatch hlength
    next => exact nomatch hpush

/-- The windows of some calls, all of them bursts. -/
def Windows.Bursts (conf : DebounceConf) (w : Windows α) : Prop :=
  ∀ window ∈ w.closed ++ [w.current], Burst conf window

theorem burst_nil (conf : DebounceConf) : Burst conf ([] : List (α × Instant)) := fun _ _ h => nomatch h

theorem bursts_step {conf : DebounceConf} {w : Windows α} {s s' : Stream α} {call : Call α}
    (h : Prompt s call s') (htracks : Tracks conf w s) (hbursts : w.Bursts conf) :
    (w.after conf call).Bursts conf := by
  cases call with
  | push value now =>
    intro window hmem
    rcases List.mem_append.mp hmem with hclosed | hopen
    · exact hbursts window (List.mem_append_left _ hclosed)
    · rw [List.mem_singleton.mp hopen]
      refine (hbursts _ (List.mem_append_right _ (List.mem_singleton_self _))).concat fun hne => ?_
      obtain ⟨e, he, hlast⟩ := List.mem_map.mp (htracks.armed.mp hne)
      rw [← htracks.ends e he hlast]
      exact h.2 value now rfl e he
  | due serial now =>
    intro window hmem
    rw [Windows.after] at hmem
    split at hmem
    next =>
      rcases List.mem_append.mp hmem with hold | hnew
      · exact hbursts window hold
      · rw [List.mem_singleton.mp hnew]
        exact burst_nil conf
    next => exact hbursts window hmem

theorem bursts_run {conf : DebounceConf} (hvalid : conf.isValid = true) {s s' : Stream α}
    {calls : List (Call α)} (hrun : Run Prompt s calls s') :
    ∀ w, Ordered conf.window s → Tracks conf w s → w.Bursts conf →
      (calls.foldl (Windows.after conf) w).Bursts conf := by
  induction hrun with
  | nil s => exact fun w _ _ h => h
  | cons first rest ih =>
    intro w hord htracks hbursts
    obtain ⟨hord', htracks'⟩ := deliver_step hvalid first.1 hord htracks
    exact ih _ hord' htracks' (bursts_step first htracks hbursts)

/-- When overdue deadlines are delivered before the next push, the windows are the quiet bursts: a push
    joins a window no later than its end, and opens the next one no earlier. -/
theorem windows_are_bursts {conf : DebounceConf} (hvalid : conf.isValid = true) {calls : List (Call α)}
    {s : Stream α} (hrun : Run Prompt (Stream.new conf) calls s) : (windows conf calls).Bursts conf := by
  refine bursts_run hvalid hrun _ (Ordered.new conf.window conf) (Tracks.new conf) fun window hmem => ?_
  rw [List.mem_singleton.mp hmem]
  exact burst_nil conf

end Vyuh.Utils
