import Vyuh.Emitters.Scheduled

/-! The cursor of a schedule. Replicas act on old snapshots and on deadlines of their own; what keeps them
    from submitting an occurrence twice is that the store compares the occurrence with the cursor and moves
    the cursor to the time of the store. -/

namespace Vyuh.Emitters

open Lib Tasks Tasks.Memory

variable {world world' : World} {work : ScheduleWork} {event : Event} {name : String}

/-! ### What the store does to cursors -/

/-- A submission is refused at or before the cursor, fails, or moves the cursor. -/
theorem storeScheduled_answers (scheduled : ScheduledTaskWrite) (now : DateTime) (state : MemoryState) :
    (∃ last, state.schedules scheduled.name = some last ∧ scheduled.occurrence ≤ last ∧
      storeScheduled scheduled now state = (.ok none, state)) ∨
    (∃ error, storeScheduled scheduled now state = (.error error, state)) ∨
    ((∀ last, state.schedules scheduled.name = some last → last < scheduled.occurrence) ∧
      ∃ receipt tasks, storeScheduled scheduled now state = (.ok (some receipt), { state with
        tasks := tasks
        schedules := state.schedules.insert scheduled.name (max now scheduled.occurrence) })) := by
  simp only [storeScheduled, Step.bind_run, Step.get_run]
  split
  · next h =>
    cases hlast : state.schedules scheduled.name with
    | none => rw [hlast] at h; cases h
    | some last =>
      rw [hlast, Option.any_some, decide_eq_true_eq] at h
      exact .inl ⟨last, rfl, h, rfl⟩
  · next h =>
    have hlater : ∀ last, state.schedules scheduled.name = some last → last < scheduled.occurrence := by
      intro last hlast
      rw [hlast, Option.any_some, decide_eq_true_eq] at h
      exact lt_of_not_ge h
    simp only [Step.bind_run, Step.lift_run]
    cases hv : validateWriteLanes state [scheduled.write] with
    | error error => exact .inr (.inl ⟨error, rfl⟩)
    | ok u =>
      cases hs : stageWrite state.tasks [] scheduled.write now with
      | error error => exact .inr (.inl ⟨error, rfl⟩)
      | ok entry => exact .inr (.inr ⟨hlater, entry.1, _, rfl⟩)

/-- No other operation touches a cursor. -/
theorem exec_schedules [Serde] (store : MemoryTaskStore) {op : Op} (h : schedules op = false)
    (state : MemoryState) : (exec store op state).2.schedules = state.schedules := by
  cases hop : op.quiet with
  | false => exact (exec_frame store hop).schedules
  | true =>
    have hedit := exec_edits store hop state
    generalize (exec store op state).2 = after at hedit ⊢
    cases hedit with
    | refused | registered | retired | returned | reassigned | resumed => rfl
    | stored _ _ _ _ _ hcursor =>
      rcases hcursor with hsame | ⟨scheduled, time, rfl⟩
      · exact hsame
      · cases h

/-! ### What a worker starts with -/

theorem initialDeadline_cases {source : EmitterSource} {cursor : Option DateTime} {start : ScheduleStart}
    {now : DateTime} {due : Due} (h : initialDeadline source cursor start now = .ok due) :
    (cursor = none ∧ due = .initial now) ∨ (∃ since, cursor = some since ∧ due = .catchUp since now) ∨
      (∃ time, due = .boundary time) ∧ (cursor = none → start = .next) := by
  cases cursor with
  | none =>
    cases start with
    | immediately => exact .inl ⟨rfl, (Except.ok.inj h).symm⟩
    | next =>
      obtain ⟨time, -, h⟩ := Step.except_bind_ok.mp h
      exact .inr (.inr ⟨⟨time, (Except.ok.inj h).symm⟩, fun _ => rfl⟩)
  | some since =>
    obtain ⟨missed, -, h⟩ := Step.except_bind_ok.mp h
    split at h
    · exact .inr (.inl ⟨since, rfl, (Except.ok.inj h).symm⟩)
    · obtain ⟨time, -, h⟩ := Step.except_bind_ok.mp h
      exact .inr (.inr ⟨⟨time, (Except.ok.inj h).symm⟩, fun hn => (nomatch hn)⟩)

/-- The names of a snapshot are those of its schedules. -/
theorem scheduleNames_mem {sources : List Emitter} {names : List String} (h : scheduleNames sources = .ok names)
    {emitter : Emitter} (he : emitter ∈ sources) {schedule : TaskSchedule}
    (hs : emitter.schedule = some schedule) : schedule.name ∈ names := by
  rw [scheduleNames] at h
  induction sources generalizing names with
  | nil => exact nomatch he
  | cons source sources ih =>
    rw [List.mapM_cons] at h
    obtain ⟨name, hname, h⟩ := Step.except_bind_ok.mp h
    obtain ⟨rest, hrest, h⟩ := Step.except_bind_ok.mp h
    obtain rfl := Except.ok.inj h
    rcases List.mem_cons.mp he with rfl | he
    · rw [hs] at hname
      obtain rfl := Except.ok.inj hname
      exact List.mem_cons_self
    · exact List.mem_cons_of_mem _ (ih hrest he)

/-- A worker starts at its first deadline, from the cursor the store has. -/
theorem startWorkers_due {sources : List Emitter} {now : DateTime} {state : MemoryState}
    (h : work ∈ startWorkers sources now state) :
    ∃ emitter ∈ sources, ∃ schedule, emitter.schedule = some schedule ∧ work.name = schedule.name ∧
      initialDeadline emitter.source (state.schedules schedule.name) schedule.start now = .ok work.due ∧
      work.occurrence = work.due.occurrence := by
  rw [startWorkers] at h
  cases hn : scheduleNames sources with
  | error error => rw [hn] at h; exact nomatch h
  | ok names =>
    rw [hn] at h
    obtain ⟨emitter, he, hbegin⟩ := List.mem_filterMap.mp h
    cases hs : emitter.schedule with
    | none => simp only [ScheduleWork.begin, hs] at hbegin; exact nomatch hbegin
    | some schedule =>
      have hname := scheduleNames_mem hn he hs
      simp only [ScheduleWork.begin, hs, scheduleSnapshot, hname, if_true] at hbegin
      cases hd : initialDeadline emitter.source (state.schedules schedule.name) schedule.start now with
      | error error => rw [hd] at hbegin; exact nomatch hbegin
      | ok due =>
        rw [hd] at hbegin
        obtain rfl := Option.some.inj hbegin
        exact ⟨emitter, he, schedule, hs, rfl, hd, rfl⟩

/-! ### One step -/

/-- The producer of a firing worker returns a payload. -/
def Event.Produced : Event → Prop
  | .fire _ fired _ _ _ => fired ≠ .producerFailed
  | _ => True

/-- A worker that changed without a submission being accepted. -/
inductive ScheduleWork.From (world : World) (event : Event) (clock : DateTime) : ScheduleWork → Prop
  | kept {work : ScheduleWork} (old : work ∈ world.workers) : From world event clock work
  | retained {work : ScheduleWork} (old : work ∈ world.workers) (retry : DateTime) :
      From world event clock (work.retain retry)
  | failed {work : ScheduleWork} (old : work ∈ world.workers) (retry : DateTime) (hf : ¬ event.Produced) :
      From world event clock { work with next := retry }
  | refused {work work' : ScheduleWork} (old : work ∈ world.workers) {last here : DateTime}
      (cursor : world.state.schedules work.name = some last) (next : work.advance here = some work') :
      From world event clock work'
  | started {work : ScheduleWork} {sources : List Emitter} (he : event = .start sources clock)
      (fresh : work ∈ startWorkers sources clock world.state) : From world event clock work

/-- A step that accepts nothing. -/
structure World.Waits (world : World) (event : Event) (world' : World) : Prop where
  clock : world.clock ≤ world'.clock
  cursors : world'.state.schedules = world.state.schedules
  accepted : world'.accepted = world.accepted
  workers : ∀ work ∈ world'.workers, work.From world event world'.clock

/-- A step that accepts the submission of a worker. -/
structure World.Accepts (world : World) (work : ScheduleWork) (world' : World) : Prop where
  worker : work ∈ world.workers
  clock : world.clock ≤ world'.clock
  later : ∀ last, world.state.schedules work.name = some last → last < work.occurrence
  cursors : world'.state.schedules =
    world.state.schedules.insert work.name (max world'.clock work.occurrence)
  accepted : world'.accepted = world.accepted ++ [⟨work.name, work.due, work.occurrence, world'.clock,
    world.state.schedules work.name, max world'.clock work.occurrence⟩]
  workers : ∀ work' ∈ world'.workers, work' ∈ world.workers ∨ ∃ here, work.advance here = some work'

theorem mem_putWorker {workers : List ScheduleWork} (index : ℕ) (new : Option ScheduleWork)
    (h : work ∈ putWorker workers index new) : work ∈ workers ∨ new = some work := by
  cases new with
  | none => exact .inl (List.mem_of_mem_eraseIdx h)
  | some other =>
    rcases List.mem_or_eq_of_mem_set h with h | rfl
    · exact .inl h
    · exact .inr rfl

section

variable [Serde] (store : MemoryTaskStore)

/-- Every step waits, or accepts the submission of one worker. -/
theorem World.step_cases (h : world.step store event = some world') :
    world.Waits event world' ∨ ∃ work, world.Accepts work world' := by
  cases event with
  | start sources now =>
    simp only [World.step] at h
    split at h
    · exact nomatch h
    · next hnow =>
      obtain rfl := Option.some.inj h
      refine .inl ⟨le_of_not_gt hnow, rfl, rfl, fun work hw => ?_⟩
      rcases List.mem_append.mp hw with hw | hw
      · exact .kept hw
      · exact .started rfl hw
  | stop index =>
    obtain rfl := Option.some.inj h
    refine .inl ⟨le_refl _, rfl, rfl, fun work hw => ?_⟩
    rcases mem_putWorker index none hw with hw | hw
    · exact .kept hw
    · exact nomatch hw
  | operate op =>
    simp only [World.step] at h
    split at h
    · exact nomatch h
    · next hop =>
      obtain rfl := Option.some.inj h
      exact .inl ⟨le_refl _, exec_schedules store (Bool.eq_false_iff.mpr hop) world.state, rfl,
        fun work hw => .kept hw⟩
  | fire index fired now here retry =>
    simp only [World.step] at h
    cases hget : world.workers[index]? with
    | none => rw [hget] at h; exact nomatch h
    | some work =>
      have hmem := List.mem_of_getElem? hget
      rw [hget] at h
      simp only at h
      cases fired with
      | producerFailed =>
        simp only at h
        split at h
        · exact nomatch h
        · obtain rfl := Option.some.inj h
          refine .inl ⟨le_refl _, rfl, rfl, fun other hw => ?_⟩
          rcases mem_putWorker index (some { work with next := retry }) hw with hw | hw
          · exact .kept hw
          · obtain rfl := Option.some.inj hw
            exact .failed hmem retry fun hp => hp rfl
      | notSubmitted =>
        obtain rfl := Option.some.inj h
        refine .inl ⟨le_refl _, rfl, rfl, fun other hw => ?_⟩
        rcases mem_putWorker index (some (work.retain retry)) hw with hw | hw
        · exact .kept hw
        · obtain rfl := Option.some.inj hw
          exact .retained hmem retry
      | submitted write =>
        simp only at h
        split at h
        · exact nomatch h
        · next hnow =>
          obtain rfl := Option.some.inj h
          have hclock := le_of_not_gt hnow
          rcases storeScheduled_answers ⟨work.name, work.occurrence, write⟩ now world.state with
            ⟨last, hlast, -, hs⟩ | ⟨error, hs⟩ | ⟨hlater, receipt, tasks, hs⟩
          · left
            simp only [World.submit, hs]
            refine ⟨hclock, rfl, rfl, fun other hw => ?_⟩
            rcases mem_putWorker index _ hw with hw | hw
            · exact .kept hw
            · exact .refused hmem hlast hw
          · left
            simp only [World.submit, hs]
            refine ⟨hclock, rfl, rfl, fun other hw => ?_⟩
            rcases mem_putWorker index (some (work.retain retry)) hw with hw | hw
            · exact .kept hw
            · obtain rfl := Option.some.inj hw
              exact .retained hmem retry
          · right
            refine ⟨work, ?_⟩
            simp only [World.submit, hs]
            refine ⟨hmem, hclock, hlater, rfl, rfl, fun other hw => ?_⟩
            rcases mem_putWorker index _ hw with hw | hw
            · exact .inl hw
            · exact .inr ⟨here, hw⟩

end

/-! ### Submissions in order -/

/-- What an accepted submission did to its cursor. -/
structure Submission.Advanced (s : Submission) : Prop where
  before : ∀ last, s.before = some last → last < s.after
  stored : s.stored ≤ s.after
  covered : ∀ time, s.due.Covers time → time ≤ s.after

/-- Two submissions to one schedule, in the order of their acceptance. -/
structure Submission.Precedes (s t : Submission) : Prop where
  cursor : ∃ last, t.before = some last ∧ s.after ≤ last
  apart : ∀ time, s.due.Covers time → ¬ t.due.Covers time
  later : ∀ time, t.due ≠ .initial time

/-- What a worker took from its snapshot holds against every submission since: each of them moved the cursor
    to the time of the snapshot or further. -/
def Due.Current (world : World) (name : String) : Due → Prop
  | .initial time => time ≤ world.clock ∧ ∀ s ∈ world.accepted, s.name = name → time ≤ s.after
  | .catchUp since time => time ≤ world.clock ∧
      ∀ s ∈ world.accepted, s.name = name → s.after ≤ since ∨ time ≤ s.after
  | .boundary _ => True

structure World.Ordered (world : World) : Prop where
  advanced : ∀ s ∈ world.accepted, s.Advanced
  cursor : ∀ s ∈ world.accepted, ∃ last, world.state.schedules s.name = some last ∧ s.after ≤ last
  precedes : world.accepted.Pairwise fun s t => s.name = t.name → s.Precedes t
  current : ∀ work ∈ world.workers,
    work.occurrence = work.due.occurrence ∧ work.due.Current world work.name

theorem Due.Covers.le {due : Due} {time : DateTime} (h : due.Covers time) : time ≤ due.occurrence := by
  cases due with
  | initial first => exact le_of_eq h
  | catchUp since now => exact h.2
  | boundary occurrence => exact le_of_eq h

/-- The next worker state after an answer waits for a normal occurrence. -/
theorem ScheduleWork.advance_due {work work' : ScheduleWork} {here : DateTime}
    (h : work.advance here = some work') :
    work'.name = work.name ∧ work'.occurrence = work'.due.occurrence ∧ ∃ time, work'.due = .boundary time := by
  rw [ScheduleWork.advance] at h
  cases hn : nextDeadline work.source here with
  | error error => rw [hn] at h; exact nomatch h
  | ok next =>
    rw [hn] at h
    obtain rfl := Option.some.inj h
    exact ⟨rfl, rfl, next, rfl⟩

/-- Time passing and further submissions at the new time keep what a worker started from good. -/
theorem Due.Current.mono {due : Due} (h : due.Current world name) (hclock : world.clock ≤ world'.clock)
    (haccepted : ∀ s ∈ world'.accepted, s ∈ world.accepted ∨ world.clock ≤ s.after) :
    due.Current world' name := by
  cases due with
  | initial time =>
    refine ⟨le_trans h.1 hclock, fun s hs hname => ?_⟩
    rcases haccepted s hs with hs | hs
    · exact h.2 s hs hname
    · exact le_trans h.1 hs
  | catchUp since time =>
    refine ⟨le_trans h.1 hclock, fun s hs hname => ?_⟩
    rcases haccepted s hs with hs | hs
    · exact h.2 s hs hname
    · exact .inr (le_trans h.1 hs)
  | boundary time => trivial

/-- A step that accepts nothing keeps the order, unless a producer failed in it. -/
theorem World.Ordered.waits (h : world.Ordered) (hw : world.Waits event world') (he : event.Produced) :
    world'.Ordered := by
  have hold : ∀ s ∈ world'.accepted, s ∈ world.accepted ∨ world.clock ≤ s.after := by
    intro s hs
    rw [hw.accepted] at hs
    exact .inl hs
  refine ⟨?_, ?_, ?_, fun work hwork => ?_⟩
  · rw [hw.accepted]; exact h.advanced
  · rw [hw.accepted, hw.cursors]; exact h.cursor
  · rw [hw.accepted]; exact h.precedes
  · cases hw.workers work hwork with
    | kept old => exact ⟨(h.current work old).1, (h.current work old).2.mono hw.clock hold⟩
    | retained old retry =>
      obtain ⟨hocc, hcurrent⟩ := h.current _ old
      exact ⟨hocc, hcurrent.mono hw.clock hold⟩
    | failed old retry hf => exact absurd he hf
    | refused old cursor next =>
      obtain ⟨-, hocc, time, hdue⟩ := ScheduleWork.advance_due next
      refine ⟨hocc, ?_⟩
      rw [hdue]
      trivial
    | started he fresh =>
      obtain ⟨emitter, -, schedule, -, hname, hdue, hocc⟩ := startWorkers_due fresh
      refine ⟨hocc, ?_⟩
      rcases initialDeadline_cases hdue with ⟨hnone, hd⟩ | ⟨since, hsome, hd⟩ | ⟨⟨time, hd⟩, -⟩
      · rw [hd]
        refine ⟨le_refl _, fun s hs hs' => ?_⟩
        -- no cursor: nothing was accepted yet
        rw [hw.accepted] at hs
        obtain ⟨last, hlast, -⟩ := h.cursor s hs
        rw [hs', hname, hnone] at hlast
        exact nomatch hlast
      · rw [hd]
        refine ⟨le_refl _, fun s hs hs' => .inl ?_⟩
        rw [hw.accepted] at hs
        obtain ⟨last, hlast, hle⟩ := h.cursor s hs
        rw [hs', hname, hsome] at hlast
        obtain rfl := Option.some.inj hlast
        exact hle
      · rw [hd]; trivial

/-- An accepted submission comes after all earlier ones of its schedule, and stands for none of what they
    stand for. -/
theorem World.Ordered.precedes_next {world : World} (h : world.Ordered) (hwork : work ∈ world.workers)
    (hlater : ∀ last, world.state.schedules work.name = some last → last < work.occurrence) {s : Submission}
    (hs : s ∈ world.accepted) (hname : s.name = work.name) (stored after : DateTime) :
    s.Precedes ⟨work.name, work.due, work.occurrence, stored, world.state.schedules work.name, after⟩ := by
  obtain ⟨hocc, hcurrent⟩ := h.current work hwork
  obtain ⟨last, hlast, hle⟩ := h.cursor s hs
  rw [hname] at hlast
  have hlt : s.after < work.due.occurrence := by
    rw [← hocc]
    exact lt_of_le_of_lt hle (hlater last hlast)
  refine ⟨⟨last, hlast, hle⟩, fun time hcovers hagain => ?_, fun time hinitial => ?_⟩
  · have htime := (h.advanced s hs).covered time hcovers
    cases hd : work.due with
    | initial first =>
      simp only [hd, Due.Covers, Due.occurrence] at hagain hlt
      rw [hagain] at htime
      exact absurd htime (not_le_of_gt hlt)
    | boundary occurrence =>
      simp only [hd, Due.Covers, Due.occurrence] at hagain hlt
      rw [hagain] at htime
      exact absurd htime (not_le_of_gt hlt)
    | catchUp since now =>
      simp only [hd, Due.Covers, Due.occurrence] at hagain hlt
      rw [hd] at hcurrent
      rcases hcurrent.2 s hs hname with hsince | hnow
      · exact absurd (lt_of_lt_of_le hagain.1 htime) (not_lt_of_ge hsince)
      · exact absurd hnow (not_le_of_gt hlt)
  · simp only at hinitial
    rw [hinitial] at hcurrent hlt
    exact absurd (hcurrent.2 s hs hname) (not_le_of_gt hlt)

theorem World.Ordered.accepts (h : world.Ordered) (ha : world.Accepts work world') : world'.Ordered := by
  have hnew : ∀ s ∈ world'.accepted, s ∈ world.accepted ∨ s = ⟨work.name, work.due, work.occurrence,
      world'.clock, world.state.schedules work.name, max world'.clock work.occurrence⟩ := by
    intro s hs
    rw [ha.accepted] at hs
    rcases List.mem_append.mp hs with hs | hs
    · exact .inl hs
    · exact .inr (List.mem_singleton.mp hs)
  have hold : ∀ s ∈ world'.accepted, s ∈ world.accepted ∨ world.clock ≤ s.after := by
    intro s hs
    rcases hnew s hs with hs | rfl
    · exact .inl hs
    · exact .inr (le_trans ha.clock (le_max_left _ _))
  refine ⟨fun s hs => ?_, fun s hs => ?_, ?_, fun work' hwork => ?_⟩
  · rcases hnew s hs with hs | rfl
    · exact h.advanced s hs
    · refine ⟨fun last hlast => ?_, le_max_left _ _, fun time hcovers => ?_⟩
      · exact lt_of_lt_of_le (ha.later last hlast) (le_max_right _ _)
      · refine le_trans hcovers.le ?_
        rw [← (h.current work ha.worker).1]
        exact le_max_right _ _
  · rw [ha.cursors]
    rcases hnew s hs with hs | rfl
    · obtain ⟨last, hlast, hle⟩ := h.cursor s hs
      rw [FMap.insert_apply]
      split
      · next heq =>
        refine ⟨_, rfl, le_trans hle ?_⟩
        rw [heq] at hlast
        exact le_trans (le_of_lt (ha.later last hlast)) (le_max_right _ _)
      · exact ⟨last, hlast, hle⟩
    · exact ⟨_, FMap.insert_self _ _ _, le_refl _⟩
  · rw [ha.accepted]
    refine List.pairwise_append.mpr ⟨h.precedes, List.pairwise_singleton _ _, fun s hs t ht hname => ?_⟩
    obtain rfl := List.mem_singleton.mp ht
    exact h.precedes_next ha.worker ha.later hs hname _ _
  · rcases ha.workers work' hwork with old | ⟨here, next⟩
    · exact ⟨(h.current work' old).1, (h.current work' old).2.mono ha.clock hold⟩
    · obtain ⟨-, hocc, time, hdue⟩ := ScheduleWork.advance_due next
      refine ⟨hocc, ?_⟩
      rw [hdue]
      trivial

/-! ### Immediate starts -/

/-- Every replica starts a schedule at once. -/
def Event.Immediate (name : String) : Event → Prop
  | .start sources _ => ∀ emitter ∈ sources, ∀ schedule, emitter.schedule = some schedule →
      schedule.name = name → schedule.start = .immediately
  | _ => True

/-- The first submission of an immediate start. -/
def Submission.isInitial (name : String) (s : Submission) : Bool :=
  s.name = name && match s.due with
    | .initial _ => true
    | _ => false

/-- Until the cursor is set, everybody is about to make the first submission; then one of them was made. -/
structure World.StartsOnce (name : String) (world : World) : Prop where
  waiting : world.state.schedules name = none →
    ∀ work ∈ world.workers, work.name = name → ∃ time, work.due = .initial time
  once : world.accepted.countP (·.isInitial name) = if (world.state.schedules name).isSome then 1 else 0

theorem World.StartsOnce.waits (h : world.StartsOnce name) (hw : world.Waits event world')
    (he : event.Immediate name) :
    world'.StartsOnce name := by
  refine ⟨fun hnone work hwork hname => ?_, ?_⟩
  · rw [hw.cursors] at hnone
    cases hw.workers work hwork with
    | kept old => exact h.waiting hnone work old hname
    | @retained before old retry => exact h.waiting hnone before old hname
    | @failed before old retry hf => exact h.waiting hnone before old hname
    | refused old cursor next =>
      rw [← (ScheduleWork.advance_due next).1, hname, hnone] at cursor
      exact nomatch cursor
    | started hevent fresh =>
      obtain ⟨emitter, hm, schedule, hs, hwork', hdue, -⟩ := startWorkers_due fresh
      rw [hwork'] at hname
      rcases initialDeadline_cases hdue with ⟨-, hd⟩ | ⟨since, hsome, -⟩ | ⟨-, hnext⟩
      · exact ⟨_, hd⟩
      · rw [hname, hnone] at hsome
        exact nomatch hsome
      · rw [hevent] at he
        have hstart := he emitter hm schedule hs hname
        rw [hnext (by rw [hname, hnone])] at hstart
        exact nomatch hstart
  · rw [hw.accepted, hw.cursors]
    exact h.once

theorem World.StartsOnce.accepts (h : world.StartsOnce name) (ho : world.Ordered)
    (ha : world.Accepts work world') :
    world'.StartsOnce name := by
  by_cases hname : work.name = name
  · subst hname
    have hset : world'.state.schedules work.name = some (max world'.clock work.occurrence) := by
      rw [ha.cursors, FMap.insert_self]
    refine ⟨fun hnone => ?_, ?_⟩
    · rw [hset] at hnone
      exact nomatch hnone
    · have honce := h.once
      rw [hset, ha.accepted, List.countP_append, honce, List.countP_singleton]
      cases hcursor : world.state.schedules work.name with
      | none =>
        obtain ⟨time, hdue⟩ := h.waiting hcursor work ha.worker rfl
        simp [Submission.isInitial, hdue]
      | some last =>
        -- somebody was first, so this submission is not
        rw [hcursor, Option.isSome_some, if_pos rfl] at honce
        obtain ⟨s, hs, hinitial⟩ := List.countP_pos_iff.mp (honce ▸ Nat.one_pos)
        have hs' : s.name = work.name := by
          rw [Submission.isInitial, Bool.and_eq_true, decide_eq_true_eq] at hinitial
          exact hinitial.1
        have hlater := (ho.precedes_next ha.worker ha.later hs hs' 0 0).later
        have hnot : ∀ time, work.due ≠ .initial time := hlater
        cases hdue : work.due with
        | initial time => exact absurd hdue (hnot time)
        | catchUp | boundary => simp [Submission.isInitial]
  · have hcursor : world'.state.schedules name = world.state.schedules name := by
      rw [ha.cursors, FMap.insert_of_ne _ _ (Ne.symm hname)]
    refine ⟨fun hnone work' hwork hname' => ?_, ?_⟩
    · rw [hcursor] at hnone
      rcases ha.workers work' hwork with old | ⟨here, next⟩
      · exact h.waiting hnone work' old hname'
      · rw [(ScheduleWork.advance_due next).1] at hname'
        exact absurd hname' hname
    · rw [hcursor, ha.accepted, List.countP_append, h.once, List.countP_singleton]
      simp [Submission.isInitial, hname]

/-! ### Runs -/

/-- A step leaves every cursor alone, or accepts one submission and moves its cursor up. -/
def World.Advances (world world' : World) : Prop :=
  (world'.accepted = world.accepted ∧ world'.state.schedules = world.state.schedules) ∨
  ∃ s : Submission, world'.accepted = world.accepted ++ [s] ∧ world.state.schedules s.name = s.before ∧
    (∀ last, s.before = some last → last < s.after) ∧
    world'.state.schedules = world.state.schedules.insert s.name s.after

/-- No occurrence has two submissions. -/
def World.AtMostOnce (world : World) : Prop :=
  world.accepted.Pairwise fun s t => s.name = t.name → s.after < t.after ∧
    ∀ time, s.due.Covers time → ¬ t.due.Covers time

section

variable [Serde] (store : MemoryTaskStore)

def World.Steps (world : World) (event : Event) (world' : World) : Prop :=
  world.step store event = some world'

theorem World.step_advances (h : world.step store event = some world') : world.Advances world' := by
  rcases World.step_cases store h with hw | ⟨work, ha⟩
  · exact .inl ⟨hw.accepted, hw.cursors⟩
  · refine .inr ⟨_, ha.accepted, rfl, fun last hlast => ?_, ha.cursors⟩
    exact lt_of_lt_of_le (ha.later last hlast) (le_max_right _ _)

theorem World.run_ordered {state : MemoryState} {clock : DateTime} {events : List Event} {world : World}
    (hrun : Run (World.Steps store) (World.new state clock) events world)
    (hp : ∀ event ∈ events, event.Produced) : world.Ordered := by
  refine (hrun.restrict hp).inv (I := World.Ordered) (fun w event w' hw hstep => ?_) ?_
  · rcases World.step_cases store hstep.2 with hwait | ⟨work, ha⟩
    · exact hw.waits hwait hstep.1
    · exact hw.accepts ha
  · exact ⟨fun _ hs => (nomatch hs), fun _ hs => (nomatch hs), .nil, fun _ hw => (nomatch hw)⟩

theorem World.run_startsOnce {state : MemoryState} {clock : DateTime} {events : List Event} {world : World}
    (hrun : Run (World.Steps store) (World.new state clock) events world)
    (hp : ∀ event ∈ events, event.Produced) (hi : ∀ event ∈ events, event.Immediate name)
    (hnone : state.schedules name = none) : world.StartsOnce name := by
  have hboth := hrun.restrict fun event he => And.intro (hp event he) (hi event he)
  refine (hboth.inv (I := fun w => w.Ordered ∧ w.StartsOnce name) (fun w event w' hw hstep => ?_) ⟨?_, ?_⟩).2
  · rcases World.step_cases store hstep.2 with hwait | ⟨work, ha⟩
    · exact ⟨hw.1.waits hwait hstep.1.1, hw.2.waits hwait hstep.1.2⟩
    · exact ⟨hw.1.accepts ha, hw.2.accepts hw.1 ha⟩
  · exact World.run_ordered store (.nil _) (fun _ h => nomatch h)
  · refine ⟨fun _ _ hw => (nomatch hw), ?_⟩
    simp only [World.new, List.countP_nil, hnone, Option.isSome_none, Bool.false_eq_true, if_false]

/-- CORRECT: while no producer fails, whatever replicas and the store do and however their clocks differ, a
    cursor moves up at every accepted submission and never otherwise; no occurrence has two submissions; what
    was missed since the cursor becomes one submission, which leaves the cursor at its store time or later;
    an immediate start has exactly one first submission. -/
theorem occurrences_are_submitted_once {state : MemoryState} {clock : DateTime} {events : List Event}
    {world : World} (hrun : Run (World.Steps store) (World.new state clock) events world)
    (hp : ∀ event ∈ events, event.Produced) :
    (∀ event world', world.step store event = some world' → world.Advances world') ∧
    world.AtMostOnce ∧
    (∀ s ∈ world.accepted, s.stored ≤ s.after ∧
      ∃ last, world.state.schedules s.name = some last ∧ s.after ≤ last) ∧
    (∀ emitter schedule since missed now, emitter.schedule = some schedule →
      world.state.schedules schedule.name = some since → nextDeadline emitter.source since = .ok missed →
      missed ≤ now → startWorkers [emitter] now world.state =
        [⟨emitter.source, schedule.name, now, none, .catchUp since now⟩]) ∧
    ∀ name, state.schedules name = none → (∀ event ∈ events, event.Immediate name) →
      world.accepted.countP (·.isInitial name) = (if (world.state.schedules name).isSome then 1 else 0) ∧
      ∀ occurrence write now answer,
        (storeScheduled ⟨name, occurrence, write⟩ now world.state).1 = .ok answer →
        ((storeScheduled ⟨name, occurrence, write⟩ now world.state).2.schedules name).isSome = true := by
  have hordered := World.run_ordered store hrun hp
  refine ⟨fun event world' h => World.step_advances store h, ?_, ?_, ?_, ?_⟩
  · refine hordered.precedes.imp_of_mem fun {s t} _ ht h hname => ?_
    have hpre := h hname
    obtain ⟨last, hlast, hle⟩ := hpre.cursor
    exact ⟨lt_of_le_of_lt hle ((hordered.advanced t ht).before last hlast), hpre.apart⟩
  · intro s hs
    exact ⟨(hordered.advanced s hs).stored, hordered.cursor s hs⟩
  · intro emitter schedule since missed now hs hsince hmissed hle
    have hdue : initialDeadline emitter.source (some since) schedule.start now = .ok (.catchUp since now) := by
      simp only [initialDeadline, hmissed]
      exact if_pos hle
    have hnames : scheduleNames [emitter] = .ok [schedule.name] := by
      rw [scheduleNames, List.mapM_cons, hs]
      rfl
    simp only [startWorkers, hnames, List.filterMap_cons, List.filterMap_nil, ScheduleWork.begin, hs,
      scheduleSnapshot, List.mem_singleton, if_true, hsince, hdue]
    rfl
  · intro name hnone hi
    refine ⟨(World.run_startsOnce store hrun hp hi hnone).once, fun occurrence write now answer h => ?_⟩
    rcases storeScheduled_answers ⟨name, occurrence, write⟩ now world.state with
      ⟨last, hlast, -, hs⟩ | ⟨error, hs⟩ | ⟨-, receipt, tasks, hs⟩
    · rw [hs]
      exact Option.isSome_of_eq_some hlast
    · rw [hs] at h
      exact nomatch h
    · rw [hs]
      exact Option.isSome_of_eq_some (FMap.insert_self _ _ _)

end

/-! ### A producer that fails -/

/-- A schedule that runs every minute. -/
def everyMinute (start : ScheduleStart) : Emitter := ⟨.periodic (Duration.ofSecs 60), some ⟨"tick", start⟩⟩

def tickWrite (n : ℕ) : Fired := .submitted (plainWrite (freshRecord n .work "open"))

/-- Two replicas wait for the boundary at one minute. The producer of the first fails there, the second
    submits, and the first retries a second later. -/
def failingTicks : List Event :=
  [.start [everyMinute .next] 0, .start [everyMinute .next] 0,
    .fire 0 .producerFailed 0 0 61000000000,
    .fire 1 (tickWrite 1) 60000000000 60000000000 0,
    .fire 0 (tickWrite 2) 61000000000 61000000000 0]

/-- The end of a run, if all its steps can be taken. -/
def World.after [Serde] (store : MemoryTaskStore) (world : World) : List Event → Option World
  | [] => some world
  | event :: events => (world.step store event).bind fun world' => World.after store world' events

theorem World.after_run [Serde] (store : MemoryTaskStore) :
    ∀ {events : List Event} {world world' : World}, World.after store world events = some world' →
      Run (World.Steps store) world events world'
  | [], world, world', h => by
    obtain rfl := Option.some.inj h
    exact .nil world
  | event :: events, world, world', h => by
    obtain ⟨next, hnext, h⟩ := Option.bind_eq_some_iff.mp h
    exact .cons hnext (World.after_run store h)

attribute [local instance] acceptingSerde in
/-- The retry is submitted as an occurrence of its own, past the cursor the first submission left. -/
theorem failed_producer_submits_again :
    ∃ world, Run (World.Steps smallStore) (World.new (MemoryState.new smallConf) 0) failingTicks world ∧
      ¬ world.AtMostOnce := by
  have hrun : (World.after smallStore (World.new (MemoryState.new smallConf) 0) failingTicks).map
      (·.accepted) = some [⟨"tick", .boundary 60000000000, 60000000000, 60000000000, none, 60000000000⟩,
        ⟨"tick", .boundary 60000000000, 61000000000, 61000000000, some 60000000000, 61000000000⟩] := by
    decide
  obtain ⟨world, hafter, haccepted⟩ := Option.map_eq_some_iff.mp hrun
  refine ⟨world, World.after_run smallStore hafter, fun h => ?_⟩
  rw [World.AtMostOnce, haccepted, List.pairwise_pair] at h
  exact (h rfl).2 60000000000 rfl rfl

attribute [local instance] acceptingSerde in
/-- Two replicas start a schedule at once; both submit. -/
theorem occurrences_are_submitted_once_one_start :
    ∃ world, World.after smallStore (World.new (MemoryState.new smallConf) 0)
        [.start [everyMinute .immediately] 5, .start [everyMinute .immediately] 6,
          .fire 1 (tickWrite 1) 7 7 0, .fire 0 (tickWrite 2) 8 8 0] = some world ∧
      world.AtMostOnce ∧ world.accepted.countP (·.isInitial "tick") = 1 := by
  have hset : ((World.after smallStore (World.new (MemoryState.new smallConf) 0)
      [.start [everyMinute .immediately] 5, .start [everyMinute .immediately] 6,
        .fire 1 (tickWrite 1) 7 7 0, .fire 0 (tickWrite 2) 8 8 0]).bind
      (·.state.schedules "tick")) = some 7 := by
    decide
  obtain ⟨world, hafter, hcursor⟩ := Option.bind_eq_some_iff.mp hset
  have hp : ∀ event ∈ [Event.start [everyMinute .immediately] 5, .start [everyMinute .immediately] 6,
      .fire 1 (tickWrite 1) 7 7 0, .fire 0 (tickWrite 2) 8 8 0], event.Produced := by
    simp [Event.Produced, tickWrite]
  have hall := occurrences_are_submitted_once smallStore (World.after_run smallStore hafter) hp
  refine ⟨world, hafter, hall.2.1, ?_⟩
  have honce := (hall.2.2.2.2 "tick" rfl (by simp [Event.Immediate, everyMinute])).1
  rwa [hcursor, Option.isSome_some, if_pos rfl] at honce

end Vyuh.Emitters
