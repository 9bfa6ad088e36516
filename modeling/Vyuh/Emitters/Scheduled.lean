import Vyuh.Tasks.Store.Memory.Ownership

/-! Durable schedules (`emitters/scheduled.rs`): replicas that take a snapshot of the schedule cursors, wait
    for their deadlines and submit to one store. Timers and local clocks are arbitrary: a worker may fire at
    any moment and compute its next deadline from any local time. Only the clock of the store, read by
    snapshots and submissions, does not go back. -/

namespace Vyuh.Emitters

open Lib Tasks Tasks.Memory

/-! ### Deadlines -/

inductive EmitterError
  | invalidSchedule (text : String)
  deriving DecidableEq, Repr

inductive ScheduleStart
  | next
  | immediately
  deriving DecidableEq, Repr

/-- A timed source; the first time a cron expression names after another is the cron library's. -/
inductive EmitterSource
  | cron (after : DateTime → Option DateTime)
  | periodic (interval : Duration)
  | pgNotify

structure TaskSchedule where
  name : String
  start : ScheduleStart
  deriving DecidableEq, Repr

structure Emitter where
  source : EmitterSource
  schedule : Option TaskSchedule

/-- `i64::checked_mul`. -/
def checkedMul64 (a b : ℤ) : Option ℤ := if i64Min ≤ a * b ∧ a * b ≤ i64Max then some (a * b) else none

/-- `Utc.timestamp_millis_opt(millis).single()`. -/
def timestampMillis (millis : ℤ) : Option DateTime :=
  if minUtc ≤ millis * 1000000 ∧ millis * 1000000 ≤ maxUtc then some (millis * 1000000) else none

/-- Computes a UTC-epoch-aligned periodic boundary with millisecond precision. -/
def periodicBoundary (after : DateTime) (interval : Duration) : Except EmitterError DateTime :=
  let milliseconds : ℤ := (interval / 1000000 : ℕ)
  if milliseconds > i64Max then
    .error (.invalidSchedule "periodic interval exceeds the supported range")
  else if milliseconds ≤ 0 then
    .error (.invalidSchedule "task periodic intervals must be at least one millisecond")
  else
    match (checkedAdd64 (after / 1000000 / milliseconds) 1).bind fun slot => checkedMul64 slot milliseconds with
    | none => .error (.invalidSchedule "periodic boundary overflowed")
    | some next =>
      match timestampMillis next with
      | none => .error (.invalidSchedule "periodic boundary is invalid")
      | some boundary => .ok boundary

/-- Finds the next normal source occurrence strictly after the supplied time. -/
def nextDeadline (source : EmitterSource) (after : DateTime) : Except EmitterError DateTime :=
  match source with
  | .cron next =>
    match next after with
    | some occurrence => .ok occurrence
    | none => .error (.invalidSchedule "cron expression has no next occurrence")
  | .periodic interval => periodicBoundary after interval
  | .pgNotify => .error (.invalidSchedule "pgnotify cannot use a task executor")

/-- What a submission stands for: the first one of an immediate start, every occurrence missed since a
    cursor, or one normal occurrence. -/
inductive Due
  | initial (time : DateTime)
  | catchUp (since time : DateTime)
  | boundary (time : DateTime)
  deriving DecidableEq, Repr

def Due.occurrence : Due → DateTime
  | .initial time => time
  | .catchUp _ time => time
  | .boundary time => time

/-- Whether a submission stands for the occurrence at a time. -/
def Due.Covers (time : DateTime) : Due → Prop
  | .initial first => time = first
  | .catchUp since now => since < time ∧ time ≤ now
  | .boundary occurrence => time = occurrence

/-- Selects the first conservative execution time from the durable cursor, with what it stands for. -/
def initialDeadline (source : EmitterSource) (cursor : Option DateTime) (start : ScheduleStart)
    (now : DateTime) : Except EmitterError Due :=
  match cursor, start with
  | none, .immediately => .ok (.initial now)
  | none, .next => do .ok (.boundary (← nextDeadline source now))
  | some cursor, _ => do
    if (← nextDeadline source cursor) ≤ now then .ok (.catchUp cursor now)
    else .ok (.boundary (← nextDeadline source now))

/-! ### Snapshots -/

structure TaskScheduleSnapshot where
  now : DateTime
  cursors : FMap String DateTime

/-- Reads the cursors of schedules with the time of the store. -/
def scheduleSnapshot (names : List String) (now : DateTime) (state : MemoryState) : TaskScheduleSnapshot where
  now := now
  cursors name := if name ∈ names then state.schedules name else none

def missingSchedule : EmitterError := .invalidSchedule "missing task schedule metadata"

def scheduleNames (sources : List Emitter) : Except EmitterError (List String) :=
  sources.mapM fun source => (source.schedule.map TaskSchedule.name).elim (.error missingSchedule) .ok

/-! ### Workers -/

/-- One schedule worker between two turns of its loop. An occurrence whose payload was produced but not yet
    accepted by the store is pending; `due` is what the worker last computed a deadline for. -/
structure ScheduleWork where
  source : EmitterSource
  name : String
  next : DateTime
  pending : Option DateTime
  due : Due

/-- A worker at its first deadline; without one it ends at once. -/
def ScheduleWork.begin (snapshot : TaskScheduleSnapshot) (emitter : Emitter) : Option ScheduleWork :=
  match emitter.schedule with
  | none => none
  | some schedule =>
    match initialDeadline emitter.source (snapshot.cursors schedule.name) schedule.start snapshot.now with
    | .error _ => none
    | .ok due => some ⟨emitter.source, schedule.name, due.occurrence, none, due⟩

/-- Starts one worker for each source, from one snapshot. -/
def startWorkers (sources : List Emitter) (now : DateTime) (state : MemoryState) : List ScheduleWork :=
  match scheduleNames sources with
  | .error _ => []
  | .ok names => sources.filterMap (ScheduleWork.begin (scheduleSnapshot names now state))

/-- The occurrence a worker submits when it fires: the pending one, else that of its deadline. -/
def ScheduleWork.occurrence (work : ScheduleWork) : DateTime := work.pending.getD work.next

/-- A worker after a submission that the store answered. -/
def ScheduleWork.advance (work : ScheduleWork) (here : DateTime) : Option ScheduleWork :=
  match nextDeadline work.source here with
  | .error _ => none
  | .ok next => some { work with next, pending := none, due := .boundary next }

/-- A worker that keeps its payload for a later attempt. -/
def ScheduleWork.retain (work : ScheduleWork) (retry : DateTime) : ScheduleWork :=
  { work with pending := some work.occurrence, next := retry }

/-! ### Replicas and one store -/

/-- A submission that advanced its cursor. -/
structure Submission where
  name : String
  due : Due
  occurrence : DateTime
  stored : DateTime
  before : Option DateTime
  after : DateTime
  deriving DecidableEq, Repr

/-- The store with the latest reading of its clock, all workers and the accepted submissions so far. -/
structure World where
  state : MemoryState
  clock : DateTime
  workers : List ScheduleWork
  accepted : List Submission

def World.new (state : MemoryState) (clock : DateTime) : World := ⟨state, clock, [], []⟩

/-- What comes of firing: no payload, a payload that does not reach the store, or a write of it. -/
inductive Fired
  | producerFailed
  | notSubmitted
  | submitted (write : TaskWrite)

/-- A replica starts, a worker fires, a worker ends, or the store does something else. A firing worker reads
    the clock of the store at `now`, its own at `here`, and may have to retry at `retry`. -/
inductive Event
  | start (sources : List Emitter) (now : DateTime)
  | fire (index : ℕ) (fired : Fired) (now here retry : DateTime)
  | stop (index : ℕ)
  | operate (op : Op)

/-- Only workers submit to schedules. -/
def schedules : Op → Bool
  | .storeScheduled .. => true
  | _ => false

/-- Replaces a worker, or removes one that ended. -/
def putWorker (workers : List ScheduleWork) (index : ℕ) : Option ScheduleWork → List ScheduleWork
  | some work => workers.set index work
  | none => workers.eraseIdx index

def World.submit (world : World) (index : ℕ) (work : ScheduleWork) (write : TaskWrite)
    (now here retry : DateTime) : World :=
  match storeScheduled ⟨work.name, work.occurrence, write⟩ now world.state with
  | (.ok (some _), state) =>
    { state, clock := now, workers := putWorker world.workers index (work.advance here)
      accepted := world.accepted ++ [⟨work.name, work.due, work.occurrence, now,
        world.state.schedules work.name, max now work.occurrence⟩] }
  | (.ok none, state) =>
    { world with state, clock := now, workers := putWorker world.workers index (work.advance here) }
  | (.error _, state) =>
    { world with state, clock := now, workers := putWorker world.workers index (some (work.retain retry)) }

/-- One step; `none` where it cannot be taken. -/
def World.step [Serde] (store : MemoryTaskStore) (world : World) : Event → Option World
  | .start sources now =>
    if now < world.clock then none
    else some { world with
      clock := now, workers := world.workers ++ startWorkers sources now world.state }
  | .fire index fired now here retry =>
    match world.workers[index]? with
    | none => none
    | some work =>
      match fired with
      | .producerFailed =>
        if work.pending.isSome then none
        else some { world with workers := putWorker world.workers index (some { work with next := retry }) }
      | .notSubmitted =>
        some { world with workers := putWorker world.workers index (some (work.retain retry)) }
      | .submitted write =>
        if now < world.clock then none else some (world.submit index work write now here retry)
  | .stop index => some { world with workers := putWorker world.workers index none }
  | .operate op => if schedules op then none else some { world with state := (exec store op world.state).2 }

end Vyuh.Emitters
