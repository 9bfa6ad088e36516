import Vyuh.Lib.Machine
import Vyuh.Lib.Run

/-! Debounced value streams (`utils/debounce.rs`). Timers are never cancelled: a deadline carries the
    generation it was made for, and only the current generation completes a window.

    `Stream` is one stream with the deadlines it has returned and not yet got back. The heap that
    holds them is ordered by deadline alone, so of equal deadlines any may come first; it is a
    `Vec`, whose length never exceeds `isize::MAX`. -/

namespace Vyuh.Utils
open Lib

/-- Nanoseconds of the monotonic clock. -/
abbrev Instant := ℕ

/-- `isize::MAX`, which bounds the length of every `Vec`. -/
def isizeMax : ℕ := 2 ^ 63 - 1

/-- Which values of a debounce window are emitted. -/
inductive DebounceMode where | leading | trailing | leadingAndTrailing
  deriving DecidableEq, Repr

/-- Time window and behaviour of a debounce operation. -/
structure DebounceConf where
  window : Duration
  mode : DebounceMode
  deriving DecidableEq, Repr

/-- A configuration that can schedule a deadline; every debouncer is made from one. -/
def DebounceConf.isValid (conf : DebounceConf) : Bool := conf.window ≠ 0

/-- One deadline, guarded by its generation. -/
structure DebounceDeadline where
  generation : ℕ
  deadline : Instant
  deriving DecidableEq, Repr

/-- Result of accepting one value. -/
structure DebouncePush (α : Type) where
  emission : Option α
  deadline : Option DebounceDeadline
  deriving DecidableEq, Repr

/-- State of one debounced stream. -/
structure Debouncer (α : Type) where
  conf : DebounceConf
  active : Bool
  generation : ℕ
  pending : Option α
  sawExtra : Bool
  deriving DecidableEq, Repr

namespace Debouncer

variable {α : Type}

def new (conf : DebounceConf) : Debouncer α := ⟨conf, false, 0, none, false⟩

def deadline (now : Instant) (d : Debouncer α) : DebounceDeadline × Debouncer α :=
  let generation := wrappingAddU64 d.generation 1
  (⟨generation, now + d.conf.window⟩, { d with generation := generation })

def start (now : Instant) (d : Debouncer α) : DebounceDeadline × Debouncer α :=
  deadline now { d with active := true, pending := none, sawExtra := false }

def reset (d : Debouncer α) : Debouncer α :=
  { d with active := false, pending := none, sawExtra := false }

def pushLeading (value : α) (now : Instant) (d : Debouncer α) : DebouncePush α × Debouncer α :=
  if d.active then (⟨none, none⟩, d)
  else
    let (deadline, d) := d.start now
    (⟨some value, some deadline⟩, d)

def pushTrailing (value : α) (now : Instant) (d : Debouncer α) : DebouncePush α × Debouncer α :=
  let (deadline, d) := deadline now { d with active := true, pending := some value }
  (⟨none, some deadline⟩, d)

def pushBoth (value : α) (now : Instant) (d : Debouncer α) : DebouncePush α × Debouncer α :=
  if !d.active then
    let (deadline, d) := d.start now
    (⟨some value, some deadline⟩, d)
  else
    let (deadline, d) := deadline now { d with sawExtra := true, pending := some value }
    (⟨none, some deadline⟩, d)

/-- Accepts one value: what is emitted at once, and the deadline that replaces the last one. -/
def push (value : α) (now : Instant) (d : Debouncer α) : DebouncePush α × Debouncer α :=
  match d.conf.mode with
  | .leading => d.pushLeading value now
  | .trailing => d.pushTrailing value now
  | .leadingAndTrailing => d.pushBoth value now

def finishBoth (d : Debouncer α) : Option α × Debouncer α :=
  let emit := d.sawExtra
  let d := { d with active := false, sawExtra := false }
  if emit then (d.pending, { d with pending := none }) else (none, { d with pending := none })

/-- Completes the current generation when its deadline comes due. -/
def due (generation : ℕ) (d : Debouncer α) : Option α × Debouncer α :=
  if generation ≠ d.generation then (none, d)
  else
    match d.conf.mode with
    | .leading => (none, d.reset)
    | .trailing => (d.pending, { d with active := false, pending := none })
    | .leadingAndTrailing => d.finishBoth

end Debouncer

/-- One call on a stream: a value pushed, or the deadline that was returned `serial`-th come due. -/
inductive Call (α : Type) where
  | push (value : α) (now : Instant)
  | due (serial : ℕ) (now : Instant)
  deriving DecidableEq, Repr

/-- A debouncer with its outstanding deadlines, each with its number among those returned. -/
structure Stream (α : Type) where
  debouncer : Debouncer α
  queue : List (ℕ × DebounceDeadline)
  returned : ℕ
  clock : Instant
  emitted : List α
  deriving DecidableEq, Repr

namespace Stream

variable {α : Type}

def new (conf : DebounceConf) : Stream α := ⟨.new conf, [], 0, 0, []⟩

/-- The stream after a push: a returned deadline is queued. -/
def pushed (value : α) (now : Instant) (s : Stream α) : Stream α :=
  let (result, debouncer) := s.debouncer.push value now
  { debouncer := debouncer
    queue := s.queue ++ (result.deadline.map fun deadline => (s.returned + 1, deadline)).toList
    returned := s.returned + (if result.deadline.isSome then 1 else 0)
    clock := now
    emitted := s.emitted ++ result.emission.toList }

/-- The stream after a deadline came due that left `rest` in the queue. -/
def fired (deadline : DebounceDeadline) (rest : List (ℕ × DebounceDeadline)) (now : Instant)
    (s : Stream α) : Stream α :=
  let (emission, debouncer) := s.debouncer.due deadline.generation
  { s with
    debouncer := debouncer
    queue := rest
    clock := now
    emitted := s.emitted ++ emission.toList }

end Stream

/-- One call: the clock does not go back, the heap has room for a push, and a deadline is delivered
    once, when it is due and no earlier one is left. -/
inductive Deliver {α : Type} : Stream α → Call α → Stream α → Prop
  | push {s : Stream α} {value : α} {now : Instant} (hclock : s.clock ≤ now)
      (hroom : s.queue.length < isizeMax) : Deliver s (.push value now) (s.pushed value now)
  | due {s : Stream α} {serial : ℕ} {deadline : DebounceDeadline}
      {before after : List (ℕ × DebounceDeadline)} {now : Instant} (hclock : s.clock ≤ now)
      (hqueue : s.queue = before ++ (serial, deadline) :: after)
      (hfirst : ∀ e ∈ s.queue, deadline.deadline ≤ e.2.deadline) (hdue : deadline.deadline ≤ now) :
      Deliver s (.due serial now) (s.fired deadline (before ++ after) now)

/-! ### Windows

    A window opens with a push and takes every later push. It ends `conf.window` after its last push, in
    leading mode after its first, and is closed by the deadline returned last, when that end has come. In
    leading mode only the push that opens a window returns a deadline. -/

/-- The windows of a sequence of calls, each with its pushes and when they were made: those closed, the
    one still open, and how many deadlines the calls returned. -/
structure Windows (α : Type) where
  closed : List (List (α × Instant))
  current : List (α × Instant)
  returned : ℕ
  deriving DecidableEq, Repr

namespace Windows

variable {α : Type}

/-- The end of a window. -/
def ends (conf : DebounceConf) (window : List (α × Instant)) : Instant :=
  (if conf.mode = .leading then window.head? else window.getLast?).elim 0 (·.2) + conf.window

/-- The windows after one more call. -/
def after (conf : DebounceConf) (w : Windows α) : Call α → Windows α
  | .push value now =>
    { w with
      current := w.current ++ [(value, now)]
      returned := if conf.mode = .leading && !w.current.isEmpty then w.returned else w.returned + 1 }
  | .due serial now =>
    if serial = w.returned && !w.current.isEmpty && ends conf w.current ≤ now then
      { w with closed := w.closed ++ [w.current], current := [] }
    else w

/-- The values of a window, in the order they were pushed. -/
def values (window : List (α × Instant)) : List α := window.map (·.1)

/-- What a mode emits of a window when it opens. -/
def opening : DebounceMode → List α → List α
  | .trailing, _ => []
  | _, window => window.head?.toList

/-- The value a mode keeps for the end of a window: none, its last value, or its last later one. -/
def held : DebounceMode → List α → Option α
  | .leading, _ => none
  | .trailing, window => window.getLast?
  | .leadingAndTrailing, window => window.tail.getLast?

/-- Everything a mode has emitted of the windows so far. -/
def emits (mode : DebounceMode) (w : Windows α) : List α :=
  w.closed.flatMap (fun window => opening mode (values window) ++ (held mode (values window)).toList)
    ++ opening mode (values w.current)

end Windows

/-- The windows of a sequence of calls on a new stream. -/
def windows {α : Type} (conf : DebounceConf) (calls : List (Call α)) : Windows α :=
  calls.foldl (Windows.after conf) ⟨[], [], 0⟩

/-- The pushes of a sequence of calls, and when they were made. -/
def pushes {α : Type} (calls : List (Call α)) : List (α × Instant) :=
  calls.filterMap fun call =>
    match call with
    | .push value now => some (value, now)
    | .due .. => none

end Vyuh.Utils
