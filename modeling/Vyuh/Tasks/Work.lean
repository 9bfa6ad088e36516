import Vyuh.Tasks.Batch
import Vyuh.Tasks.Groups

/-! What the handler of a batch returns, before its type is erased (`work/state.rs`, `handler_error.rs`,
    `work/batch.rs`). A batch has no place to resume at: a suspension becomes a failure on the way. -/

namespace Vyuh.Tasks
open Lib

/-! ### Values of a handler -/

/-- An output type: how it is serialized, and whether it is the unit type. -/
class WorkOutput (T : Type) where
  toText : T → Except String String
  isUnit : Bool

/-- A retry or terminal failure decision. -/
inductive WorkError where
  | retry (failure : TaskFailure)
  | fail (failure : TaskFailure)
  deriving DecidableEq, Repr

/-- Successful output or suspension. -/
inductive WorkState (T : Type) where
  | complete (output : T)
  | suspend (state : String)
  deriving DecidableEq, Repr

/-- The supported return forms; `ok` and `err` are those of a `Result` around one of the others. -/
inductive BatchReturn (T : Type) where
  | unit
  | state (value : WorkState T)
  | states (values : List (WorkState T))
  | results (values : List (Except WorkError (WorkState T)))
  | ok (value : BatchReturn T)
  | err (error : WorkError)

def WorkError.intoOutcome : WorkError → TaskOutcome
  | .retry failure => .retry failure.message
  | .fail failure => .fail failure.message

section

variable {T : Type} [Serde] [WorkOutput T]

/-- Encodes a completion once; units take a path of their own. -/
def completeOutput (output : T) : Except TaskRuntimeError TaskOutcome :=
  if WorkOutput.isUnit T then .ok .complete
  else
    match WorkOutput.toText output with
    | .error text => .error (.jsonError text)
    | .ok text => do
      validateOutput text
      .ok (if text = "null" then .complete else .completeWith text)

def completion (output : T) : TaskOutcome :=
  match completeOutput output with
  | .ok outcome => outcome
  | .error (.resultTooLarge ..) => .fail "Task result exceeds 32768-byte limit"
  | .error _ => .fail "Task result serialization failed"

def WorkState.intoOutcome : WorkState T → TaskOutcome
  | .complete output => completion output
  | .suspend state => .suspend state

/-! ### Erasure -/

def batchSafe : TaskOutcome → TaskOutcome
  | .suspend _ | .sleep .. | .spawn .. | .all .. => .fail "Batch task handlers cannot suspend or sleep or spawn"
  | outcome => outcome

def eraseOutcome : TaskOutcome → BatchReply
  | .complete => .unit
  | outcome => .outcome outcome

/-- The outcome of one item of a batch. -/
def itemOutcome (item : Except WorkError (WorkState T)) : TaskOutcome :=
  batchSafe (match item with
    | .ok value => value.intoOutcome
    | .error error => error.intoOutcome)

/-- Converts typed items before erasure. -/
def BatchReturn.intoBatchReturn : BatchReturn T → BatchReply
  | .unit => eraseOutcome .complete
  | .state value => eraseOutcome (batchSafe value.intoOutcome)
  | .states values => .outcomes (values.map fun value => batchSafe value.intoOutcome)
  | .results values => .outcomes (values.map itemOutcome)
  | .ok value => value.intoBatchReturn
  | .err error => eraseOutcome error.intoOutcome

end

/-! ### Nothing suspends -/

/-- The outcome asks for no continuation of the task. -/
def TaskOutcome.Settles : TaskOutcome → Prop
  | .suspend _ | .sleep .. | .spawn .. | .all .. => False
  | .complete | .completeWith _ | .retry _ | .fail _ => True

theorem batchSafe_settles (outcome : TaskOutcome) : (batchSafe outcome).Settles := by
  cases outcome <;> exact trivial

theorem WorkError.intoOutcome_settles (error : WorkError) : error.intoOutcome.Settles := by
  cases error <;> exact trivial

/-- What an erased reply can bring. -/
def BatchReply.Settles : BatchReply → Prop
  | .unit => True
  | .outcome one => one.Settles
  | .outcomes returned => ∀ result ∈ returned, result.Settles
  | .other => False

theorem eraseOutcome_settles {outcome : TaskOutcome} (h : outcome.Settles) : (eraseOutcome outcome).Settles := by
  cases outcome <;> exact h

theorem resolveBatch_settles {data : BatchReply} {expected : ℕ} {outcomes : List TaskOutcome} (h : data.Settles)
    (hresolve : resolveBatch data expected = .ok outcomes) : ∀ outcome ∈ outcomes, outcome.Settles := by
  cases data with
  | unit =>
    obtain rfl := Except.ok.inj hresolve
    intro outcome hmem
    rw [List.eq_of_mem_replicate hmem]
    trivial
  | outcome one =>
    obtain rfl := Except.ok.inj hresolve
    intro outcome hmem
    rw [List.eq_of_mem_replicate hmem]
    exact h
  | outcomes returned =>
    rw [resolveBatch] at hresolve
    split at hresolve
    · cases hresolve
    · obtain rfl := Except.ok.inj hresolve
      exact h
  | other => exact h.elim

section

variable {T U ε : Type} [Serde] [WorkOutput U]

theorem BatchReturn.settles : ∀ returned : BatchReturn U, returned.intoBatchReturn.Settles
  | .unit => trivial
  | .state value => eraseOutcome_settles (batchSafe_settles _)
  | .states values => by
    intro outcome hmem
    obtain ⟨value, -, rfl⟩ := List.mem_map.mp hmem
    exact batchSafe_settles _
  | .results values => by
    intro outcome hmem
    obtain ⟨item, -, rfl⟩ := List.mem_map.mp hmem
    exact batchSafe_settles _
  | .ok value => value.settles
  | .err error => eraseOutcome_settles error.intoOutcome_settles

/-- A handler as it is registered: its result is converted, then erased. -/
def erased (handler : List T → Except ε (BatchReturn U)) (payload : List T) : Except ε BatchReply :=
  (handler payload).map BatchReturn.intoBatchReturn

theorem callBatch_settles (handler : List T → Except ε (BatchReturn U)) (payload : List T) (expected : ℕ) :
    ∀ outcome ∈ callBatch (erased handler) payload expected, outcome.Settles := by
  have hfailed : ∀ outcome ∈ List.replicate expected handlerFailed, outcome.Settles := by
    intro outcome hmem
    rw [List.eq_of_mem_replicate hmem]
    trivial
  rw [callBatch, erased]
  cases handler payload with
  | error e => exact hfailed
  | ok returned =>
    dsimp only [Except.map]
    cases hresolve : resolveBatch returned.intoBatchReturn expected with
    | error e => exact hfailed
    | ok outcomes => exact resolveBatch_settles returned.settles hresolve

/-- No record of a batch is left suspended, asleep or waiting for children, whatever the handler returns. -/
theorem executeBatch_settles (handler : List T → Except ε (BatchReturn U)) (decode : String → Option T)
    (records : List TaskRecord) : ∀ result ∈ executeBatch (erased handler) decode records, result.outcome.Settles := by
  intro result hmem
  obtain ⟨i, hi⟩ := List.getElem?_of_mem hmem
  have hlength : (executeBatch (erased handler) decode records).length = records.length := by
    rw [executeBatch_eq, List.length_map, List.length_zip, fill_length, List.length_map, Nat.min_self]
  obtain ⟨record, hrecord⟩ : ∃ record, records[i]? = some record := by
    obtain ⟨hlt, -⟩ := List.getElem?_eq_some_iff.mp hi
    exact ⟨_, List.getElem?_eq_getElem (hlength ▸ hlt)⟩
  obtain rfl := Option.some.inj (hi.symm.trans (executeBatch_get (erased handler) decode hrecord))
  dsimp only
  split
  · cases houtcome : (answers (erased handler) decode records)[(records.take i).countP (valid decode)]? with
    | none => trivial
    | some outcome => exact callBatch_settles handler _ _ outcome (List.mem_of_getElem? houtcome)
  · rw [refusal]
    split <;> trivial

/-- Where the handler returns an item for each value, the record of the `i`-th value gets the outcome of the
    `i`-th item. -/
theorem executeBatch_items (handler : List T → Except ε (BatchReturn U)) (decode : String → Option T)
    {records : List TaskRecord} {items : List (Except WorkError (WorkState U))}
    (hreturned : handler (records.filterMap (accepted decode)) = .ok (.results items))
    (hlength : items.length = records.countP (valid decode)) {i : ℕ} {record : TaskRecord}
    (hrecord : records[i]? = some record) (hvalid : valid decode record = true) :
    ∃ item, items[(records.take i).countP (valid decode)]? = some item ∧
      (executeBatch (erased handler) decode records)[i]? = some { record, outcome := itemOutcome item } := by
  have hanswers : answers (erased handler) decode records = items.map itemOutcome := by
    rw [answers, callBatch, erased, hreturned]
    dsimp only [Except.map, BatchReturn.intoBatchReturn, resolveBatch]
    rw [if_neg (by rw [List.length_map, hlength]; exact not_not.mpr rfl)]
  have hplace := place_lt decode hrecord hvalid
  rw [← hlength] at hplace
  refine ⟨items[(records.take i).countP (valid decode)], List.getElem?_eq_getElem hplace, ?_⟩
  rw [executeBatch_get (erased handler) decode hrecord, if_pos hvalid, hanswers, List.getElem?_map,
    List.getElem?_eq_getElem hplace, Option.map_some, Option.getD_some]

end

end Vyuh.Tasks
