import Vyuh.Tasks.Models

/-! Local batching of Work tasks (`handler.rs`, `work/batch.rs`). Records that the handler cannot be asked
    about are given their outcomes first; the handler sees the values of the rest, and its outcomes go
    back to the places those records had. -/

namespace Vyuh.Tasks
open Lib

def kindMismatch : TaskOutcome := .fail "Task kind does not match registered handler"
def invalidInput : TaskOutcome := .fail "Task input is invalid"
def handlerFailed : TaskOutcome := .fail "Task handler failed"

structure TaskExecutionResult where
  record : TaskRecord
  outcome : TaskOutcome
  deriving DecidableEq, Repr

/-- The forms an erased handler result can have. -/
inductive BatchReply where
  | unit
  | outcome (outcome : TaskOutcome)
  | outcomes (outcomes : List TaskOutcome)
  | other
  deriving DecidableEq, Repr

structure DecodedBatch (T : Type) where
  records : List TaskRecord
  positions : List ℕ
  outcomes : List (Option TaskOutcome)
  payload : List T

/-- Validates cardinality before any per-task outcome reaches the common commit path. -/
def resolveBatch (data : BatchReply) (expected : ℕ) : Except TaskRuntimeError (List TaskOutcome) :=
  match data with
  | .unit => .ok (List.replicate expected .complete)
  | .outcome outcome => .ok (List.replicate expected outcome)
  | .other => .error (.taskExecutionError "Invalid prepared batch outcome")
  | .outcomes outcomes =>
    if outcomes.length ≠ expected then
      .error (.taskExecutionError ("batch handler returned " ++ toString outcomes.length ++
        " outcomes for " ++ toString expected ++ " inputs"))
    else .ok outcomes

section

variable {T ε : Type}

/-- One turn of the decoding loop. -/
def decodeRecord (decode : String → Option T) (batch : DecodedBatch T) (entry : TaskRecord × ℕ) :
    DecodedBatch T :=
  let (record, position) := entry
  if record.kind ≠ .work then
    { batch with outcomes := batch.outcomes.set position (some kindMismatch) }
  else
    match decode record.input with
    | some value =>
      { batch with payload := batch.payload ++ [value], positions := batch.positions ++ [position] }
    | none => { batch with outcomes := batch.outcomes.set position (some invalidInput) }

def decodeBatch (decode : String → Option T) (records : List TaskRecord) : DecodedBatch T :=
  records.zipIdx.foldl (decodeRecord decode)
    { records, positions := [], outcomes := List.replicate records.length none, payload := [] }

/-- Calls the handler; an error or a reply that does not resolve fails every record asked about. -/
def callBatch (handler : List T → Except ε BatchReply) (payload : List T) (expected : ℕ) :
    List TaskOutcome :=
  match handler payload with
  | .ok data =>
    match resolveBatch data expected with
    | .ok outcomes => outcomes
    | .error _ => List.replicate expected handlerFailed
  | .error _ => List.replicate expected handlerFailed

def applyBatchOutcomes (batch : DecodedBatch T) (outcomes : List TaskOutcome) : DecodedBatch T :=
  { batch with
    outcomes := (batch.positions.zip outcomes).foldl
      (fun slots entry => slots.set entry.1 (some entry.2)) batch.outcomes }

def finishBatch (batch : DecodedBatch T) : List TaskExecutionResult :=
  (batch.records.zip batch.outcomes).map fun entry =>
    { record := entry.1, outcome := entry.2.getD handlerFailed }

def executeBatch (handler : List T → Except ε BatchReply) (decode : String → Option T)
    (records : List TaskRecord) : List TaskExecutionResult :=
  let batch := decodeBatch decode records
  if batch.positions.isEmpty then finishBatch batch
  else finishBatch (applyBatchOutcomes batch (callBatch handler batch.payload batch.positions.length))

/-! ### Slots -/

/-- The value the handler is asked about, if it is. -/
def accepted (decode : String → Option T) (record : TaskRecord) : Option T :=
  if record.kind ≠ .work then none else decode record.input

/-- What a record gets that the handler is not asked about. -/
def refusal (record : TaskRecord) : TaskOutcome :=
  if record.kind ≠ .work then kindMismatch else invalidInput

/-- A record's slot before the handler is called. -/
def slot (decode : String → Option T) (record : TaskRecord) : Option TaskOutcome :=
  if (accepted decode record).isSome then none else some (refusal record)

/-- The empty slots, counted from `n`. -/
def holes (n : ℕ) : List (Option TaskOutcome) → List ℕ
  | [] => []
  | none :: slots => n :: holes (n + 1) slots
  | some _ :: slots => holes (n + 1) slots

/-- The slots with the empty ones filled in order. -/
def fill : List (Option TaskOutcome) → List TaskOutcome → List (Option TaskOutcome)
  | none :: slots, outcome :: outcomes => some outcome :: fill slots outcomes
  | none :: slots, [] => none :: fill slots []
  | some kept :: slots, outcomes => some kept :: fill slots outcomes
  | [], _ => []

theorem holes_length : ∀ (n : ℕ) (slots : List (Option TaskOutcome)),
    (holes n slots).length = slots.countP Option.isNone
  | _, [] => rfl
  | n, none :: slots => by
    rw [holes, List.length_cons, holes_length, List.countP_cons_of_pos rfl]
  | n, some _ :: slots => by
    rw [holes, holes_length, List.countP_cons_of_neg Bool.false_ne_true]

theorem fill_nil : ∀ slots : List (Option TaskOutcome), fill slots [] = slots
  | [] => rfl
  | none :: slots => by rw [fill, fill_nil]
  | some _ :: slots => by rw [fill, fill_nil]

theorem set_middle {front back : List (Option TaskOutcome)} {old new : Option TaskOutcome} :
    (front ++ old :: back).set front.length new = front ++ new :: back := by
  rw [List.set_append_right _ _ (Nat.le_refl _), Nat.sub_self, List.set_cons_zero]

/-- The loop of `apply_batch_outcomes` fills the empty slots. -/
theorem apply_fills : ∀ (slots : List (Option TaskOutcome)) (front : List (Option TaskOutcome))
    (outcomes : List TaskOutcome),
    ((holes front.length slots).zip outcomes).foldl
      (fun slots entry => slots.set entry.1 (some entry.2)) (front ++ slots) = front ++ fill slots outcomes
  | [], front, outcomes => by cases outcomes <;> rfl
  | none :: slots, front, [] => by rw [List.zip_nil_right, List.foldl_nil, fill_nil]
  | none :: slots, front, outcome :: outcomes => by
    have ih := apply_fills slots (front ++ [some outcome]) outcomes
    rw [List.length_append, List.length_singleton] at ih
    rw [holes, List.zip_cons_cons, List.foldl_cons, set_middle, fill]
    simpa using ih
  | some kept :: slots, front, outcomes => by
    have ih := apply_fills slots (front ++ [some kept]) outcomes
    rw [List.length_append, List.length_singleton] at ih
    rw [holes, fill]
    simpa using ih

theorem decodeRecord_accepted {decode : String → Option T} {record : TaskRecord} {value : T}
    (h : accepted decode record = some value) (batch : DecodedBatch T) (position : ℕ) :
    decodeRecord decode batch (record, position) =
      { batch with payload := batch.payload ++ [value], positions := batch.positions ++ [position] } := by
  rw [accepted] at h
  split at h
  · exact nomatch h
  · next hkind => simp only [decodeRecord, if_neg hkind, h]

theorem decodeRecord_refused {decode : String → Option T} {record : TaskRecord}
    (h : accepted decode record = none) (batch : DecodedBatch T) (position : ℕ) :
    decodeRecord decode batch (record, position) =
      { batch with outcomes := batch.outcomes.set position (some (refusal record)) } := by
  rw [accepted] at h
  split at h
  · next hkind => simp only [decodeRecord, refusal, if_pos hkind]
  · next hkind => simp only [decodeRecord, refusal, if_neg hkind, h]

/-- The decoding loop over the records from position `front.length` on. -/
theorem decodeRecords (decode : String → Option T) : ∀ (rest : List TaskRecord)
    (front : List (Option TaskOutcome)) (batch : DecodedBatch T),
    batch.outcomes = front ++ List.replicate rest.length none →
    (rest.zipIdx front.length).foldl (decodeRecord decode) batch =
      { records := batch.records
        positions := batch.positions ++ holes front.length (rest.map (slot decode))
        outcomes := front ++ rest.map (slot decode)
        payload := batch.payload ++ rest.filterMap (accepted decode) }
  | [], front, batch, h => by
    cases batch
    simp only at h
    simp [holes, h]
  | record :: rest, front, batch, h => by
    rw [List.length_cons, List.replicate_succ] at h
    rw [List.zipIdx_cons, List.foldl_cons]
    have ih := decodeRecords decode rest (front ++ [slot decode record]) (decodeRecord decode batch (record, front.length))
    rw [List.length_append, List.length_singleton] at ih
    cases haccepted : accepted decode record with
    | some value =>
      have hslot : slot decode record = none := by rw [slot, haccepted]; rfl
      rw [decodeRecord_accepted haccepted, hslot] at ih
      rw [decodeRecord_accepted haccepted, ih (by rw [h, List.append_assoc, List.singleton_append])]
      simp only [List.map_cons, hslot, holes, List.filterMap_cons, haccepted, List.append_assoc,
        List.singleton_append]
    | none =>
      have hslot : slot decode record = some (refusal record) := by rw [slot, haccepted]; rfl
      have hset : batch.outcomes.set front.length (some (refusal record)) =
          front ++ [some (refusal record)] ++ List.replicate rest.length none := by
        rw [h, set_middle, List.append_assoc, List.singleton_append]
      rw [decodeRecord_refused haccepted, hslot] at ih
      rw [decodeRecord_refused haccepted, ih hset]
      simp only [List.map_cons, hslot, holes, List.filterMap_cons, haccepted, List.append_assoc,
        List.singleton_append]

theorem decodeBatch_eq (decode : String → Option T) (records : List TaskRecord) :
    decodeBatch decode records =
      { records
        positions := holes 0 (records.map (slot decode))
        outcomes := records.map (slot decode)
        payload := records.filterMap (accepted decode) } := by
  have h := decodeRecords decode records [] { records, positions := [], outcomes := List.replicate records.length none, payload := [] } rfl
  simpa only [decodeBatch, List.nil_append, List.length_nil] using h

/-- The records the handler is asked about. -/
def valid (decode : String → Option T) (record : TaskRecord) : Bool := (accepted decode record).isSome

theorem holes_slots (decode : String → Option T) (records : List TaskRecord) (n : ℕ) :
    (holes n (records.map (slot decode))).length = records.countP (valid decode) := by
  rw [holes_length, List.countP_map]
  refine List.countP_congr fun record _ => ?_
  rw [Function.comp_apply, slot, valid]
  cases (accepted decode record).isSome <;> simp

theorem resolveBatch_length {data : BatchReply} {expected : ℕ} {outcomes : List TaskOutcome}
    (h : resolveBatch data expected = .ok outcomes) : outcomes.length = expected := by
  cases data with
  | unit | outcome =>
    obtain rfl := Except.ok.inj h
    exact List.length_replicate
  | other => exact nomatch h
  | outcomes returned =>
    rw [resolveBatch] at h
    split at h
    · exact nomatch h
    · next hlength =>
      obtain rfl := Except.ok.inj h
      exact not_not.mp hlength

/-- Every record asked about gets an outcome. -/
theorem callBatch_length (handler : List T → Except ε BatchReply) (payload : List T) (expected : ℕ) :
    (callBatch handler payload expected).length = expected := by
  rw [callBatch]
  cases handler payload with
  | error e => exact List.length_replicate
  | ok data =>
    simp only
    cases hr : resolveBatch data expected with
    | error e => exact List.length_replicate
    | ok outcomes => exact resolveBatch_length hr

/-- The outcomes of the records the handler is asked about, in order. -/
def answers (handler : List T → Except ε BatchReply) (decode : String → Option T)
    (records : List TaskRecord) : List TaskOutcome :=
  callBatch handler (records.filterMap (accepted decode)) (records.countP (valid decode))

/-- A batch is its records with the handler's outcomes filled in. -/
theorem executeBatch_eq (handler : List T → Except ε BatchReply) (decode : String → Option T)
    (records : List TaskRecord) :
    executeBatch handler decode records =
      (records.zip (fill (records.map (slot decode)) (answers handler decode records))).map fun entry =>
        { record := entry.1, outcome := entry.2.getD handlerFailed } := by
  have hcount := holes_slots decode records 0
  have happly := apply_fills (records.map (slot decode)) [] (answers handler decode records)
  have hlength : (answers handler decode records).length = records.countP (valid decode) :=
    callBatch_length _ _ _
  rw [List.nil_append, List.nil_append, List.length_nil] at happly
  rw [executeBatch, decodeBatch_eq]
  simp only
  split
  · next hempty =>
    rw [List.isEmpty_iff.mp hempty, List.length_nil] at hcount
    rw [← hcount] at hlength
    rw [List.length_eq_zero_iff.mp hlength, fill_nil]
    rfl
  · rw [hcount, finishBatch, applyBatchOutcomes]
    simp only
    rw [← answers, happly]

theorem fill_length : ∀ (slots : List (Option TaskOutcome)) (outcomes : List TaskOutcome),
    (fill slots outcomes).length = slots.length
  | [], _ => by rw [fill]
  | none :: slots, [] => by rw [fill_nil]
  | none :: slots, _ :: outcomes => by rw [fill, List.length_cons, fill_length, List.length_cons]
  | some _ :: slots, outcomes => by rw [fill, List.length_cons, fill_length, List.length_cons]

/-- What a filled slot holds: its own outcome, or the one at its place among the empty ones. -/
theorem fill_get : ∀ (slots : List (Option TaskOutcome)) (outcomes : List TaskOutcome) (i : ℕ)
    (kept : Option TaskOutcome), slots[i]? = some kept →
    (fill slots outcomes)[i]? = some (kept.or outcomes[(slots.take i).countP Option.isNone]?)
  | [], _, _, _, h => nomatch h
  | none :: slots, [], i, kept, h => by
    rw [fill_nil, h, List.getElem?_nil, Option.or_none]
  | none :: slots, outcome :: outcomes, 0, kept, h => by
    obtain rfl := Option.some.inj h
    rfl
  | none :: slots, outcome :: outcomes, i + 1, kept, h => by
    have ih := fill_get slots outcomes i kept h
    rw [fill, List.getElem?_cons_succ, ih, List.take_succ_cons, List.countP_cons_of_pos rfl,
      List.getElem?_cons_succ]
  | some own :: slots, outcomes, 0, kept, h => by
    obtain rfl := Option.some.inj h
    rw [fill]
    rfl
  | some own :: slots, outcomes, i + 1, kept, h => by
    have ih := fill_get slots outcomes i kept h
    rw [fill, List.getElem?_cons_succ, ih, List.take_succ_cons, List.countP_cons_of_neg Bool.false_ne_true]

/-- The result of one record. -/
theorem executeBatch_get (handler : List T → Except ε BatchReply) (decode : String → Option T)
    {records : List TaskRecord} {i : ℕ} {record : TaskRecord} (h : records[i]? = some record) :
    (executeBatch handler decode records)[i]? = some
      { record
        outcome := if valid decode record then
          ((answers handler decode records)[(records.take i).countP (valid decode)]?).getD handlerFailed
          else refusal record } := by
  have hslot : (records.map (slot decode))[i]? = some (slot decode record) := by
    rw [List.getElem?_map, h, Option.map_some]
  have hplace : ((records.map (slot decode)).take i).countP Option.isNone =
      (records.take i).countP (valid decode) := by
    rw [← List.map_take, List.countP_map]
    refine List.countP_congr fun other _ => ?_
    rw [Function.comp_apply, slot, valid]
    cases (accepted decode other).isSome <;> simp
  have hget := fill_get _ (answers handler decode records) i _ hslot
  rw [hplace] at hget
  have hzip : (records.zip (fill (records.map (slot decode)) (answers handler decode records)))[i]? =
      some (record, (slot decode record).or
        (answers handler decode records)[(records.take i).countP (valid decode)]?) :=
    List.getElem?_zip_eq_some.mpr ⟨h, hget⟩
  rw [executeBatch_eq, List.getElem?_map, hzip, Option.map_some, slot, valid]
  cases (accepted decode record).isSome <;> simp

/-- The place of an accepted record is below the number of them. -/
theorem place_lt (decode : String → Option T) {records : List TaskRecord} {i : ℕ} {record : TaskRecord}
    (h : records[i]? = some record) (hvalid : valid decode record = true) :
    (records.take i).countP (valid decode) < records.countP (valid decode) := by
  have hdrop : records.drop i = record :: records.drop (i + 1) := by
    obtain ⟨hi, rfl⟩ := List.getElem?_eq_some_iff.mp h
    exact List.drop_eq_getElem_cons hi
  have hsplit : records.countP (valid decode) =
      (records.take i).countP (valid decode) + (records.drop i).countP (valid decode) := by
    rw [← List.countP_append, List.take_append_drop]
  rw [hsplit, hdrop, List.countP_cons_of_pos hvalid]
  omega

/-- CORRECT: a batch gives each record one outcome, in record order. The `i`-th record the handler was
    asked about gets the `i`-th of the handler's outcomes; a reply of another cardinality, or an error,
    fails all of them; the others keep the outcome they had. -/
theorem batch_outcomes_align (handler : List T → Except ε BatchReply) (decode : String → Option T)
    (records : List TaskRecord) :
    (executeBatch handler decode records).map (·.record) = records ∧
    ∃ outcomes : List TaskOutcome, outcomes.length = records.countP (valid decode) ∧
      (∀ i record, records[i]? = some record → ∃ result,
        (executeBatch handler decode records)[i]? = some result ∧ result.record = record ∧
          (valid decode record = true →
            outcomes[(records.take i).countP (valid decode)]? = some result.outcome) ∧
          (valid decode record = false → result.outcome = refusal record)) ∧
      ∀ reply, handler (records.filterMap (accepted decode)) = reply →
        (∀ returned, reply = .ok (.outcomes returned) →
          outcomes = if returned.length = records.countP (valid decode) then returned
            else List.replicate (records.countP (valid decode)) handlerFailed) ∧
        (∀ one, reply = .ok (.outcome one) → outcomes = List.replicate (records.countP (valid decode)) one) ∧
        (reply = .ok .unit → outcomes = List.replicate (records.countP (valid decode)) .complete) ∧
        ((∃ e, reply = .error e) ∨ reply = .ok .other →
          outcomes = List.replicate (records.countP (valid decode)) handlerFailed) := by
  have hlength : (answers handler decode records).length = records.countP (valid decode) :=
    callBatch_length _ _ _
  refine ⟨?_, answers handler decode records, hlength, ?_, ?_⟩
  · rw [executeBatch_eq, List.map_map]
    refine List.map_fst_zip (Nat.le_of_eq ?_)
    rw [fill_length, List.length_map]
  · intro i record h
    refine ⟨_, executeBatch_get handler decode h, rfl, fun hvalid => ?_, fun hrefused => ?_⟩
    · have hplace := place_lt decode h hvalid
      rw [← hlength] at hplace
      rw [if_pos hvalid, List.getElem?_eq_getElem hplace, Option.getD_some]
    · rw [hrefused, if_neg Bool.false_ne_true]
  · rintro reply rfl
    refine ⟨fun returned h => ?_, fun one h => ?_, fun h => ?_, fun h => ?_⟩
    · rw [answers, callBatch, h]
      simp only [resolveBatch]
      split_ifs <;> first | rfl | contradiction
    · rw [answers, callBatch, h]
      rfl
    · rw [answers, callBatch, h]
      rfl
    · rcases h with ⟨e, h⟩ | h
      · rw [answers, callBatch, h]
      · rw [answers, callBatch, h]
        rfl

end

end Vyuh.Tasks
