import Vyuh.Json.Reading
import Vyuh.Tasks.Store.Database.Workflow
import Vyuh.Tasks.Store.Memory.Operations
import Vyuh.Tasks.Submission

/-! The result of a group in both stores. The memory store assembles it from its rows, the database from
    pieces of bounded size; both join the same members to the same bytes, and a parent reads the members'
    envelopes back in their order. -/

namespace Vyuh.Tasks
open Lib Json

namespace Memory

/-- A member's result, when it is terminal. -/
def memberResult (tasks : List TaskRecord) (id : TaskId) : Option String :=
  (tasks.find? fun task => task.id = id).bind fun task =>
    if task.status.terminal then task.lastResult else none

theorem aggregateMembers_eq [Serde] (tasks : List TaskRecord) : ∀ (ids : List TaskId) (buffer : String),
    aggregateMembers tasks buffer ids = gather buffer (ids.map (memberResult tasks))
  | [], _ => rfl
  | id :: ids, buffer => by
    have hmember : ((tasks.find? fun task => task.id = id).bind (·.lastResult)).filter
        (fun _ => (tasks.find? fun task => task.id = id).any (·.status.terminal)) = memberResult tasks id := by
      rw [memberResult]
      cases tasks.find? fun task => task.id = id with
      | none => rfl
      | some task =>
        rw [Option.bind_some, Option.any_some, Option.bind_some]
        cases task.status.terminal <;> cases task.lastResult <;> rfl
    rw [aggregateMembers, List.map_cons, gather, List.foldlM_cons]
    rw [appendResult_settled, hmember]
    cases appendResult buffer (memberResult tasks id) true with
    | error error => rfl
    | ok next => exact aggregateMembers_eq tasks ids next

/-- A group whose members have all finished is joined. -/
theorem aggregate_eq [Serde] (state : MemoryState) (parent : TaskId) {wait : TaskWait}
    (h : wait.remainingCompletions = 0) :
    aggregate state parent wait = joined parent (wait.children.map (memberResult state.tasks)) := by
  rw [aggregate, if_neg (not_not_intro h), joined, ← aggregateMembers_eq]
  rfl

end Memory

/-! ### Parsers of compact texts -/

section

variable (ν : Type) [NumberText ν]

open Classical in
/-- The identifier a text is the rendering of. -/
noncomputable def readTaskId (text : String) : Option TaskId :=
  if h : ∃ id : TaskId, id.render = text then some h.choose else none

theorem readTaskId_render (id : TaskId) : readTaskId id.render = some id := by
  have hex : ∃ other : TaskId, other.render = id.render := ⟨id, rfl⟩
  rw [readTaskId, dif_pos hex, render_injective hex.choose_spec]

/-- `TaskFailure`, a map of its two fields. -/
noncomputable def failureOf : Value ν → Option TaskFailure
  | .object [("task_id", .string id), ("message", .string message)] =>
    (readTaskId id).map fun id => ⟨some id, message⟩
  | .object [("task_id", .null), ("message", .string message)] => some ⟨none, message⟩
  | _ => none

/-- `Result<Box<RawValue>, TaskFailure>`. -/
noncomputable def memberOf : Value ν → Option (Except TaskFailure String)
  | .object [("Ok", value)] => some (.ok (String.ofList value.text))
  | .object [("Err", value)] => (failureOf ν value).map .error
  | _ => none

/-- `FlowAllOut`. -/
noncomputable def itemsOf : Value ν → Option (List (Except TaskFailure String))
  | .array items => items.mapM (memberOf ν)
  | _ => none

/-- `Result<FlowAllOut, TaskFailure>`. -/
noncomputable def resumeOf : Value ν → Option (Except TaskFailure (List (Except TaskFailure String)))
  | .object [("Ok", value)] => (itemsOf ν value).map .ok
  | .object [("Err", value)] => (failureOf ν value).map .error
  | _ => none

/-- The parsers that read exactly the compact texts. -/
@[reducible] noncomputable def compactSerde : AllSerde where
  rawValueError text := if (Value.read (ν := ν) text).isSome then none else some "expected value"
  envelopeError text :=
    if ((Value.read text).bind (memberOf ν)).isSome then none else some "expected variant"
  member text := (Value.read text).bind (memberOf ν)
  members text := (Value.read text).bind (itemsOf ν)
  resume text := (Value.read text).bind (resumeOf ν)

theorem escape_hexDigit : ∀ n < 16, escapeChar (hexDigit n) = [hexDigit n] := by decide

/-- Nothing of an identifier is escaped. -/
theorem escape_render (id : TaskId) : id.render.toList.flatMap escapeChar = id.render.toList := by
  have hdigits : ∀ start count, (hexDigits id.uuid start count).flatMap escapeChar =
      hexDigits id.uuid start count := by
    intro start count
    rw [hexDigits, List.flatMap_map]
    refine (List.flatMap_congr fun i _ => escape_hexDigit _ (Nat.mod_lt _ (by decide))).trans ?_
    rw [← List.flatMap_map (f := fun i => hexDigit ((id.uuid.toNat / 16 ^ (31 - (start + i))) % 16))
      (g := fun c => [c]), List.flatMap_singleton']
  have hdash : escapeChar '-' = ['-'] := by decide
  rw [TaskId.render, Uuid.render, String.toList_ofList]
  simp only [List.flatMap_append, List.flatMap_cons, hdigits, hdash, List.cons_append,
    List.nil_append]

/-- A diagnostic as a value. -/
def failureValue (id : TaskId) (message : List Char) : Value ν :=
  .object [("task_id", .string id.render), ("message", .string (String.ofList message))]

theorem read_failureText (id : TaskId) (message : List Char) :
    Value.read (failureText id message) = some (.object [("Err", failureValue ν id message)]) := by
  refine Value.read_eq_some.mpr ?_
  have hfront : "\x7b\"Err\":\x7b\"task_id\":\"".toList =
      '{' :: jsonString "Err".toList ++ ':' :: '{' :: jsonString "task_id".toList ++ [':', '"'] := by decide
  have hmiddle : "\",\"message\":".toList = '"' :: ',' :: jsonString "message".toList ++ [':'] := by decide
  have hclose : "\x7d\x7d".toList = ['}', '}'] := rfl
  have hid : jsonString id.render.toList = '"' :: (id.render.toList ++ ['"']) := by
    rw [jsonString, escape_render, List.cons_append]
  unfold failureText failureValue
  generalize id.render = render at hid ⊢
  simp only [String.toList_append, hfront, hmiddle, hclose, Value.text, Value.fieldTexts, listed,
    List.isEmpty_nil, List.isEmpty_cons, if_true, if_false, Bool.false_eq_true, hid, String.toList_ofList,
    List.append_assoc, List.cons_append, List.nil_append]

/-- What the documentation says holds of them. -/
theorem compactSerde_documented : @AllSerde.Documented (compactSerde ν) := by
  let _ := compactSerde ν
  have hraw : ∀ text, Serde.rawValueError text = none ↔ ∃ value : Value ν, Value.read text = some value := by
    intro text
    rw [← Option.isSome_iff_exists]
    constructor
    · intro h
      by_contra hnot
      exact nomatch (if_neg hnot).symm.trans h
    · exact fun h => if_pos h
  have henvelope : ∀ text, Serde.envelopeError text = none ↔
      ((Value.read text).bind (memberOf ν)).isSome = true := by
    intro text
    constructor
    · intro h
      by_contra hnot
      exact nomatch (if_neg hnot).symm.trans h
    · exact fun h => if_pos h
  have hfailure : ∀ id message, failureOf ν (failureValue ν id message) =
      some ⟨some id, String.ofList message⟩ := by
    intro id message
    rw [failureValue, failureOf, readTaskId_render]
    rfl
  refine ⟨⟨?_, ?_, fun value h => ?_, fun id message => ?_, fun text h => ?_, fun values h => ?_⟩,
    fun text h => (henvelope text).mp h, fun texts items h => ?_, fun value items h => ?_,
    fun id message => ?_⟩
  · exact (hraw _).mpr ⟨.null, Value.read_eq_some.mpr rfl⟩
  · intro h
    obtain ⟨value, hread⟩ := (hraw _).mp h
    obtain ⟨c, rest, htext, -⟩ := value.text_first
    rw [Value.read_eq_some.mp hread] at htext
    exact nomatch htext
  · obtain ⟨inner, hread⟩ := (hraw _).mp h
    rw [henvelope, Value.read_tagged hread]
    rfl
  · rw [henvelope, read_failureText ν, Option.bind_some, memberOf, hfailure]
    rfl
  · rw [henvelope] at h
    obtain ⟨item, hitem⟩ := Option.isSome_iff_exists.mp h
    obtain ⟨value, hread, -⟩ := Option.bind_eq_some_iff.mp hitem
    exact (hraw _).mpr ⟨value, hread⟩
  · obtain ⟨inners, hinners⟩ : ∃ inners : List (Value ν),
        List.Forall₂ (fun text value => Value.read text = some value) values inners := by
      induction values with
      | nil => exact ⟨[], .nil⟩
      | cons value values ih =>
        obtain ⟨inners, hinners⟩ := ih fun other hm => h other (List.mem_cons_of_mem _ hm)
        obtain ⟨inner, hread⟩ := (hraw _).mp (h value List.mem_cons_self)
        exact ⟨inner :: inners, .cons hread hinners⟩
    exact (hraw _).mpr ⟨_, Value.read_array hinners⟩
  · obtain ⟨inners, hinners, hmembers⟩ : ∃ inners : List (Value ν),
        List.Forall₂ (fun text value => Value.read text = some value) texts inners ∧
          inners.mapM (memberOf ν) = some items := by
      induction h with
      | nil => exact ⟨[], .nil, rfl⟩
      | cons hfirst _ ih =>
        obtain ⟨inners, hinners, hmembers⟩ := ih
        obtain ⟨inner, hread, hmember⟩ := Option.bind_eq_some_iff.mp hfirst
        refine ⟨inner :: inners, .cons hread hinners, ?_⟩
        rw [List.mapM_cons, hmember, hmembers]
        rfl
    change (Value.read _).bind (itemsOf ν) = _
    rw [Value.read_array hinners]
    exact hmembers
  · obtain ⟨inner, hread, hitems⟩ := Option.bind_eq_some_iff.mp h
    change (Value.read _).bind (resumeOf ν) = _
    rw [Value.read_tagged hread, Option.bind_some, resumeOf, hitems]
    rfl
  · change (Value.read _).bind (resumeOf ν) = _
    rw [read_failureText ν, Option.bind_some, resumeOf, hfailure]
    rfl

end

/-! ### Both stores -/

open Memory Database

/-- A group's input is the envelope of its members' envelopes in their order exactly when they are all
    there, terminal, valid and short enough together, and the parent's failure otherwise; no length
    underflows; and the database joins the same members to the same bytes. -/
theorem group_result_round_trip [AllSerde] (hs : AllSerde.Documented)
    (taskIds : String → Option (List TaskId)) :
    (∀ (state : MemoryState) (parent : TaskId) (wait : TaskWait),
      let input := aggregate state parent wait
      let members := wait.children.map (Memory.memberResult state.tasks)
      (wait.remainingCompletions = 0 → ∀ results, Settles members results →
        input = assembled results ∧ input.utf8ByteSize ≤ 32768 ∧
        ∃ items, List.Forall₂ (fun text item => AllSerde.member text = some item) results items ∧
          AllSerde.resume input = some (.ok items)) ∧
      ((wait.remainingCompletions ≠ 0 ∨ ∀ results, ¬ Settles members results) →
        (∃ message, input = failure parent message) ∧ validateResume input = .ok () ∧
        ∃ message, AllSerde.resume input = some (.error ⟨some parent, message⟩))) ∧
    (∀ (buffer buffer' result : String) (terminal : Bool) (capacity : ℕ),
      appendResult buffer (some result) terminal = .ok buffer' →
      (reserve buffer capacity result).isSome = true) ∧
    (∀ (id : TaskId) (fuel : ℕ) (message : List Char),
      failureChecked id fuel message = some (failureLoop id fuel message)) ∧
    ∀ (table : List ChildResult) (waits : List Wait) (batch : ℕ), (table.map (·.id)).Nodup →
      (memberIds taskIds waits).Nodup → ∀ (i : ℕ) (wait : Wait) (ids : List TaskId), waits[i]? = some wait →
      decoded taskIds wait = some ids → ∀ state : MemoryState,
      (∀ id ∈ ids, Database.memberResult table id = Memory.memberResult state.tasks id) →
      ((Database.materialize taskIds table waits batch)[i]?).bind (·.resumeInput) =
        some (aggregate state wait.1 ⟨ids, 0⟩) := by
  refine ⟨fun state parent wait => ⟨fun hzero results hsettles => ?_, fun hnot => ?_⟩,
    fun buffer buffer' result terminal capacity h => reserve_ok capacity h, failureChecked_eq, ?_⟩
  · have hinput := (aggregate_eq state parent hzero).trans (joined_of_settles hs.toDocumented hsettles)
    obtain ⟨items, hitems⟩ := members_read hs hsettles.valid
    rw [hinput]
    exact ⟨rfl, hsettles.fits, items, hitems, resume_assembled hs hitems⟩
  · obtain ⟨message, hinput⟩ : ∃ message, aggregate state parent wait = failure parent message := by
      by_cases hzero : wait.remainingCompletions = 0
      · rw [aggregate_eq state parent hzero]
        exact joined_of_not hs.toDocumented (hnot.resolve_left (not_not_intro hzero))
      · exact ⟨_, if_pos hzero⟩
    rw [hinput]
    exact ⟨⟨message, rfl⟩, validateResume_failure hs.toDocumented parent message,
      resume_failure hs parent message⟩
  · intro table waits batch htable hids i wait ids hwait hd state hsame
    rw [materialize_input taskIds htable hids batch hwait, hd, aggregate_eq state wait.1 rfl,
      ← List.map_congr_left hsame]
    rfl

/-- Two finished tasks, one of which failed. -/
def finishedPair : List TaskRecord :=
  [{ freshRecord 1 .work "open" with status := .succeeded, lastResult := some unitResult },
    { freshRecord 2 .work "open" with status := .failed, lastResult := some (failure ⟨2⟩ "no") }]

/-- The list of the two, as it is stored. -/
def pairIds (text : String) : Option (List TaskId) :=
  if text = "[\"" ++ TaskId.render ⟨1⟩ ++ "\",\"" ++ TaskId.render ⟨2⟩ ++ "\"]" then some [⟨1⟩, ⟨2⟩] else none

/-- Compact texts with natural numbers in decimal. -/
@[reducible] noncomputable def decimalSerde : AllSerde := @compactSerde ℕ decimal

attribute [local instance] decimalSerde in
/-- The two are read back as they were stored; the database reads them one at a time. -/
theorem group_result_round_trip_pair :
    let state := { MemoryState.new smallConf with tasks := finishedPair }
    aggregate state ⟨3⟩ ⟨[⟨1⟩, ⟨2⟩], 0⟩ = assembled [unitResult, failure ⟨2⟩ "no"] ∧
      ((Database.materialize pairIds (finishedPair.map fun task => ⟨task.id.uuid, task.status, task.lastResult⟩)
        [(⟨3⟩, "[\"" ++ TaskId.render ⟨1⟩ ++ "\",\"" ++ TaskId.render ⟨2⟩ ++ "\"]", 0)] 1)[0]?).bind
          (·.resumeInput) = some (aggregate state ⟨3⟩ ⟨[⟨1⟩, ⟨2⟩], 0⟩) := by
  have hs : AllSerde.Documented := @compactSerde_documented ℕ decimal
  obtain ⟨hmemory, -, -, hdatabase⟩ := group_result_round_trip hs pairIds
  have hids : decoded pairIds (⟨3⟩, "[\"" ++ TaskId.render ⟨1⟩ ++ "\",\"" ++ TaskId.render ⟨2⟩ ++ "\"]", 0) =
      some [⟨1⟩, ⟨2⟩] := by
    rw [decoded, pairIds, if_pos rfl]
    rfl
  refine ⟨?_, ?_⟩
  · refine ((hmemory _ ⟨3⟩ ⟨[⟨1⟩, ⟨2⟩], 0⟩).1 rfl [unitResult, failure ⟨2⟩ "no"] ⟨rfl, fun result hm => ?_, ?_⟩).1
    · rcases List.mem_pair.mp hm with rfl | rfl
      · exact validateResume_unit hs.toDocumented
      · exact validateResume_failure hs.toDocumented _ _
    · decide
  · refine hdatabase _ _ 1 (by decide) ?_ 0 _ _ rfl hids _ ?_
    · rw [memberIds, List.flatMap_singleton, hids]
      decide
    · intro id hm
      rcases List.mem_pair.mp hm with rfl | rfl <;> rfl

end Vyuh.Tasks
