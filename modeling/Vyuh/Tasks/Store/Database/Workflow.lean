import Vyuh.Lib.FMap
import Vyuh.Lib.Table
import Vyuh.Tasks.Groups

/-! The groups of the database store (`database/workflow.rs`): the members of all claimed parents are
    read in pieces of bounded size, a piece may hold members of several parents, and each parent's input
    is written with the others. The rows are those the transaction reads. -/

namespace Vyuh.Tasks.Database
open Lib

/-- Bounds workflow key and result queries. -/
def queryChunkSize : ℕ := 250

/-- What is read of a member. -/
structure ChildResult where
  id : Uuid
  status : TaskStatus
  lastResult : Option String
  deriving DecidableEq, Repr

/-- What is written of a claimed parent. -/
structure JoinInput where
  id : Uuid
  resumeInput : Option String
  waitingChildren : Option String
  remainingCompletions : ℤ
  deriving DecidableEq, Repr

/-- The parent inputs under construction, and the parents whose members failed. -/
structure Collecting where
  patches : List JoinInput
  errors : FMap ℕ String

/-- The inputs, the members of all of them, and the parents whose wait is unusable. -/
structure Joining where
  collecting : Collecting
  members : List (ℕ × TaskId)

def setInput (input : String) (patch : JoinInput) : JoinInput := { patch with resumeInput := some input }

/-- Terminal members only, in the order of their ids. -/
def loadResults (table : List ChildResult) (ids : List Uuid) : List ChildResult :=
  (table.filter fun row => ids.contains row.id && row.status.terminal).insertionSort
    fun row other => row.id.toNat ≤ other.id.toNat

/-- The loaded rows by id. -/
def byId (rows : List ChildResult) : FMap Uuid ChildResult :=
  rows.foldl (fun map row => map.insert row.id row) FMap.empty

/-- One member of a piece: its row is taken out and appended to its parent's input. -/
def collectMember [Serde] (state : FMap Uuid ChildResult × Collecting) (member : ℕ × TaskId) :
    FMap Uuid ChildResult × Collecting :=
  if state.2.errors.contains member.1 then state
  else
    match state.2.patches[member.1]?.bind (·.resumeInput) with
    | none => state
    | some buffer =>
      let child := state.1 member.2.uuid
      let rows := state.1.remove member.2.uuid
      match appendResult buffer (child.bind (·.lastResult)) child.isSome with
      | .ok buffer => (rows, { state.2 with patches := state.2.patches.modify member.1 (setInput buffer) })
      | .error error =>
        (rows, ⟨state.2.patches.modify member.1 (setInput ""), state.2.errors.insert member.1 error⟩)

/-- One piece of the members. -/
def collectChunk [Serde] (table : List ChildResult) (state : Collecting) (chunk : List (ℕ × TaskId)) :
    Collecting :=
  let ids := (chunk.filter fun member => !state.errors.contains member.1).map (·.2.uuid)
  if ids.isEmpty then state
  else (chunk.foldl collectMember (byId (loadResults table ids), state)).2

/-- Reads the members piece by piece. -/
def collect [Serde] (table : List ChildResult) (members : List (ℕ × TaskId)) (state : Collecting)
    (batch : ℕ) : Collecting :=
  (chunks (max 1 (min batch queryChunkSize)) members).foldl (collectChunk table) state

/-- One claimed parent: its id, the text of its members and its counter. -/
abbrev Wait := TaskId × String × ℤ

section

variable (taskIds : String → Option (List TaskId))

def joinWait (joining : Joining) (wait : Wait) : Joining :=
  let index := joining.collecting.patches.length
  let patches := joining.collecting.patches ++ [⟨wait.1.uuid, some opening, none, 0⟩]
  match taskIds wait.2.1 with
  | none =>
    ⟨⟨patches, joining.collecting.errors.insert index "All membership or counter is invalid"⟩, joining.members⟩
  | some ids =>
    if wait.2.2 = 0 then
      ⟨⟨patches, joining.collecting.errors⟩, joining.members ++ ids.map fun id => (index, id)⟩
    else
      ⟨⟨patches, joining.collecting.errors.insert index "All membership or counter is invalid"⟩,
        joining.members⟩

/-- Closes one parent's input, or reports why it failed. -/
def close (errors : FMap ℕ String) (index : ℕ) (patch : JoinInput) : JoinInput :=
  match errors index with
  | some error => setInput (failure ⟨patch.id⟩ error) patch
  | none => { patch with resumeInput := patch.resumeInput.map (· ++ "]\x7d") }

/-- The inputs of all claimed parents, as they are written. -/
def materialize [Serde] (table : List ChildResult) (waits : List Wait) (batch : ℕ) : List JoinInput :=
  let joining := waits.foldl (joinWait taskIds) ⟨⟨[], FMap.empty⟩, []⟩
  let collected := collect table joining.members joining.collecting batch
  collected.patches.mapIdx (close collected.errors)

end

/-! ### What the pieces leave -/

/-- The terminal row with an id. -/
def loaded (table : List ChildResult) (id : Uuid) : Option ChildResult :=
  (table.find? fun row => row.id = id).filter (·.status.terminal)

/-- A member's result, when it is terminal. -/
def memberResult (table : List ChildResult) (id : TaskId) : Option String :=
  (loaded table id.uuid).bind (·.lastResult)

/-- The members of one parent. -/
def membersOf (table : List ChildResult) (members : List (ℕ × TaskId)) (index : ℕ) : List (Option String) :=
  (members.filter (·.1 = index)).map fun member => memberResult table member.2

/-- How far a parent is: its failure, or its buffer. -/
def Collecting.progress (state : Collecting) (index : ℕ) : Option (Except String String) :=
  match state.errors index with
  | some error => some (.error error)
  | none => (state.patches[index]?.bind (·.resumeInput)).map .ok

theorem Collecting.progress_error {state : Collecting} {index : ℕ} {error : String}
    (h : state.errors index = some error) : state.progress index = some (.error error) := by
  rw [progress, h]

theorem Collecting.progress_ok {state : Collecting} {index : ℕ} (h : state.errors index = none) :
    state.progress index = (state.patches[index]?.bind (·.resumeInput)).map .ok := by
  rw [progress, h]

/-- The buffer of a parent after a write to some parent's input. -/
theorem modify_input (patches : List JoinInput) (index i : ℕ) (input : String) :
    ((patches.modify index (setInput input))[i]?).bind (·.resumeInput) =
      if index = i then patches[i]?.map fun _ => input else patches[i]?.bind (·.resumeInput) := by
  rw [List.getElem?_modify]
  split
  · cases patches[i]? <;> rfl
  · cases patches[i]? <;> rfl

theorem append_loaded [Serde] (buffer : String) (child : Option ChildResult) :
    appendResult buffer (child.bind (·.lastResult)) child.isSome =
      appendResult buffer (child.bind (·.lastResult)) true := by
  cases child with
  | none => rfl
  | some row => rfl

variable [Serde] {table : List ChildResult} {rows : FMap Uuid ChildResult} {state : Collecting}

/-- What one member does to every parent. -/
theorem collectMember_progress {member : ℕ × TaskId}
    (hrow : state.errors member.1 = none → rows member.2.uuid = loaded table member.2.uuid) (i : ℕ) :
    (collectMember (rows, state) member).2.progress i =
      if i = member.1 then
        (state.progress i).map (·.bind fun buffer => appendResult buffer (memberResult table member.2) true)
      else state.progress i := by
  rw [collectMember]
  dsimp only
  cases herror : state.errors member.1 with
  | some error =>
    rw [if_pos (by rw [FMap.contains, herror]; rfl)]
    split
    · next hi =>
      rw [hi, Collecting.progress_error herror]
      rfl
    · rfl
  | none =>
    rw [if_neg (by rw [FMap.contains, herror]; exact Bool.false_ne_true)]
    cases hbuffer : state.patches[member.1]?.bind (·.resumeInput) with
    | none =>
      dsimp only
      by_cases hi : i = member.1
      · rw [if_pos hi, hi, Collecting.progress_ok herror, hbuffer]
        rfl
      · rw [if_neg hi]
    | some buffer =>
      obtain ⟨patch, hpatch, -⟩ := Option.bind_eq_some_iff.mp hbuffer
      have hstep : appendResult buffer ((rows member.2.uuid).bind (·.lastResult))
          (rows member.2.uuid).isSome = appendResult buffer (memberResult table member.2) true := by
        rw [append_loaded, hrow herror, memberResult]
      simp only [hstep]
      cases happend : appendResult buffer (memberResult table member.2) true with
      | ok next =>
        dsimp only
        by_cases hi : i = member.1
        · have hafter : Collecting.progress ⟨state.patches.modify member.1 (setInput next), state.errors⟩
              member.1 = some (.ok next) := by
            rw [Collecting.progress]
            dsimp only
            rw [herror, modify_input, if_pos rfl, hpatch]
            rfl
          rw [if_pos hi, hi, hafter, Collecting.progress_ok herror, hbuffer]
          exact congrArg some happend.symm
        · rw [if_neg hi, Collecting.progress, Collecting.progress, modify_input, if_neg (Ne.symm hi)]
      | error error =>
        dsimp only
        by_cases hi : i = member.1
        · rw [if_pos hi, hi, Collecting.progress_error (FMap.insert_self ..), Collecting.progress_ok herror,
            hbuffer, Option.map_some, Option.map_some]
          exact congrArg some happend.symm
        · rw [if_neg hi, Collecting.progress, Collecting.progress, modify_input, if_neg (Ne.symm hi)]
          dsimp only
          rw [FMap.insert_of_ne _ _ hi]

/-- Failures stay, other members' rows stay, and only inputs are written. -/
theorem collectMember_frame (rows : FMap Uuid ChildResult) (state : Collecting) (member : ℕ × TaskId) :
    (∀ i, (collectMember (rows, state) member).2.errors i = none → state.errors i = none) ∧
      (∀ id, id ≠ member.2.uuid → (collectMember (rows, state) member).1 id = rows id) ∧
      (collectMember (rows, state) member).2.patches.map (setInput "") = state.patches.map (setInput "") := by
  have hset : ∀ (i : ℕ) (input : String),
      (state.patches.modify i (setInput input)).map (setInput "") = state.patches.map (setInput "") := by
    intro i input
    refine List.ext_getElem? fun j => ?_
    rw [List.getElem?_map, List.getElem?_modify, List.getElem?_map]
    split
    · cases state.patches[j]? <;> rfl
    · cases state.patches[j]? <;> rfl
  rw [collectMember]
  dsimp only
  split
  · exact ⟨fun _ h => h, fun _ _ => rfl, rfl⟩
  · split
    · exact ⟨fun _ h => h, fun _ _ => rfl, rfl⟩
    · split
      · exact ⟨fun _ h => h, fun _ hne => FMap.remove_of_ne _ hne, hset _ _⟩
      · refine ⟨fun i h => ?_, fun _ hne => FMap.remove_of_ne _ hne, hset _ _⟩
        simp only [FMap.insert_apply] at h
        split at h
        · exact nomatch h
        · exact h

/-! ### The rows of a piece -/

omit [Serde] in
/-- A row is found by its id when ids are unique. -/
theorem find_row {l : List ChildResult} (hl : (l.map (·.id)).Nodup) {id : Uuid} {row : ChildResult} :
    l.find? (fun row => row.id = id) = some row ↔ row ∈ l ∧ row.id = id := by
  constructor
  · intro h
    have hid := List.find?_some h
    exact ⟨List.mem_of_find?_eq_some h, of_decide_eq_true hid⟩
  · rintro ⟨hm, hid⟩
    cases hf : l.find? (fun row => row.id = id) with
    | none => exact absurd (decide_eq_true hid) (List.find?_eq_none.mp hf row hm)
    | some other =>
      have hfound := List.find?_some hf
      have hother : other.id = id := of_decide_eq_true hfound
      rw [List.inj_on_of_nodup_map hl (List.mem_of_find?_eq_some hf) hm (hother.trans hid.symm)]

omit [Serde] in
theorem byId_foldl : ∀ {l : List ChildResult} (map : FMap Uuid ChildResult) (id : Uuid),
    (l.map (·.id)).Nodup → l.foldl (fun map row => map.insert row.id row) map id =
      (l.find? fun row => row.id = id).or (map id)
  | [], _, _, _ => rfl
  | row :: l, map, id, hl => by
    obtain ⟨hfirst, hrest⟩ := List.nodup_cons.mp hl
    rw [List.foldl_cons, byId_foldl _ id hrest, List.find?_cons]
    by_cases hid : row.id = id
    · have hnone : (l.find? fun row => row.id = id) = none := by
        refine List.find?_eq_none.mpr fun other hm heq => hfirst ?_
        have hother : other.id = row.id := (of_decide_eq_true heq).trans hid.symm
        exact List.mem_map.mpr ⟨other, hm, hother⟩
      rw [hnone, decide_eq_true hid, ← hid, FMap.insert_self]
      rfl
    · rw [decide_eq_false hid, FMap.insert_of_ne _ _ (Ne.symm hid)]

omit [Serde] in
/-- The loaded rows, by id, are the terminal rows of the ids asked for. -/
theorem byId_loadResults {table : List ChildResult} (htable : (table.map (·.id)).Nodup) {ids : List Uuid}
    {id : Uuid} (hid : id ∈ ids) : byId (loadResults table ids) id = loaded table id := by
  have hperm := List.perm_insertionSort (fun row other : ChildResult => row.id.toNat ≤ other.id.toNat)
    (table.filter fun row => ids.contains row.id && row.status.terminal)
  have hnodup : ((loadResults table ids).map (·.id)).Nodup := by
    refine (hperm.map (·.id)).nodup_iff.mpr (htable.sublist ?_)
    exact List.filter_sublist.map _
  rw [byId, byId_foldl _ _ hnodup, FMap.empty, Option.or_none]
  refine Option.ext fun row => ?_
  rw [find_row hnodup, loaded, Option.filter_eq_some_iff, find_row htable, loadResults, hperm.mem_iff,
    List.mem_filter, Bool.and_eq_true, List.contains_iff_mem]
  constructor
  · rintro ⟨⟨hm, -, hterminal⟩, hrow⟩
    exact ⟨⟨hm, hrow⟩, hterminal⟩
  · rintro ⟨⟨hm, hrow⟩, hterminal⟩
    exact ⟨⟨hm, hrow ▸ hid, hterminal⟩, hrow⟩

omit [Serde] in
theorem membersOf_cons (table : List ChildResult) (member : ℕ × TaskId) (members : List (ℕ × TaskId))
    (i : ℕ) : membersOf table (member :: members) i =
      if member.1 = i then memberResult table member.2 :: membersOf table members i
      else membersOf table members i := by
  rw [membersOf, List.filter_cons]
  by_cases hi : member.1 = i
  · rw [decide_eq_true hi, if_pos rfl, if_pos hi, List.map_cons, membersOf]
  · rw [decide_eq_false hi, if_neg Bool.false_ne_true, if_neg hi, membersOf]

omit [Serde] in
theorem membersOf_append (table : List ChildResult) (front back : List (ℕ × TaskId)) (i : ℕ) :
    membersOf table (front ++ back) i = membersOf table front i ++ membersOf table back i := by
  rw [membersOf, List.filter_append, List.map_append, membersOf, membersOf]

theorem gather_nil (progress : Option (Except String String)) :
    progress.map (·.bind fun buffer => gather buffer []) = progress := by
  rcases progress with - | error | buffer <;> rfl

/-- One piece moves every parent over its own members of the piece. -/
theorem chunk_progress : ∀ (chunk : List (ℕ × TaskId)) (rows : FMap Uuid ChildResult) (state : Collecting),
    (chunk.map (·.2.uuid)).Nodup →
    (∀ member ∈ chunk, state.errors member.1 = none → rows member.2.uuid = loaded table member.2.uuid) →
    ∀ i, (chunk.foldl collectMember (rows, state)).2.progress i =
      (state.progress i).map (·.bind fun buffer => gather buffer (membersOf table chunk i))
  | [], _, state, _, _, i => (gather_nil (state.progress i)).symm
  | member :: chunk, rows, state, hnodup, hrows, i => by
    obtain ⟨hfirst, hrest⟩ := List.nodup_cons.mp hnodup
    obtain ⟨herrors, hkeeps, -⟩ := collectMember_frame rows state member
    have hnext : ∀ other ∈ chunk, (collectMember (rows, state) member).2.errors other.1 = none →
        (collectMember (rows, state) member).1 other.2.uuid = loaded table other.2.uuid := by
      intro other hm herror
      have hne : other.2.uuid ≠ member.2.uuid := by
        intro heq
        exact hfirst (List.mem_map.mpr ⟨other, hm, heq⟩)
      rw [hkeeps _ hne]
      exact hrows other (List.mem_cons_of_mem _ hm) (herrors _ herror)
    rw [List.foldl_cons, chunk_progress chunk _ _ hrest hnext i,
      collectMember_progress (hrows member List.mem_cons_self) i, membersOf_cons]
    by_cases hi : member.1 = i
    · rw [if_pos hi, if_pos hi.symm, Option.map_map]
      refine congrArg (fun f => (state.progress i).map f) (funext fun progress => ?_)
      cases progress with
      | error error => rfl
      | ok buffer => rfl
    · rw [if_neg hi, if_neg (Ne.symm hi)]

/-- A piece whose parents have all failed changes nothing, and any other one gathers its members. -/
theorem collectChunk_progress (htable : (table.map (·.id)).Nodup) {chunk : List (ℕ × TaskId)}
    (hchunk : (chunk.map (·.2.uuid)).Nodup) (i : ℕ) :
    (collectChunk table state chunk).progress i =
      (state.progress i).map (·.bind fun buffer => gather buffer (membersOf table chunk i)) := by
  rw [collectChunk]
  split
  · next hempty =>
    by_cases hmembers : chunk.filter (·.1 = i) = []
    · rw [membersOf, hmembers, List.map_nil, gather_nil]
    · obtain ⟨member, hm⟩ := List.exists_mem_of_ne_nil _ hmembers
      obtain ⟨hmem, hi⟩ := List.mem_filter.mp hm
      rw [List.isEmpty_iff, List.map_eq_nil_iff, List.filter_eq_nil_iff] at hempty
      have hfailed : state.errors member.1 ≠ none := by simpa [FMap.contains] using hempty member hmem
      obtain ⟨error, herror⟩ := Option.ne_none_iff_exists'.mp hfailed
      rw [of_decide_eq_true hi] at herror
      rw [Collecting.progress_error herror]
      rfl
  · refine chunk_progress chunk _ state hchunk (fun member hm herror => ?_) i
    refine byId_loadResults htable (List.mem_map.mpr ⟨member, List.mem_filter.mpr ⟨hm, ?_⟩, rfl⟩)
    rw [FMap.contains, herror]
    rfl

theorem collectChunk_frame (table : List ChildResult) (state : Collecting) (chunk : List (ℕ × TaskId)) :
    (collectChunk table state chunk).patches.map (setInput "") = state.patches.map (setInput "") := by
  have hfold : ∀ (chunk : List (ℕ × TaskId)) (step : FMap Uuid ChildResult × Collecting),
      (chunk.foldl collectMember step).2.patches.map (setInput "") = step.2.patches.map (setInput "") := by
    intro chunk
    induction chunk with
    | nil => exact fun _ => rfl
    | cons member chunk ih => exact fun step => (ih _).trans (collectMember_frame step.1 step.2 member).2.2
  rw [collectChunk]
  split
  · rfl
  · exact hfold chunk _

/-- However the members are cut into pieces, every parent gathers its own in order. -/
theorem pieces_progress (htable : (table.map (·.id)).Nodup) : ∀ (pieces : List (List (ℕ × TaskId)))
    (state : Collecting), (pieces.flatten.map (·.2.uuid)).Nodup → ∀ i,
    (pieces.foldl (collectChunk table) state).progress i =
        (state.progress i).map (·.bind fun buffer => gather buffer (membersOf table pieces.flatten i)) ∧
      (pieces.foldl (collectChunk table) state).patches.map (setInput "") = state.patches.map (setInput "")
  | [], state, _, i => ⟨(gather_nil (state.progress i)).symm, rfl⟩
  | chunk :: pieces, state, hnodup, i => by
    rw [List.flatten_cons, List.map_append, List.nodup_append] at hnodup
    obtain ⟨hchunk, hrest, -⟩ := hnodup
    obtain ⟨hprogress, hframe⟩ := pieces_progress htable pieces (collectChunk table state chunk) hrest i
    refine ⟨?_, hframe.trans (collectChunk_frame table state chunk)⟩
    rw [List.foldl_cons, hprogress, collectChunk_progress htable hchunk, List.flatten_cons, membersOf_append,
      Option.map_map]
    refine congrArg (fun f => (state.progress i).map f) (funext fun progress => ?_)
    cases progress with
    | error error => rfl
    | ok buffer => exact (gather_append buffer _ _).symm

/-! ### The claimed parents -/

section

variable (taskIds : String → Option (List TaskId))

/-- The members of a wait that can be joined. -/
def decoded (wait : Wait) : Option (List TaskId) := (taskIds wait.2.1).filter fun _ => wait.2.2 = 0

omit [Serde]

theorem joinWait_eq (joining : Joining) (wait : Wait) :
    joinWait taskIds joining wait =
      let index := joining.collecting.patches.length
      let patches := joining.collecting.patches ++ [⟨wait.1.uuid, some opening, none, 0⟩]
      match decoded taskIds wait with
      | none =>
        ⟨⟨patches, joining.collecting.errors.insert index "All membership or counter is invalid"⟩,
          joining.members⟩
      | some ids =>
        ⟨⟨patches, joining.collecting.errors⟩, joining.members ++ ids.map fun id => (index, id)⟩ := by
  rw [joinWait, decoded]
  cases taskIds wait.2.1 with
  | none => rfl
  | some ids =>
    by_cases hzero : wait.2.2 = 0
    · simp only [Option.filter_some, decide_eq_true hzero, if_true, if_pos hzero]
    · simp only [Option.filter_some, decide_eq_false hzero, Bool.false_eq_true, if_false, if_neg hzero]

/-- What the waits looked at so far have become. -/
structure Joins (done : List Wait) (joining : Joining) : Prop where
  patches : joining.collecting.patches = done.map fun wait => ⟨wait.1.uuid, some opening, none, 0⟩
  errors : ∀ i, joining.collecting.errors i = done[i]?.bind fun wait =>
    if (decoded taskIds wait).isNone then some "All membership or counter is invalid" else none
  members : ∀ i, (joining.members.filter (·.1 = i)).map (·.2) =
    (done[i]?.bind (decoded taskIds)).getD []
  ids : joining.members.map (·.2) = done.flatMap fun wait => (decoded taskIds wait).getD []

theorem Joins.step {done : List Wait} {joining : Joining} (h : Joins taskIds done joining) (wait : Wait) :
    Joins taskIds (done ++ [wait]) (joinWait taskIds joining wait) := by
  have hlength : joining.collecting.patches.length = done.length := by rw [h.patches, List.length_map]
  have hbeyond : ∀ i, ¬ i < done.length → i ≠ done.length → (done ++ [wait])[i]? = none := by
    intro i hlt hne
    refine List.getElem?_eq_none ?_
    rw [List.length_append, List.length_singleton]
    omega
  have hbefore : ∀ i, i < done.length → (done ++ [wait])[i]? = done[i]? := fun i hi =>
    List.getElem?_append_left hi
  have hnone : ∀ i, ¬ i < done.length → done[i]? = none := fun i hi =>
    List.getElem?_eq_none (not_lt.mp hi)
  have hlast : (done ++ [wait])[done.length]? = some wait := by
    rw [List.getElem?_append_right (Nat.le_refl _), Nat.sub_self]
    rfl
  rw [joinWait_eq]
  dsimp only
  cases hd : decoded taskIds wait with
  | none =>
    refine ⟨?_, fun i => ?_, fun i => ?_, ?_⟩
    · simp only [h.patches, List.map_append, List.map_cons, List.map_nil]
    · dsimp only
      rw [hlength, FMap.insert_apply]
      by_cases hi : i = done.length
      · rw [if_pos hi, hi, hlast, Option.bind_some, hd]
        rfl
      · rw [if_neg hi, h.errors]
        by_cases hlt : i < done.length
        · rw [hbefore i hlt]
        · rw [hnone i hlt, hbeyond i hlt hi]
    · dsimp only
      rw [h.members]
      by_cases hi : i = done.length
      · rw [hi, hlast, hnone _ (lt_irrefl _), Option.bind_some, hd]
        rfl
      · by_cases hlt : i < done.length
        · rw [hbefore i hlt]
        · rw [hnone i hlt, hbeyond i hlt hi]
    · simp only [List.flatMap_append, List.flatMap_singleton, hd, Option.getD_none, List.append_nil, h.ids]
  | some ids =>
    refine ⟨?_, fun i => ?_, fun i => ?_, ?_⟩
    · simp only [h.patches, List.map_append, List.map_cons, List.map_nil]
    · dsimp only
      rw [h.errors]
      by_cases hi : i = done.length
      · rw [hi, hlast, hnone _ (lt_irrefl _), Option.bind_some, hd]
        rfl
      · by_cases hlt : i < done.length
        · rw [hbefore i hlt]
        · rw [hnone i hlt, hbeyond i hlt hi]
    · dsimp only
      rw [List.filter_append, List.map_append, h.members, hlength]
      by_cases hi : i = done.length
      · have hall : ((ids.map fun id => (done.length, id)).filter (·.1 = i)).map (·.2) = ids := by
          rw [List.filter_eq_self.mpr, List.map_map]
          · exact List.map_id' ids
          · rintro member hm
            obtain ⟨id, -, rfl⟩ := List.mem_map.mp hm
            exact decide_eq_true hi.symm
        rw [hall, hi, hlast, hnone _ (lt_irrefl _), Option.bind_some, hd]
        rfl
      · have hnil : (ids.map fun id => (done.length, id)).filter (·.1 = i) = [] := by
          refine List.filter_eq_nil_iff.mpr ?_
          rintro member hm
          obtain ⟨id, -, rfl⟩ := List.mem_map.mp hm
          exact fun heq => hi (of_decide_eq_true heq).symm
        rw [hnil, List.map_nil, List.append_nil]
        by_cases hlt : i < done.length
        · rw [hbefore i hlt]
        · rw [hnone i hlt, hbeyond i hlt hi]
    · simp only [List.flatMap_append, List.flatMap_singleton, hd, Option.getD_some, List.map_append,
        List.map_map, h.ids]
      exact congrArg _ (List.map_id' ids)

theorem joins_foldl : ∀ (waits done : List Wait) (joining : Joining), Joins taskIds done joining →
    Joins taskIds (done ++ waits) (waits.foldl (joinWait taskIds) joining)
  | [], done, _, h => by rwa [List.append_nil]
  | wait :: waits, done, joining, h => by
    have hrest := joins_foldl waits (done ++ [wait]) _ (h.step taskIds wait)
    rwa [List.append_assoc, List.singleton_append] at hrest

theorem Collecting.failed_iff {state : Collecting} {i : ℕ} {error : String} :
    state.progress i = some (.error error) ↔ state.errors i = some error := by
  rw [progress]
  cases state.errors i with
  | none => cases (state.patches[i]?).bind (·.resumeInput) <;> simp
  | some other => simp

theorem Collecting.gathered_iff {state : Collecting} {i : ℕ} {buffer : String} :
    state.progress i = some (.ok buffer) ↔
      state.errors i = none ∧ (state.patches[i]?).bind (·.resumeInput) = some buffer := by
  rw [progress]
  cases state.errors i with
  | none => cases (state.patches[i]?).bind (·.resumeInput) <;> simp
  | some other => simp

/-- The ids of all members of all claimed parents. -/
def memberIds (waits : List Wait) : List TaskId := waits.flatMap fun wait => (decoded taskIds wait).getD []

/-- Every claimed parent's input is its own members' results joined, whatever the pieces. -/
theorem materialize_input [Serde] {table : List ChildResult} (htable : (table.map (·.id)).Nodup)
    {waits : List Wait} (hids : (memberIds taskIds waits).Nodup) (batch : ℕ) {i : ℕ} {wait : Wait}
    (hwait : waits[i]? = some wait) :
    (materialize taskIds table waits batch)[i]? = some ⟨wait.1.uuid, some (match decoded taskIds wait with
      | none => failure wait.1 "All membership or counter is invalid"
      | some ids => joined wait.1 (ids.map (memberResult table))), none, 0⟩ := by
  obtain ⟨hpatches, herrors, hmembers, hlist⟩ := joins_foldl taskIds waits [] ⟨⟨[], FMap.empty⟩, []⟩
    ⟨rfl, fun _ => rfl, fun _ => rfl, rfl⟩
  rw [List.nil_append] at hpatches herrors hmembers hlist
  rw [materialize]
  generalize waits.foldl (joinWait taskIds) ⟨⟨[], FMap.empty⟩, []⟩ = joining at *
  have hnodup : (joining.members.map (·.2.uuid)).Nodup := by
    have huuid : joining.members.map (·.2.uuid) = (joining.members.map (·.2)).map (·.uuid) :=
      (List.map_map ..).symm
    rw [huuid, hlist]
    refine hids.map_on fun id _ other _ heq => ?_
    cases id
    cases other
    exact congrArg TaskId.mk heq
  have hpieces := chunks_flatten (lt_max_of_lt_left Nat.one_pos : 0 < max 1 (min batch queryChunkSize))
    joining.members
  obtain ⟨hprogress, hframe⟩ := pieces_progress htable
    (chunks (max 1 (min batch queryChunkSize)) joining.members) joining.collecting
    (by rwa [hpieces]) i
  rw [hpieces, ← collect] at hprogress
  rw [← collect] at hframe
  generalize collect table joining.members joining.collecting batch = collected at *
  have hstart : joining.collecting.patches[i]? = some ⟨wait.1.uuid, some opening, none, 0⟩ := by
    rw [hpatches, List.getElem?_map, hwait]
    rfl
  obtain ⟨patch, hpatch, hfields⟩ : ∃ patch, collected.patches[i]? = some patch ∧
      setInput "" patch = ⟨wait.1.uuid, some "", none, 0⟩ := by
    have hat := congrArg (·[i]?) hframe
    simp only [List.getElem?_map, hstart, Option.map_some] at hat
    exact Option.map_eq_some_iff.mp hat
  obtain ⟨id, input, children, remaining⟩ := patch
  obtain ⟨rfl, -, rfl, rfl⟩ := JoinInput.mk.inj hfields
  have hown : membersOf table joining.members i =
      ((decoded taskIds wait).getD []).map (memberResult table) := by
    rw [membersOf, ← Option.bind_some (a := wait) (f := decoded taskIds), ← hwait, ← hmembers, List.map_map]
    rfl
  rw [hown] at hprogress
  have herror := herrors i
  rw [hwait, Option.bind_some] at herror
  rw [List.getElem?_mapIdx, hpatch, Option.map_some]
  cases hd : decoded taskIds wait with
  | none =>
    rw [hd] at herror
    rw [Collecting.failed_iff.mpr herror] at hprogress
    have hfailed := Collecting.failed_iff.mp hprogress
    rw [close, hfailed]
    rfl
  | some ids =>
    rw [hd] at herror hprogress
    have hopen : joining.collecting.progress i = some (.ok opening) :=
      Collecting.gathered_iff.mpr ⟨herror, by rw [hstart]; rfl⟩
    rw [hopen, Option.map_some, Option.getD_some] at hprogress
    change collected.progress i = some (gather opening (ids.map (memberResult table))) at hprogress
    dsimp only
    rw [joined, close]
    cases hg : gather opening (ids.map (memberResult table)) with
    | error error =>
      rw [hg] at hprogress
      rw [Collecting.failed_iff.mp hprogress]
      rfl
    | ok buffer =>
      rw [hg] at hprogress
      obtain ⟨hnone, hbuffer⟩ := Collecting.gathered_iff.mp hprogress
      rw [hpatch] at hbuffer
      obtain rfl : input = some buffer := hbuffer
      rw [hnone]
      rfl

end

end Vyuh.Tasks.Database
