import Vyuh.Tasks.Envelope

/-! The result of a group: the envelope `append_result` assembles from the members' stored results, and
    what a parent reads out of it (`FlowAllOut`). The subtractions on lengths, in the growth of the
    scratch buffer and in the shortening of a diagnostic, are written with their checks. -/

namespace Vyuh.Tasks
open Lib

/-- A safe failure (`failure.rs`). -/
structure TaskFailure where
  taskId : Option TaskId
  message : String
  deriving DecidableEq, Repr

/-- The parses of a group's reader: one member (`Result<Box<RawValue>, TaskFailure>`), the list of the
    members (`FlowAllOut`), and the parent's resume input (`Result<FlowAllOut, TaskFailure>`). -/
class AllSerde extends Serde where
  member : String → Option (Except TaskFailure String)
  members : String → Option (List (Except TaskFailure String))
  resume : String → Option (Except TaskFailure (List (Except TaskFailure String)))

/-- What `serde_json` documents of them: an envelope is what parses as a member, a list is read element
    by element, and `Result` is an externally tagged enum. -/
structure AllSerde.Documented [AllSerde] : Prop extends Serde.Documented where
  member : ∀ text, Serde.envelopeError text = none → (AllSerde.member text).isSome = true
  list : ∀ texts items, List.Forall₂ (fun text item => AllSerde.member text = some item) texts items →
    AllSerde.members ("[" ++ ",".intercalate texts ++ "]") = some items
  done : ∀ value items, AllSerde.members value = some items →
    AllSerde.resume ("\x7b\"Ok\":" ++ value ++ "\x7d") = some (.ok items)
  refused : ∀ id message,
    AllSerde.resume (failureText id message) = some (.error ⟨some id, String.ofList message⟩)

/-! ### Joining the members -/

/-- The buffer a group starts with. -/
def opening : String := "\x7b\"Ok\":["

/-- The envelope around the members' results, in order. -/
def assembled (results : List String) : String := opening ++ ",".intercalate results ++ "]\x7d"

/-- Appends the members one after the other; a member is its result, when it is terminal and has one. -/
def gather [Serde] (buffer : String) (members : List (Option String)) : Except String String :=
  members.foldlM (fun buffer member => appendResult buffer member true) buffer

/-- A group's resume input. -/
def joined [Serde] (parent : TaskId) (members : List (Option String)) : String :=
  match gather opening members with
  | .error error => failure parent error
  | .ok buffer => buffer ++ "]\x7d"

/-- Every member is terminal with a valid envelope, and together they fit. -/
structure Settles [Serde] (members : List (Option String)) (results : List String) : Prop where
  settled : members = results.map some
  valid : ∀ result ∈ results, validateResume result = .ok ()
  fits : (assembled results).utf8ByteSize ≤ resultLimit

theorem gather_append [Serde] (buffer : String) (front back : List (Option String)) :
    gather buffer (front ++ back) = gather buffer front >>= (gather · back) := List.foldlM_append ..

theorem appendResult_settled [Serde] (buffer : String) (result : Option String) (terminal : Bool) :
    appendResult buffer result terminal = appendResult buffer (result.filter fun _ => terminal) true := by
  rw [appendResult, appendResult]
  cases result with
  | none => rfl
  | some result => cases terminal <;> rfl

section

variable [Serde] (hs : Serde.Documented)

omit [Serde] in
theorem assembled_size (results : List String) :
    (assembled results).utf8ByteSize = (opening ++ ",".intercalate results).utf8ByteSize + 2 := by
  have hclose : "]\x7d".utf8ByteSize = 2 := by decide
  rw [assembled, String.utf8ByteSize_append, hclose]

omit [Serde] in
theorem intercalate_size_le (front back : List String) :
    (",".intercalate front).utf8ByteSize ≤ (",".intercalate (front ++ back)).utf8ByteSize := by
  by_cases hfront : front = []
  · rw [hfront, String.intercalate_nil, String.utf8ByteSize_empty]
    exact Nat.zero_le _
  by_cases hback : back = []
  · rw [hback, List.append_nil]
  rw [String.intercalate_append_of_ne_nil hfront hback, String.utf8ByteSize_append,
    String.utf8ByteSize_append]
  omega

/-- A buffer that gathered more held a shorter list on the way. -/
theorem Gathers.front {buffer : String} {front back : List String} (h : Gathers buffer (front ++ back)) :
    Gathers (opening ++ ",".intercalate front) front := by
  refine ⟨rfl, fun value hm => h.documents value (List.mem_append_left _ hm), ?_⟩
  have hle := intercalate_size_le front back
  have hfits := h.fits
  rw [h.text, String.utf8ByteSize_append] at hfits
  rw [opening, String.utf8ByteSize_append]
  omega

include hs

/-- Gathering succeeds exactly when every member is a valid result and the list of them fits. -/
theorem gather_ok {members : List (Option String)} : ∀ {buffer buffer' : String} {values : List String},
    Gathers buffer values →
      (gather buffer members = .ok buffer' ↔ ∃ results, members = results.map some ∧
        (∀ result ∈ results, validateResume result = .ok ()) ∧ Gathers buffer' (values ++ results)) := by
  induction members with
  | nil =>
    intro buffer buffer' values h
    constructor
    · intro hok
      obtain rfl := Except.ok.inj hok
      exact ⟨[], rfl, fun _ hm => (nomatch hm), by rwa [List.append_nil]⟩
    · rintro ⟨results, hmembers, -, hgathers⟩
      obtain rfl := List.map_eq_nil_iff.mp hmembers.symm
      rw [List.append_nil] at hgathers
      rw [hgathers.text, ← h.text]
      rfl
  | cons member members ih =>
    intro buffer buffer' values h
    rw [gather, List.foldlM_cons, Step.except_bind_ok]
    constructor
    · rintro ⟨next, happend, hrest⟩
      obtain ⟨value, hmember, hvalid, hnext⟩ := (appendResult_ok hs h).mp happend
      obtain ⟨results, hmembers, hall, hgathers⟩ := (ih hnext).mp hrest
      have hsome := (Option.filter_eq_some_iff.mp hmember).1
      refine ⟨value :: results, by rw [hsome, hmembers, List.map_cons], fun result hm => ?_, ?_⟩
      · rcases List.mem_cons.mp hm with rfl | hm
        · exact hvalid
        · exact hall result hm
      · rwa [List.append_assoc, List.singleton_append] at hgathers
    · rintro ⟨results, hmembers, hall, hgathers⟩
      cases results with
      | nil => exact nomatch hmembers
      | cons value results =>
        obtain ⟨rfl, hrest⟩ := List.cons_eq_cons.mp hmembers
        have happended : values ++ value :: results = (values ++ [value]) ++ results := by
          rw [List.append_assoc, List.singleton_append]
        rw [happended] at hgathers
        have hnext := hgathers.front
        refine ⟨_, (appendResult_ok hs h).mpr ⟨value, rfl, hall value List.mem_cons_self, hnext⟩, ?_⟩
        exact (ih hnext).mpr ⟨results, hrest, fun r hm => hall r (List.mem_cons_of_mem _ hm), hgathers⟩

/-- A group settles exactly when its members are gathered. -/
theorem gather_opening {members : List (Option String)} {buffer : String} :
    gather opening members = .ok buffer ↔
      ∃ results, Settles members results ∧ buffer = opening ++ ",".intercalate results := by
  refine (gather_ok hs gathers_nil).trans ⟨?_, ?_⟩
  · rintro ⟨results, hmembers, hvalid, hgathers⟩
    rw [List.nil_append] at hgathers
    refine ⟨results, ⟨hmembers, hvalid, ?_⟩, hgathers.text⟩
    rw [assembled_size, opening, ← hgathers.text]
    exact hgathers.fits
  · rintro ⟨results, h, rfl⟩
    refine ⟨results, h.settled, h.valid, rfl, fun value hm => ?_, ?_⟩
    · exact hs.value value (validateResume_ok.mp (h.valid value hm)).2
    · rw [← assembled_size]
      exact h.fits

theorem joined_of_settles {parent : TaskId} {members : List (Option String)} {results : List String}
    (h : Settles members results) : joined parent members = assembled results := by
  rw [joined, (gather_opening hs).mpr ⟨results, h, rfl⟩]
  rfl

/-- Where a member is missing, unfinished or malformed, or the list is too long, the input is a failure. -/
theorem joined_of_not {parent : TaskId} {members : List (Option String)}
    (h : ∀ results, ¬ Settles members results) : ∃ message, joined parent members = failure parent message := by
  rw [joined]
  cases hg : gather opening members with
  | error error => exact ⟨error, rfl⟩
  | ok buffer =>
    obtain ⟨results, hsettles, -⟩ := (gather_opening hs).mp hg
    exact absurd hsettles (h results)

end

/-! ### Reading the result -/

section

variable [AllSerde] (hs : AllSerde.Documented)

include hs

/-- The members of a valid list each read as an item. -/
theorem members_read {results : List String} (h : ∀ result ∈ results, validateResume result = .ok ()) :
    ∃ items, List.Forall₂ (fun text item => AllSerde.member text = some item) results items := by
  induction results with
  | nil => exact ⟨[], .nil⟩
  | cons result results ih =>
    obtain ⟨items, hitems⟩ := ih fun other hm => h other (List.mem_cons_of_mem _ hm)
    have hparses := (validateResume_ok.mp (h result List.mem_cons_self)).2
    obtain ⟨item, hitem⟩ := Option.isSome_iff_exists.mp (hs.member result hparses)
    exact ⟨item :: items, .cons hitem hitems⟩

/-- The envelope of a group reads as a success that holds the members' envelopes in their order. -/
theorem resume_assembled {results : List String} {items : List (Except TaskFailure String)}
    (h : List.Forall₂ (fun text item => AllSerde.member text = some item) results items) :
    AllSerde.resume (assembled results) = some (.ok items) := by
  have htext : assembled results =
      "\x7b\"Ok\":" ++ ("[" ++ ",".intercalate results ++ "]") ++ "\x7d" := by
    have hfront : opening = "\x7b\"Ok\":" ++ "[" := by decide
    have hback : "]\x7d" = "]" ++ "\x7d" := by decide
    rw [assembled, hfront, hback]
    simp only [String.append_assoc]
  rw [htext]
  exact hs.done _ items (hs.list results items h)

/-- A diagnostic reads as the parent's failure. -/
theorem resume_failure (id : TaskId) (message : String) :
    ∃ kept, AllSerde.resume (failure id message) = some (.error ⟨some id, kept⟩) := by
  obtain ⟨kept, heq, -⟩ := failure_fits id message
  exact ⟨String.ofList kept, by rw [heq, hs.refused]⟩

end

/-! ### Lengths -/

/-- What `append_result` asks `reserve_exact` for, `none` where the subtraction would underflow. -/
def reserve (buffer : String) (capacity : ℕ) (result : String) : Option ℕ :=
  let separator := if 7 < buffer.utf8ByteSize then 1 else 0
  let needed := buffer.utf8ByteSize + result.utf8ByteSize + separator + 2
  if capacity < needed then
    let grown := min (max needed (saturatingMulUsize capacity 2)) resultLimit
    checkedSubUsize grown buffer.utf8ByteSize
  else some 0

/-- The buffer that was accepted is no longer than what it grows to. -/
theorem reserve_ok [Serde] {buffer buffer' result : String} {terminal : Bool} (capacity : ℕ)
    (h : appendResult buffer (some result) terminal = .ok buffer') :
    (reserve buffer capacity result).isSome = true := by
  rw [reserve]
  rw [appendResult] at h
  cases terminal with
  | false => cases h
  | true =>
    simp only [Option.filter_some, if_true] at h
    generalize (if 7 < buffer.utf8ByteSize then 1 else 0) = separator at h ⊢
    split at h
    · cases h
    · split at h
      · cases h
      · next hfits =>
        dsimp only
        split
        · rw [checkedSubUsize_of_le (le_min (le_max_of_le_left (by omega)) (by omega))]
          rfl
        · rfl

/-- `is_char_boundary`. -/
def isCharBoundary : List Char → ℕ → Bool
  | _, 0 => true
  | [], _ + 1 => false
  | c :: text, index + 1 => c.utf8Size ≤ index + 1 && isCharBoundary text (index + 1 - c.utf8Size)

/-- The search for a boundary at or before an index, `none` where it would step below the start. -/
def floorBoundary (text : List Char) : ℕ → Option ℕ
  | 0 => if isCharBoundary text 0 then some 0 else none
  | index + 1 => if isCharBoundary text (index + 1) then some (index + 1) else floorBoundary text index

/-- The shortening loop of `failure` with its subtractions checked. -/
def failureChecked (id : TaskId) : ℕ → List Char → Option String
  | 0, message => some (failureText id message)
  | fuel + 1, message =>
    let result := failureText id message
    if result.utf8ByteSize ≤ resultLimit then some result
    else do
      let excess ← checkedSubUsize result.utf8ByteSize resultLimit
      let stop ← floorBoundary message (byteSize message - (excess + 5) / 6)
      failureChecked id fuel (takeBytes stop message)

theorem boundary_zero (text : List Char) : isCharBoundary text 0 = true := by
  cases text <;> rfl

/-- Between two boundaries the same characters are kept. -/
theorem takeBytes_succ : ∀ (text : List Char) (index : ℕ), isCharBoundary text (index + 1) = false →
    takeBytes (index + 1) text = takeBytes index text
  | [], _, _ => rfl
  | c :: text, index, h => by
    rw [isCharBoundary] at h
    rw [takeBytes, takeBytes]
    by_cases hc : c.utf8Size ≤ index
    · have hsub : index + 1 - c.utf8Size = index - c.utf8Size + 1 := by omega
      rw [decide_eq_true (by omega), Bool.true_and, hsub] at h
      rw [if_pos (by omega), if_pos hc, hsub, takeBytes_succ text _ h]
    · rw [if_neg hc]
      refine if_neg fun hle => ?_
      have hsub : index + 1 - c.utf8Size = 0 := by omega
      rw [decide_eq_true hle, Bool.true_and, hsub, boundary_zero] at h
      cases h

/-- The search finds a boundary, and cutting there keeps what fits before the index. -/
theorem floorBoundary_ok (text : List Char) : ∀ index, ∃ stop, floorBoundary text index = some stop ∧
    takeBytes stop text = takeBytes index text
  | 0 => ⟨0, by rw [floorBoundary, boundary_zero, if_pos rfl], rfl⟩
  | index + 1 => by
    rw [floorBoundary]
    cases hb : isCharBoundary text (index + 1) with
    | true => exact ⟨index + 1, if_pos rfl, rfl⟩
    | false =>
      obtain ⟨stop, hstop, hkept⟩ := floorBoundary_ok text index
      exact ⟨stop, by rw [if_neg Bool.false_ne_true, hstop], hkept.trans (takeBytes_succ text index hb).symm⟩

/-- No subtraction of the shortening loop underflows. -/
theorem failureChecked_eq (id : TaskId) : ∀ (fuel : ℕ) (message : List Char),
    failureChecked id fuel message = some (failureLoop id fuel message)
  | 0, _ => rfl
  | fuel + 1, message => by
    rw [failureChecked, failureLoop]
    dsimp only
    split
    · rfl
    · next hlong =>
      obtain ⟨stop, hstop, hkept⟩ := floorBoundary_ok message
        (byteSize message - ((failureText id message).utf8ByteSize - resultLimit + 5) / 6)
      rw [checkedSubUsize_of_le (not_le.mp hlong).le, Option.bind_eq_bind, Option.bind_some, hstop,
        Option.bind_some, hkept]
      exact failureChecked_eq id fuel _

end Vyuh.Tasks
