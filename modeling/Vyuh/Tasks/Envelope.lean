import Vyuh.Lib.Coding
import Vyuh.Tasks.Store.Transitions

/-! Every producer of an envelope stays within the limit. Outputs are checked before they are wrapped,
    diagnostics are shortened until they fit, and a group's buffer is checked before each member is
    appended; what the two parsers accept is taken from their documentation. -/

namespace Vyuh.Tasks
open Lib

/-- What `serde_json` documents of the two parses: `Result` is an externally tagged enum, a `RawValue` any
    one JSON value, `TaskFailure` a map of its two fields, and arrays are made of values. -/
structure Serde.Documented [Serde] : Prop where
  null : Serde.rawValueError "null" = none
  empty : Serde.rawValueError "" ≠ none
  tagged : ∀ value, Serde.rawValueError value = none →
    Serde.envelopeError ("\x7b\"Ok\":" ++ value ++ "\x7d") = none
  failed : ∀ id message, Serde.envelopeError (failureText id message) = none
  value : ∀ text, Serde.envelopeError text = none → Serde.rawValueError text = none
  array : ∀ values : List String, (∀ value ∈ values, Serde.rawValueError value = none) →
    Serde.rawValueError ("[" ++ ",".intercalate values ++ "]") = none

theorem checkSize_ok {actual : ℕ} {u : Unit} : checkSize actual = .ok u ↔ actual ≤ resultLimit := by
  rw [checkSize]
  split
  · next h => simp [h]
  · next h => simpa using h

theorem jsonCheck_ok {error : Option String} {u : Unit} : jsonCheck error = .ok u ↔ error = none := by
  cases error with
  | none => exact ⟨fun _ => rfl, fun _ => rfl⟩
  | some text => exact ⟨fun h => (nomatch h), fun h => (nomatch h)⟩

/-- An accepted envelope is short enough and parses. -/
theorem validateResume_ok [Serde] {value : String} {u : Unit} :
    validateResume value = .ok u ↔ value.utf8ByteSize ≤ resultLimit ∧ Serde.envelopeError value = none := by
  rw [validateResume]
  constructor
  · intro h
    obtain ⟨_, hsize, h⟩ := Step.except_bind_ok.mp h
    exact ⟨checkSize_ok.mp hsize, jsonCheck_ok.mp h⟩
  · rintro ⟨hsize, hparse⟩
    rw [(checkSize_ok (u := ())).mpr hsize]
    exact jsonCheck_ok.mpr hparse

/-! ### Diagnostics -/

theorem size_ofList (text : List Char) : (String.ofList text).utf8ByteSize = byteSize text :=
  utf8ByteSize_ofList text

/-- No character has more than four bytes. -/
theorem byteSize_le (text : List Char) : byteSize text ≤ 4 * text.length := by
  induction text with
  | nil => exact Nat.le_refl 0
  | cons c text ih =>
    have hc := Char.utf8Size_le_four c
    rw [byteSize, List.map_cons, List.sum_cons, ← byteSize, List.length_cons]
    omega

theorem byteSize_pos {text : List Char} (h : text ≠ []) : 0 < byteSize text := by
  cases text with
  | nil => exact absurd rfl h
  | cons c text =>
    have hc := c.utf8Size_pos
    rw [byteSize, List.map_cons, List.sum_cons]
    omega

theorem takeBytes_le : ∀ (limit : ℕ) (text : List Char), byteSize (takeBytes limit text) ≤ limit
  | limit, [] => by
    rw [takeBytes]
    exact Nat.zero_le limit
  | limit, c :: text => by
    rw [takeBytes]
    split
    · next hfits =>
      have htail := takeBytes_le (limit - c.utf8Size) text
      rw [byteSize, List.map_cons, List.sum_cons, ← byteSize]
      omega
    · exact Nat.zero_le limit

/-- The size of a text between three fixed pieces. -/
theorem size_framed {front middle back : String} {m n k : ℕ} (hf : front.utf8ByteSize = m)
    (hm : middle.utf8ByteSize = n) (hb : back.utf8ByteSize = k) (first second : String) :
    (front ++ first ++ middle ++ second ++ back).utf8ByteSize =
      first.utf8ByteSize + second.utf8ByteSize + (m + n + k) := by
  simp only [String.utf8ByteSize_append, hf, hm, hb]
  omega

theorem failureText_size (id : TaskId) (message : List Char) :
    (failureText id message).utf8ByteSize = id.render.utf8ByteSize + byteSize (jsonString message) + 33 := by
  have hopen : "\x7b\"Err\":\x7b\"task_id\":\"".utf8ByteSize = 19 := by decide
  have hmiddle : "\",\"message\":".utf8ByteSize = 12 := by decide
  have hclose : "\x7d\x7d".utf8ByteSize = 2 := by decide
  rw [← size_ofList]
  exact size_framed hopen hmiddle hclose id.render (String.ofList (jsonString message))

/-- Without a message the envelope is far below the limit: an identifier has 36 characters. -/
theorem failureText_nil (id : TaskId) : (failureText id []).utf8ByteSize ≤ resultLimit := by
  have hid : id.render.utf8ByteSize ≤ 4 * 36 := by
    rw [TaskId.render, Uuid.render, size_ofList]
    refine Nat.le_trans (byteSize_le _) ?_
    simp [hexDigits]
  have hmessage : byteSize (jsonString []) = 2 := rfl
  have hlimit : resultLimit = 32768 := rfl
  rw [failureText_size, hmessage]
  omega

/-- The shortening loop ends with an envelope that fits: each round drops at least a byte. -/
theorem failureLoop_fits (id : TaskId) : ∀ (fuel : ℕ) (message : List Char), byteSize message < fuel →
    ∃ kept, failureLoop id fuel message = failureText id kept ∧
      (failureText id kept).utf8ByteSize ≤ resultLimit
  | 0, message, h => absurd h (Nat.not_lt_zero _)
  | fuel + 1, message, h => by
    rw [failureLoop]
    split
    · next hfits => exact ⟨message, rfl, hfits⟩
    · next hlong =>
      have hmessage : message ≠ [] := by
        rintro rfl
        exact hlong (failureText_nil id)
      have hpos := byteSize_pos hmessage
      have htake := takeBytes_le
        (byteSize message - ((failureText id message).utf8ByteSize - resultLimit + 5) / 6) message
      exact failureLoop_fits id fuel _ (by omega)

theorem failure_fits (id : TaskId) (message : String) :
    ∃ kept, failure id message = failureText id kept ∧
      (failureText id kept).utf8ByteSize ≤ resultLimit :=
  failureLoop_fits id _ _ (Nat.lt_succ_self _)

/-! ### Envelopes -/

theorem success_size (output : String) : (success output).utf8ByteSize = output.utf8ByteSize + 7 := by
  have hopen : "\x7b\"Ok\":".utf8ByteSize = 6 := by decide
  have hclose : "\x7d".utf8ByteSize = 1 := by decide
  rw [success, String.utf8ByteSize_append, String.utf8ByteSize_append, hopen, hclose]
  omega

section

variable [Serde] (hs : Serde.Documented)

include hs

theorem validateResume_failure (id : TaskId) (message : String) :
    validateResume (failure id message) = .ok () := by
  obtain ⟨kept, heq, hsize⟩ := failure_fits id message
  rw [heq]
  exact validateResume_ok.mpr ⟨hsize, hs.failed id kept⟩

theorem validateResume_success {output : String} (h : validateOutput output = .ok ()) :
    validateResume (success output) = .ok () := by
  obtain ⟨_, hsize, hparse⟩ := Step.except_bind_ok.mp h
  have hle := checkSize_ok.mp hsize
  rw [saturatingAddUsize] at hle
  refine validateResume_ok.mpr ⟨?_, hs.tagged output (jsonCheck_ok.mp hparse)⟩
  rw [success_size]
  simp only [resultLimit, usizeMax] at hle ⊢
  omega

theorem validateResume_unit : validateResume unitResult = .ok () :=
  validateResume_ok.mpr ⟨by decide, hs.tagged "null" hs.null⟩

/-! ### Groups -/

omit hs in
/-- A group's buffer after some members: the opening, and their documents with commas between. -/
structure Gathers (buffer : String) (values : List String) : Prop where
  text : buffer = "\x7b\"Ok\":[" ++ ",".intercalate values
  documents : ∀ value ∈ values, Serde.rawValueError value = none
  fits : buffer.utf8ByteSize + 2 ≤ resultLimit

omit hs in
theorem gathers_nil : Gathers "\x7b\"Ok\":[" [] :=
  ⟨by rw [String.intercalate_nil, String.append_empty], fun _ h => (nomatch h), by decide⟩

omit [Serde] hs in
theorem intercalate_snoc {values : List String} (value : String) (h : values ≠ []) :
    ",".intercalate (values ++ [value]) = ",".intercalate values ++ "," ++ value := by
  rw [String.intercalate_append_of_ne_nil h (List.cons_ne_nil _ _), String.intercalate_singleton]

/-- A document is not empty. -/
theorem document_pos {value : String} (h : Serde.rawValueError value = none) : 0 < value.utf8ByteSize := by
  refine Nat.pos_of_ne_zero fun hzero => ?_
  rw [String.utf8ByteSize_eq_zero_iff.mp hzero] at h
  exact hs.empty h

/-- The buffer is longer than its opening exactly when it has members. -/
theorem Gathers.longer {buffer : String} {values : List String} (h : Gathers buffer values) :
    7 < buffer.utf8ByteSize ↔ values ≠ [] := by
  have hopen : "\x7b\"Ok\":[".utf8ByteSize = 7 := by decide
  rw [h.text, String.utf8ByteSize_append, hopen]
  cases values with
  | nil => simp
  | cons value rest =>
    have hpos := document_pos hs (h.documents value List.mem_cons_self)
    refine ⟨fun _ => List.cons_ne_nil _ _, fun _ => ?_⟩
    cases rest with
    | nil =>
      rw [String.intercalate_singleton]
      omega
    | cons other rest =>
      rw [String.intercalate_cons_cons, String.utf8ByteSize_append, String.utf8ByteSize_append]
      omega

/-- What is written after a buffer's members continues the list. -/
theorem Gathers.extend {buffer : String} {values : List String} (h : Gathers buffer values) (value : String) :
    buffer ++ (if (if 7 < buffer.utf8ByteSize then 1 else 0) ≠ 0 then "," else "") ++ value =
        "\x7b\"Ok\":[" ++ ",".intercalate (values ++ [value]) ∧
      ("\x7b\"Ok\":[" ++ ",".intercalate (values ++ [value])).utf8ByteSize =
        buffer.utf8ByteSize + (if 7 < buffer.utf8ByteSize then 1 else 0) + value.utf8ByteSize := by
  have hcomma : ",".utf8ByteSize = 1 := by decide
  by_cases hempty : values = []
  · have hshort : ¬ 7 < buffer.utf8ByteSize := fun hlong => (h.longer hs).mp hlong hempty
    have htext : buffer = "\x7b\"Ok\":[" := by
      rw [h.text, hempty, String.intercalate_nil, String.append_empty]
    rw [if_neg hshort, if_neg (not_not_intro rfl), String.append_empty, hempty, List.nil_append,
      String.intercalate_singleton, ← htext, String.utf8ByteSize_append, Nat.add_zero]
    exact ⟨rfl, rfl⟩
  · rw [if_pos ((h.longer hs).mpr hempty), if_pos Nat.one_ne_zero, intercalate_snoc value hempty]
    rw [← String.append_assoc, ← String.append_assoc, ← h.text, String.utf8ByteSize_append,
      String.utf8ByteSize_append, hcomma]
    exact ⟨rfl, rfl⟩

/-- A member is appended exactly when it is terminal, its result is an envelope, and the longer list still
    fits; the list is then one longer. -/
theorem appendResult_ok {buffer buffer' : String} {values : List String} {result : Option String}
    {terminal : Bool} (h : Gathers buffer values) :
    appendResult buffer result terminal = .ok buffer' ↔
      ∃ value, result.filter (fun _ => terminal) = some value ∧ validateResume value = .ok () ∧
        Gathers buffer' (values ++ [value]) := by
  rw [appendResult]
  cases hr : result.filter (fun _ => terminal) with
  | none => exact ⟨fun ha => (nomatch ha), fun ⟨_, hnone, _⟩ => nomatch hnone⟩
  | some value =>
    obtain ⟨htext, hsize⟩ := h.extend hs value
    simp only
    cases hv : validateResume value with
    | error error =>
      refine ⟨fun ha => (nomatch ha), fun ⟨other, heq, hvalid, _⟩ => ?_⟩
      rw [← Option.some.inj heq, hv] at hvalid
      exact nomatch hvalid
    | ok u =>
      simp only
      rw [htext, ← hsize]
      constructor
      · intro ha
        split at ha
        · exact nomatch ha
        · next hfits =>
          obtain rfl := Except.ok.inj ha
          refine ⟨value, rfl, hv, rfl, fun other hm => ?_, not_lt.mp hfits⟩
          rcases List.mem_append.mp hm with hm | hm
          · exact h.documents other hm
          · rw [List.mem_singleton.mp hm]
            exact hs.value value (validateResume_ok.mp hv).2
      · rintro ⟨other, heq, -, hnext⟩
        obtain rfl := Option.some.inj heq
        rw [← hnext.text, if_neg (not_lt.mpr hnext.fits)]

/-- A closed buffer is an envelope that fits. -/
theorem Gathers.closed {buffer : String} {values : List String} (h : Gathers buffer values) :
    validateResume (buffer ++ "]\x7d") = .ok () := by
  have hclose : "]\x7d".utf8ByteSize = 2 := by decide
  refine validateResume_ok.mpr ⟨?_, ?_⟩
  · rw [String.utf8ByteSize_append, hclose]
    exact h.fits
  · have htext : buffer ++ "]\x7d" =
        "\x7b\"Ok\":" ++ ("[" ++ ",".intercalate values ++ "]") ++ "\x7d" := by
      have hfront : "\x7b\"Ok\":[" = "\x7b\"Ok\":" ++ "[" := by decide
      have hback : "]\x7d" = "]" ++ "\x7d" := by decide
      rw [h.text, hfront, hback]
      simp only [String.append_assoc]
    rw [htext]
    exact hs.tagged _ (hs.array values h.documents)

end

end Vyuh.Tasks
