import Vyuh.Json.Canonical
import Vyuh.Json.Reading

/-! Canonical inputs and idempotency fingerprints (`submission.rs`, `registry.rs`). `to_value` of a
    serializable type, the JSON parser and the hash are outside the repository; the hash takes the bytes
    it was fed. -/

namespace Vyuh.Tasks
open Lib Json

variable {ν τ : Type} [NumberText ν]

/-- Serializes an already type-erased JSON input with stable object-key ordering. -/
def canonicalJsonValue (value : Value ν) : Except TaskRuntimeError String :=
  .ok (String.ofList (canonicalValue value).text)

def canonicalJson (toValue : τ → Except TaskRuntimeError (Value ν)) (input : τ) :
    Except TaskRuntimeError String := do
  let value ← toValue input
  canonicalJsonValue value

/-- What a fingerprint uses of a task's idempotency. -/
structure IdempotencyPolicy where
  revision : String
  deriving DecidableEq, Repr

/-- Validates the stable identifier used to distinguish idempotency-key semantics. -/
def validateKeyRevision (policy : Option IdempotencyPolicy) : Except TaskRuntimeError Unit :=
  match policy with
  | none => .ok ()
  | some policy =>
    let revision := policy.revision
    if revision.utf8ByteSize = 0 ∨ 64 < revision.utf8ByteSize then
      .error (.invalidConfig "task idempotency revisions must contain between 1 and 64 bytes")
    else if !revision.toList.all fun c => c.isLower || c.isDigit || c = '-' || c = '_' then
      .error (.invalidConfig "task idempotency revisions use lowercase letters, digits, '-' or '_'")
    else .ok ()

/-- The bytes a fingerprint is taken of: every part and a zero byte after it. -/
def preimage (parts : List String) : ByteArray :=
  parts.foldl (fun bytes part => bytes ++ part.toByteArray ++ ⟨#[0]⟩) ByteArray.empty

/-- Fingerprints canonical input and immutable idempotency-key semantics. -/
def fingerprint (hash : ByteArray → String) (name input : String) (policy : Option IdempotencyPolicy) :
    Except TaskRuntimeError String :=
  match policy with
  | none => .error (.taskExecutionError "idempotent task is missing policy")
  | some policy => .ok (hash (preimage [name, policy.revision, input]))

/-! ### Preimages -/

/-- A text and a zero character after it. -/
def zeroed (text : List Char) : List Char := text ++ [Char.ofNat 0]

theorem zero_bytes : (⟨#[0]⟩ : ByteArray) = (String.ofList [Char.ofNat 0]).toByteArray := by
  decide +kernel

/-- The preimage is the text of its parts, each with a zero character after it. -/
theorem preimage_eq (name revision input : String) : preimage [name, revision, input] =
    (String.ofList (zeroed name.toList ++ (zeroed revision.toList ++ zeroed input.toList))).toByteArray := by
  simp only [preimage, List.foldl_cons, List.foldl_nil, zero_bytes, zeroed, String.ofList_append,
    String.ofList_toList, String.toByteArray_append, ByteArray.append_assoc, ByteArray.empty_append]

/-- Read from its end, a text without the zero character ends where the one before it does. -/
theorem zeroed_inj {front front' text text' : List Char} (h : ∀ c ∈ text, c ≠ Char.ofNat 0)
    (h' : ∀ c ∈ text', c ≠ Char.ofNat 0)
    (heq : zeroed front ++ zeroed text = zeroed front' ++ zeroed text') :
    front = front' ∧ text = text' := by
  have hclass : ∀ {text : List Char}, (∀ c ∈ text, c ≠ Char.ofNat 0) →
      ∀ c ∈ text.reverse, (c != Char.ofNat 0) = true :=
    fun h c hc => bne_iff_ne.mpr (h c (List.mem_reverse.mp hc))
  have hstop : ∀ front : List Char, Outside (· != Char.ofNat 0) (Char.ofNat 0 :: front) := by
    intro front c hc
    obtain rfl := Option.some.inj hc
    rfl
  have hrev : text.reverse ++ Char.ofNat 0 :: front.reverse =
      text'.reverse ++ Char.ofNat 0 :: front'.reverse := by
    simpa [zeroed] using congrArg List.reverse heq
  have htext : text.reverse = text'.reverse := by
    rw [← takeWhile_of_class (hclass h) (hstop front.reverse), hrev,
      takeWhile_of_class (hclass h') (hstop front'.reverse)]
  rw [htext] at hrev
  exact ⟨List.reverse_inj.mp (List.cons.inj (List.append_cancel_left hrev)).2,
    List.reverse_inj.mp htext⟩

/-- A valid revision has no zero character. -/
theorem revision_chars {policy : IdempotencyPolicy} (h : validateKeyRevision (some policy) = .ok ()) :
    ∀ c ∈ policy.revision.toList, c ≠ Char.ofNat 0 := by
  unfold validateKeyRevision at h
  simp only at h
  split at h
  · exact (nomatch h)
  split at h
  · exact (nomatch h)
  · next hall =>
    rintro c hc rfl
    simp only [Bool.not_eq_true, Bool.not_eq_false'] at hall
    exact absurd (List.all_eq_true.mp hall _ hc) (by decide)

/-- Three parts are read back from the end: only the first may hold zero characters. -/
theorem preimage_inj {name revision input name' revision' input' : String}
    (hrevision : ∀ c ∈ revision.toList, c ≠ Char.ofNat 0)
    (hrevision' : ∀ c ∈ revision'.toList, c ≠ Char.ofNat 0)
    (hinput : ∀ c ∈ input.toList, c ≠ Char.ofNat 0) (hinput' : ∀ c ∈ input'.toList, c ≠ Char.ofNat 0)
    (heq : preimage [name, revision, input] = preimage [name', revision', input']) :
    name = name' ∧ revision = revision' ∧ input = input' := by
  have hjoin : ∀ first second : List Char,
      zeroed first ++ zeroed second = zeroed (zeroed first ++ second) :=
    fun first second => (List.append_assoc _ _ _).symm
  rw [preimage_eq, preimage_eq, String.toByteArray_inj, String.ofList_inj, ← List.append_assoc,
    ← List.append_assoc, hjoin name.toList, hjoin name'.toList] at heq
  obtain ⟨hfront, htext⟩ := zeroed_inj hinput hinput' heq
  have hfront' : zeroed name.toList ++ zeroed revision.toList =
      zeroed name'.toList ++ zeroed revision'.toList := by
    rw [hjoin, hjoin, hfront]
  obtain ⟨hname, hrev⟩ := zeroed_inj hrevision hrevision' hfront'
  exact ⟨String.toList_inj.mp hname, String.toList_inj.mp hrev, String.toList_inj.mp htext⟩

/-! ### Requests -/

/-- A submission with an idempotency key: its handler, its validated policy and its input. -/
structure Request (ν : Type) where
  name : String
  policy : IdempotencyPolicy
  valid : validateKeyRevision (some policy) = .ok ()
  input : Value ν
  distinct : input.Distinct

namespace Request

/-- The handler and the revision are equal, and the inputs up to the order of object keys. -/
def Agrees (first second : Request ν) : Prop :=
  first.name = second.name ∧ first.policy.revision = second.policy.revision ∧ Same first.input second.input

/-- The bytes the fingerprint of a request is taken of. -/
def bytes (request : Request ν) : ByteArray :=
  preimage [request.name, request.policy.revision, String.ofList (canonicalValue request.input).text]

/-- The fingerprint of a request, as a submission takes it. -/
def fingerprint (hash : ByteArray → String) (request : Request ν) : Except TaskRuntimeError String := do
  let serialized ← canonicalJsonValue request.input
  Tasks.fingerprint hash request.name serialized (some request.policy)

theorem fingerprint_eq (hash : ByteArray → String) (request : Request ν) :
    request.fingerprint hash = .ok (hash request.bytes) := rfl

end Request

theorem canonicalJsonValue_eq_iff {value value' : Value ν} (hd : value.Distinct) (hd' : value'.Distinct) :
    canonicalJsonValue value = canonicalJsonValue value' ↔ Same value value' := by
  rw [← canonical_eq_iff hd hd', canonicalJsonValue, canonicalJsonValue]
  refine ⟨fun heq => ?_, fun heq => by rw [heq]⟩
  exact Value.text_injective (String.ofList_inj.mp (Except.ok.inj heq))

/-- The preimages of two requests are equal when the requests agree. -/
theorem Request.bytes_eq_iff (first second : Request ν) : first.bytes = second.bytes ↔ first.Agrees second := by
  unfold Request.bytes Request.Agrees
  rw [← canonical_eq_iff first.distinct second.distinct]
  constructor
  · intro heq
    have hchars : ∀ value : Value ν, ∀ c ∈ (String.ofList value.text).toList, c ≠ Char.ofNat 0 := by
      intro value
      rw [String.toList_ofList]
      exact value.text_chars
    obtain ⟨hname, hrevision, hinput⟩ := preimage_inj (revision_chars first.valid)
      (revision_chars second.valid) (hchars _) (hchars _) heq
    exact ⟨hname, hrevision, Value.text_injective (String.ofList_inj.mp hinput)⟩
  · rintro ⟨hname, hrevision, hinput⟩
    rw [hname, hrevision, hinput]

/-- What is parsed has the canonical JSON that it was parsed from exactly when it is the value, up to the order
    of object keys. -/
theorem canonical_parsed_iff {parse : String → Option (Value ν)}
    (hdistinct : ∀ text value, parse text = some value → value.Distinct) {value : Value ν} (hd : value.Distinct) :
    (∃ text parsed, canonicalJsonValue value = .ok text ∧ parse text = some parsed ∧
        canonicalJsonValue parsed = .ok text) ↔
      ∃ parsed, parse (String.ofList (canonicalValue value).text) = some parsed ∧ Same value parsed := by
  constructor
  · rintro ⟨text, parsed, htext, hparsed, hagain⟩
    obtain rfl := Except.ok.inj htext
    refine ⟨parsed, hparsed, (canonicalJsonValue_eq_iff hd (hdistinct _ _ hparsed)).mp ?_⟩
    rw [hagain, canonicalJsonValue]
  · rintro ⟨parsed, hparsed, hsame⟩
    refine ⟨_, parsed, rfl, hparsed, ?_⟩
    rw [← (canonicalJsonValue_eq_iff hd (hdistinct _ _ hparsed)).mpr hsame, canonicalJsonValue]

/-- Canonical JSON is equal exactly for inputs that are equal up to the order of object keys; a canonical value is
    its own canonical form, and is found again through parsing exactly when the parser reads its text back as the
    value; and fingerprints are equal for equal requests and taken of different bytes for different ones. -/
theorem canonical_json_exact (parse : String → Option (Value ν))
    (hdistinct : ∀ text value, parse text = some value → value.Distinct) :
    (∀ (toValue : τ → Except TaskRuntimeError (Value ν)) (a b : τ) (value value' : Value ν),
      value.Distinct → value'.Distinct → toValue a = .ok value → toValue b = .ok value' →
        (canonicalJson toValue a = canonicalJson toValue b ↔ Same value value')) ∧
    (∀ value : Value ν, value.Distinct →
      canonicalJsonValue (canonicalValue value) = canonicalJsonValue value ∧
      ((∃ text parsed, canonicalJsonValue value = .ok text ∧ parse text = some parsed ∧
          canonicalJsonValue parsed = .ok text) ↔
        ∃ parsed, parse (String.ofList (canonicalValue value).text) = some parsed ∧ Same value parsed)) ∧
    (∀ (hash : ByteArray → String) (first second : Request ν), first.Agrees second →
      first.fingerprint hash = second.fingerprint hash) ∧
    (∀ first second : Request ν, ¬first.Agrees second → first.bytes ≠ second.bytes) := by
  refine ⟨fun toValue a b value value' hd hd' ha hb => ?_,
    fun value hd => ⟨?_, canonical_parsed_iff hdistinct hd⟩,
    fun hash first second hagrees => ?_, fun first second hnot heq => ?_⟩
  · rw [canonicalJson, canonicalJson, ha, hb]
    exact canonicalJsonValue_eq_iff hd hd'
  · rw [canonicalJsonValue, canonicalJsonValue, canonical_idem hd]
  · rw [Request.fingerprint_eq, Request.fingerprint_eq, (Request.bytes_eq_iff first second).mpr hagrees]
  · exact hnot ((Request.bytes_eq_iff first second).mp heq)

/-! ### A parser with a limit -/

/-- No more than so many brackets are open at once. -/
inductive Nests : ℕ → Value ν → Prop
  | null {n : ℕ} : Nests n .null
  | bool {n : ℕ} (b : Bool) : Nests n (.bool b)
  | number {n : ℕ} (x : ν) : Nests n (.number x)
  | string {n : ℕ} (s : String) : Nests n (.string s)
  | array {n : ℕ} {items : List (Value ν)} (inner : ∀ item ∈ items, Nests n item) : Nests (n + 1) (.array items)
  | object {n : ℕ} {fields : List (String × Value ν)} (inner : ∀ entry ∈ fields, Nests n entry.2) :
      Nests (n + 1) (.object fields)

open Classical in
/-- `serde_json::from_str` on compact texts: it gives up at the 128th bracket that is open. -/
noncomputable def fromStr (text : String) : Option (Value ν) :=
  (Value.read text).bind fun value => if value.Distinct ∧ Nests 127 value then some value else none

theorem fromStr_eq_some_iff {text : String} {value : Value ν} :
    fromStr text = some value ↔ value.text = text.toList ∧ value.Distinct ∧ Nests 127 value := by
  rw [fromStr, Option.bind_eq_some_iff, ← Value.read_eq_some]
  constructor
  · rintro ⟨read, hread, h⟩
    split at h
    next hvalid =>
      obtain rfl := Option.some.inj h
      exact ⟨hread, hvalid⟩
    next => exact nomatch h
  · exact fun ⟨hread, hvalid⟩ => ⟨value, hread, if_pos hvalid⟩

theorem fromStr_distinct (text : String) (value : Value ν) (h : fromStr text = some value) : value.Distinct :=
  (fromStr_eq_some_iff.mp h).2.1

theorem fromStr_text {value : Value ν} (hd : value.Distinct) (hnests : Nests 127 value) :
    fromStr (String.ofList value.text) = some value :=
  fromStr_eq_some_iff.mpr ⟨String.toList_ofList.symm, hd, hnests⟩

/-- Natural numbers in decimal. -/
abbrev decimal : NumberText ℕ where
  numberText := Nat.toDigits 10
  injective := readable_digits.injective fun c hc => (nomatch hc)
  nonempty := fun n => Nat.toDigits_ne_nil
  chars := fun n c hc => by
    have hdigit : c.isDigit = true := Nat.isDigit_of_mem_toDigits (by decide) (by decide) hc
    simp [isNumberChar, hdigit]

section

attribute [local instance] decimal

/-- With natural numbers for numbers: the order of members does not count, and the canonical text is found again
    through the parser. -/
theorem canonical_json_exact_decimal :
    canonicalJson .ok (Value.object [("b", .number 1), ("a", .null)]) =
      canonicalJson .ok (Value.object [("a", .null), ("b", .number 1)]) ∧
    ∃ (text : String) (parsed : Value ℕ), canonicalJsonValue (.object [("b", .number 1), ("a", .null)]) = .ok text ∧
      fromStr text = some parsed ∧ canonicalJsonValue parsed = .ok text := by
  have hd : (Value.object [("b", .number 1), ("a", .null)] : Value ℕ).Distinct := by
    refine .object (by decide) fun entry hmem => ?_
    rcases List.mem_pair.mp hmem with rfl | rfl
    · exact .number 1
    · exact .null
  have hperm : [("b", .number 1), ("a", .null)].Perm [("a", .null), ("b", (.number 1 : Value ℕ))] :=
    List.Perm.swap _ _ _
  have hd' : (Value.object [("a", .null), ("b", .number 1)] : Value ℕ).Distinct := by
    cases hd with
    | object names inner =>
      exact .object ((hperm.map _).nodup_iff.mp names) fun entry hmem => inner entry (hperm.mem_iff.mpr hmem)
  obtain ⟨hequal, hidem, -⟩ := @canonical_json_exact ℕ (Value ℕ) _ fromStr fromStr_distinct
  refine ⟨(hequal .ok _ _ _ _ hd hd' rfl rfl).mpr (.of_perm hperm (by decide)), (hidem _ hd).2.mpr ?_⟩
  have hcanonical : canonicalValue (.object [("b", .number 1), ("a", .null)] : Value ℕ) =
      .object [("a", .null), ("b", .number 1)] := by
    have hle : ¬"b" ≤ "a" := by decide
    rw [canonicalValue, canonicalFields, canonicalFields, canonicalFields, sortKeys, List.insertionSort_cons,
      List.insertionSort_cons, List.insertionSort_nil, List.orderedInsert_nil, List.orderedInsert_cons, if_neg hle]
    rfl
  rw [hcanonical]
  refine ⟨_, fromStr_text hd' (.object fun entry hmem => ?_), .of_perm hperm (by decide)⟩
  rcases List.mem_pair.mp hmem with rfl | rfl
  · exact .null
  · exact .number 1

/-- So many arrays in one another, and one more. -/
def deepArray : ℕ → Value ℕ
  | 0 => .array []
  | n + 1 => .array [deepArray n]

theorem deepArray_distinct : ∀ n, (deepArray n).Distinct
  | 0 => .array nofun
  | n + 1 => .array (List.forall_mem_singleton.mpr (deepArray_distinct n))

theorem not_nests_deepArray : ∀ n, ¬Nests n (deepArray n)
  | 0, h => nomatch h
  | n + 1, .array inner => not_nests_deepArray n (inner _ (List.mem_singleton_self _))

/-- The canonical JSON of 128 arrays in one another is refused by a parser that reads back all others. -/
theorem deep_array_is_not_read :
    (∀ value : Value ℕ, value.Distinct → Nests 127 value → fromStr (String.ofList value.text) = some value) ∧
    (deepArray 127).Distinct ∧ ¬∃ (text : String) (parsed : Value ℕ),
      canonicalJsonValue (deepArray 127) = .ok text ∧ fromStr text = some parsed ∧
        canonicalJsonValue parsed = .ok text := by
  refine ⟨fun _ => fromStr_text, deepArray_distinct 127, fun h => ?_⟩
  obtain ⟨parsed, hparsed, -⟩ :=
    (canonical_parsed_iff fromStr_distinct (deepArray_distinct 127)).mp h
  obtain ⟨htext, -, hnests⟩ := fromStr_eq_some_iff.mp hparsed
  have hcanonical : ∀ n, canonicalValue (deepArray n) = deepArray n := by
    intro n
    induction n with
    | zero => rfl
    | succ n ih => rw [deepArray, canonicalValue, canonicalItems, ih, canonicalItems]
  rw [String.toList_ofList, hcanonical] at htext
  exact not_nests_deepArray 127 (Value.text_injective htext ▸ hnests)

end

end Vyuh.Tasks
