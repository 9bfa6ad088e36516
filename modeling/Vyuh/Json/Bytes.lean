import Mathlib
import Vyuh.Json.Text

/-! Integers as JSON numbers, and the bytes of a value (`serde_json::to_vec`). -/

namespace Vyuh.Json
open Lib Tasks

/-- An integer in decimal. -/
def decimal : ℤ → List Char
  | .ofNat n => Nat.toDigits 10 n
  | .negSucc n => '-' :: Nat.toDigits 10 (n + 1)

theorem toDigits_injective {m n : ℕ} (h : Nat.toDigits 10 m = Nat.toDigits 10 n) : m = n := by
  rw [← Nat.ofDigitChars_ten_toDigits (n := m), h, Nat.ofDigitChars_ten_toDigits]

/-- No digit is a sign. -/
theorem toDigits_ne_sign (n : ℕ) (rest : List Char) : Nat.toDigits 10 n ≠ '-' :: rest := by
  intro h
  have hdigit := Nat.isDigit_of_mem_toDigits (b := 10) (n := n) (c := '-') (by decide) (by decide)
    (h ▸ List.mem_cons_self)
  exact absurd hdigit (by decide)

theorem decimal_injective : Function.Injective decimal := by
  intro a b h
  cases a with
  | ofNat m =>
    cases b with
    | ofNat n => rw [toDigits_injective h]
    | negSucc n => exact absurd h (toDigits_ne_sign m _)
  | negSucc m =>
    cases b with
    | ofNat n => exact absurd h.symm (toDigits_ne_sign n _)
    | negSucc n => rw [Nat.succ.inj (toDigits_injective (List.cons.inj h).2)]

theorem isNumberChar_of_mem_toDigits {n : ℕ} {c : Char} (h : c ∈ Nat.toDigits 10 n) :
    isNumberChar c = true := by
  rw [isNumberChar, Nat.isDigit_of_mem_toDigits (by decide) (by decide) h, Bool.true_or]

instance : NumberText ℤ where
  numberText := decimal
  injective := decimal_injective
  nonempty n := by
    cases n with
    | ofNat m => exact Nat.toDigits_ne_nil
    | negSucc m => exact List.cons_ne_nil _ _
  chars n c hc := by
    cases n with
    | ofNat m => exact isNumberChar_of_mem_toDigits hc
    | negSucc m =>
      rcases List.mem_cons.mp hc with rfl | hc
      · decide
      · exact isNumberChar_of_mem_toDigits hc

namespace Value

/-- `serde_json::to_vec`. -/
def toVec (value : Value ℤ) : List UInt8 := utf8 value.text

theorem toVec_injective : Function.Injective toVec := fun _ _ h =>
  text_injective (utf8_injective h)

theorem toVec_ne_nil (value : Value ℤ) : value.toVec ≠ [] := by
  obtain ⟨c, rest, htext, -⟩ := text_first value
  rw [toVec, htext]
  intro hnil
  have hlength := congrArg List.length hnil
  rw [length_utf8, List.map_cons, List.sum_cons] at hlength
  exact absurd hlength (by have := c.utf8Size_pos; simp only [List.length_nil]; omega)

/-! ### Sizes -/

/-- The bytes of a string between its quotes. -/
def escapedSize (s : String) : ℕ := Tasks.byteSize (s.toList.flatMap escapeChar)

/-- The commas of a list and the bracket that closes it. -/
def marks (count : ℕ) : ℕ := max 1 count

mutual

/-- The bytes of a value's text. -/
def size : Value ℤ → ℕ
  | .null => 4
  | .bool b => if b then 4 else 5
  | .number n => Tasks.byteSize (decimal n)
  | .string s => escapedSize s + 2
  | .array items => 1 + itemsSize items + marks items.length
  | .object fields => 1 + fieldsSize fields + marks fields.length

def itemsSize : List (Value ℤ) → ℕ
  | [] => 0
  | item :: rest => size item + itemsSize rest

def fieldsSize : List (String × Value ℤ) → ℕ
  | [] => 0
  | (key, value) :: rest => escapedSize key + 3 + size value + fieldsSize rest

end

theorem byteSize_append (text text' : List Char) :
    Tasks.byteSize (text ++ text') = Tasks.byteSize text + Tasks.byteSize text' := by
  simp only [Tasks.byteSize, List.map_append, List.sum_append]

theorem byteSize_listed {sep close : Char} (hsep : sep.utf8Size = 1) (hclose : close.utf8Size = 1) :
    ∀ codes : List (List Char),
      Tasks.byteSize (listed sep close codes) = (codes.map Tasks.byteSize).sum + marks codes.length
  | [] => by simp [listed, Tasks.byteSize, marks, hclose]
  | [code] => by simp [listed, marks, Tasks.byteSize, hclose]
  | code :: next :: codes => by
    have ih := byteSize_listed hsep hclose (next :: codes)
    rw [listed, byteSize_append, if_neg (by simp), List.map_cons, List.sum_cons, Nat.add_assoc]
    have hmark : Tasks.byteSize (sep :: listed sep close (next :: codes)) =
        1 + Tasks.byteSize (listed sep close (next :: codes)) := by
      simp only [Tasks.byteSize, List.map_cons, List.sum_cons, hsep]
    rw [hmark, ih]
    simp only [marks, List.length_cons]
    omega

theorem byteSize_jsonString (s : String) : Tasks.byteSize (jsonString s.toList) = escapedSize s + 2 := by
  rw [jsonString, List.cons_append, Tasks.byteSize, List.map_cons, List.sum_cons, ← Tasks.byteSize,
    byteSize_append, escapedSize]
  have hquote : Char.utf8Size '"' = 1 := rfl
  simp only [Tasks.byteSize, List.map_cons, List.map_nil, List.sum_cons, List.sum_nil, hquote]
  omega

theorem itemsSize_eq (items : List (Value ℤ)) : itemsSize items = (items.map size).sum := by
  induction items with
  | nil => rfl
  | cons item rest ih => rw [itemsSize, ih, List.map_cons, List.sum_cons]

theorem fieldsSize_eq (fields : List (String × Value ℤ)) :
    fieldsSize fields = (fields.map fun entry => escapedSize entry.1 + 3 + size entry.2).sum := by
  induction fields with
  | nil => rfl
  | cons entry rest ih => rw [fieldsSize, ih, List.map_cons, List.sum_cons]

theorem byteSize_cons_one {c : Char} (hc : c.utf8Size = 1) (text : List Char) :
    Tasks.byteSize (c :: text) = 1 + Tasks.byteSize text := by
  rw [Tasks.byteSize, List.map_cons, List.sum_cons, hc, Tasks.byteSize]

theorem byteSize_fieldText (entry : String × Value ℤ)
    (h : Tasks.byteSize entry.2.text = entry.2.size) :
    Tasks.byteSize (fieldText entry) = escapedSize entry.1 + 3 + entry.2.size := by
  rw [fieldText, byteSize_append, byteSize_jsonString, byteSize_cons_one rfl, h]
  omega

theorem byteSize_text (value : Value ℤ) : Tasks.byteSize value.text = value.size := by
  induction value using induct with
  | null => rfl
  | bool b => cases b <;> rfl
  | number n => rfl
  | string s => exact byteSize_jsonString s
  | array items ih =>
    rw [text, itemTexts_eq, byteSize_cons_one rfl, byteSize_listed rfl rfl, List.map_map, List.length_map,
      size, itemsSize_eq, ← List.map_congr_left ih, Nat.add_assoc]
    rfl
  | object fields ih =>
    have hfields := List.map_congr_left fun entry hentry => byteSize_fieldText entry (ih entry hentry)
    rw [text, fieldTexts_eq, byteSize_cons_one rfl, byteSize_listed rfl rfl, List.map_map,
      List.length_map, size, fieldsSize_eq, ← hfields, Nat.add_assoc]
    rfl

theorem length_toVec (value : Value ℤ) : value.toVec.length = value.size := by
  rw [toVec, length_utf8]
  exact byteSize_text value

end Value

/-- A name of `n` letters. -/
def longName (n : ℕ) : String := String.ofList (List.replicate n 'a')

theorem byteSize_replicate (n : ℕ) : Tasks.byteSize (List.replicate n 'a') = n := by
  induction n with
  | zero => rfl
  | succ n ih => rw [List.replicate_succ, Value.byteSize_cons_one rfl, ih, Nat.add_comm]

/-- Letters are not escaped. -/
theorem escapedSize_longName (n : ℕ) : Value.escapedSize (longName n) = n := by
  have hplain : (List.replicate n 'a').flatMap escapeChar = List.replicate n 'a' := by
    induction n with
    | zero => rfl
    | succ n ih =>
      rw [List.replicate_succ, List.flatMap_cons, ih]
      rfl
  rw [Value.escapedSize, longName, String.toList_ofList, hplain, byteSize_replicate]

end Vyuh.Json
