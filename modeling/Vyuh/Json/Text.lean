import Vyuh.Json.Value
import Vyuh.Lib.Coding
import Vyuh.Tasks.Result

/-! The text of a JSON value, as `serde_json::to_string` writes it: no blanks, members and elements in
    the order they stand. Numbers are written by the class `NumberText`. The text determines the value
    (`reads_text`): strings are escaped character by character up to the closing quote, lists are read
    up to their bracket, and a number ends where no number goes on. -/

namespace Vyuh.Json
open Lib Tasks

/-- The characters of a JSON number. -/
def isNumberChar (c : Char) : Bool := c.isDigit || ['-', '+', '.', 'e', 'E'].contains c

/-- How `serde_json` writes numbers: different numbers get different texts. -/
class NumberText (ν : Type) where
  numberText : ν → List Char
  injective : Function.Injective numberText
  nonempty : ∀ n, numberText n ≠ []
  chars : ∀ n, ∀ c ∈ numberText n, isNumberChar c = true

variable {ν : Type} [NumberText ν]

namespace Value

mutual

/-- `serde_json::to_string`. -/
def text : Value ν → List Char
  | .null => ['n', 'u', 'l', 'l']
  | .bool true => ['t', 'r', 'u', 'e']
  | .bool false => ['f', 'a', 'l', 's', 'e']
  | .number n => NumberText.numberText n
  | .string s => jsonString s.toList
  | .array items => '[' :: listed ',' ']' (itemTexts items)
  | .object fields => '{' :: listed ',' '}' (fieldTexts fields)

def itemTexts : List (Value ν) → List (List Char)
  | [] => []
  | item :: rest => text item :: itemTexts rest

def fieldTexts : List (String × Value ν) → List (List Char)
  | [] => []
  | (key, value) :: rest => (jsonString key.toList ++ ':' :: text value) :: fieldTexts rest

end

theorem itemTexts_eq (items : List (Value ν)) : itemTexts items = items.map text := by
  induction items with
  | nil => rfl
  | cons item rest ih => rw [itemTexts, ih, List.map_cons]

/-- A member: its name, a colon and its value. -/
def fieldText (entry : String × Value ν) : List Char := jsonString entry.1.toList ++ ':' :: text entry.2

theorem fieldTexts_eq (fields : List (String × Value ν)) : fieldTexts fields = fields.map fieldText := by
  induction fields with
  | nil => rfl
  | cons entry rest ih => rw [fieldTexts, ih, List.map_cons, fieldText]

end Value

/-! ### Strings -/

/-- The value of a lowercase hexadecimal digit. -/
def hexValue (c : Char) : ℕ := if c.isDigit then c.toNat - 48 else c.toNat - 87

/-- The character an escaped text begins with. -/
def unescape : List Char → Option (Char × List Char)
  | '\\' :: '"' :: rest => some ('"', rest)
  | '\\' :: '\\' :: rest => some ('\\', rest)
  | '\\' :: 'b' :: rest => some (Char.ofNat 8, rest)
  | '\\' :: 't' :: rest => some (Char.ofNat 9, rest)
  | '\\' :: 'n' :: rest => some (Char.ofNat 10, rest)
  | '\\' :: 'f' :: rest => some (Char.ofNat 12, rest)
  | '\\' :: 'r' :: rest => some (Char.ofNat 13, rest)
  | '\\' :: 'u' :: '0' :: '0' :: high :: low :: rest =>
    some (Char.ofNat (hexValue high * 16 + hexValue low), rest)
  | c :: rest => some (c, rest)
  | [] => none

theorem hexValue_hexDigit : ∀ n < 16, hexValue (hexDigit n) = n := by decide

theorem hexDigit_ne_zero : ∀ n < 16, hexDigit n ≠ Char.ofNat 0 := by decide

theorem eq_ofNat {c : Char} {n : ℕ} (h : c.toNat = n) : Char.ofNat n = c := by
  rw [← h, Char.ofNat_toNat]

theorem unescape_escapeChar (c : Char) (rest : List Char) :
    unescape (escapeChar c ++ rest) = some (c, rest) := by
  unfold escapeChar
  split
  · next h => rw [h]; rfl
  split
  · next h => rw [h]; rfl
  split
  · next h => exact congrArg (fun c => some (c, rest)) (eq_ofNat h)
  split
  · next h => exact congrArg (fun c => some (c, rest)) (eq_ofNat h)
  split
  · next h => exact congrArg (fun c => some (c, rest)) (eq_ofNat h)
  split
  · next h => exact congrArg (fun c => some (c, rest)) (eq_ofNat h)
  split
  · next h => exact congrArg (fun c => some (c, rest)) (eq_ofNat h)
  split
  · next h =>
    show some (Char.ofNat (hexValue (hexDigit (c.toNat / 16)) * 16 + hexValue (hexDigit (c.toNat % 16))),
      rest) = _
    have hsplit : c.toNat = c.toNat / 16 * 16 + c.toNat % 16 := by omega
    rw [hexValue_hexDigit _ (by omega), hexValue_hexDigit _ (by omega), eq_ofNat hsplit]
  · next hquote hback _ _ _ _ _ _ =>
    rw [List.cons_append, List.nil_append]
    unfold unescape
    split <;> simp_all

theorem readable_escapeChar : Readable Anything escapeChar := by
  intro c c' r r' _ _ heq
  have h := unescape_escapeChar c r
  rw [heq, unescape_escapeChar] at h
  have hpair := Option.some.inj h
  exact ⟨(congrArg Prod.fst hpair).symm, (congrArg Prod.snd hpair).symm⟩

/-- No escaped character begins with a quote, and none is or holds the character zero. -/
theorem escapeChar_chars (c : Char) :
    (∃ d rest, escapeChar c = d :: rest ∧ d ≠ '"') ∧ ∀ d ∈ escapeChar c, d ≠ Char.ofNat 0 := by
  have hshort : ∀ d : Char, d ≠ Char.ofNat 0 → (∃ e rest, ['\\', d] = e :: rest ∧ e ≠ '"') ∧
      ∀ e ∈ ['\\', d], e ≠ Char.ofNat 0 := by
    refine fun d hd => ⟨⟨'\\', [d], rfl, by decide⟩, fun e he => ?_⟩
    rcases List.mem_pair.mp he with rfl | rfl
    · decide
    · exact hd
  unfold escapeChar
  split
  · exact hshort '"' (by decide)
  split
  · exact hshort '\\' (by decide)
  split
  · exact hshort 'b' (by decide)
  split
  · exact hshort 't' (by decide)
  split
  · exact hshort 'n' (by decide)
  split
  · exact hshort 'f' (by decide)
  split
  · exact hshort 'r' (by decide)
  split
  · next h =>
    refine ⟨⟨'\\', _, rfl, by decide⟩, fun d hd => ?_⟩
    have hhigh := hexDigit_ne_zero (c.toNat / 16) (by omega)
    have hlow := hexDigit_ne_zero (c.toNat % 16) (by omega)
    simp only [List.mem_cons, List.not_mem_nil, or_false] at hd
    rcases hd with rfl | rfl | rfl | rfl | rfl | rfl
    · decide
    · decide
    · decide
    · decide
    · exact hhigh
    · exact hlow
  · next hquote _ _ _ _ _ _ hcontrol =>
    refine ⟨⟨c, [], rfl, hquote⟩, fun d hd => ?_⟩
    obtain rfl := List.mem_singleton.mp hd
    rintro rfl
    exact hcontrol (by decide)

/-- A string ends at its closing quote. -/
theorem readable_string : Readable Anything (fun s : String => jsonString s.toList) := by
  intro s s' r r' _ _ heq
  have hclosed : closed escapeChar '"' s.toList ++ r = closed escapeChar '"' s'.toList ++ r' := by
    simpa [jsonString, closed] using heq
  obtain ⟨hlist, hrest⟩ := readable_closed readable_escapeChar (fun c => (escapeChar_chars c).1)
    s.toList s'.toList r r' trivial trivial hclosed
  exact ⟨String.toList_inj.mp hlist, hrest⟩

/-! ### Values -/

namespace Value

/-- The kind of a value. -/
def kind : Value ν → ℕ
  | .null => 0
  | .bool true => 1
  | .bool false => 2
  | .number _ => 3
  | .string _ => 4
  | .array _ => 5
  | .object _ => 6

/-- The kind of the values whose text begins with a character. -/
def kindOf (c : Char) : ℕ :=
  if c = 'n' then 0 else if c = 't' then 1 else if c = 'f' then 2 else if c = '"' then 4
  else if c = '[' then 5 else if c = '{' then 6 else 3

theorem kindOf_number {c : Char} (h : isNumberChar c = true) : kindOf c = 3 := by
  have hne : ∀ d, isNumberChar d = false → c ≠ d := by
    rintro d hd rfl
    rw [h] at hd
    exact (nomatch hd)
  unfold kindOf
  rw [if_neg (hne 'n' (by decide)), if_neg (hne 't' (by decide)), if_neg (hne 'f' (by decide)),
    if_neg (hne '"' (by decide)), if_neg (hne '[' (by decide)), if_neg (hne '{' (by decide))]

/-- A text shows its kind in its first character. -/
theorem text_first (value : Value ν) : ∃ c rest, value.text = c :: rest ∧ kindOf c = value.kind := by
  cases value with
  | null => exact ⟨'n', _, rfl, rfl⟩
  | bool b =>
    cases b with
    | true => exact ⟨'t', _, rfl, rfl⟩
    | false => exact ⟨'f', _, rfl, rfl⟩
  | number n =>
    obtain ⟨c, rest, htext⟩ := List.exists_cons_of_ne_nil (NumberText.nonempty n)
    have hc : c ∈ NumberText.numberText n := htext ▸ List.mem_cons_self
    exact ⟨c, rest, htext, kindOf_number (NumberText.chars n c hc)⟩
  | string s => exact ⟨'"', _, rfl, rfl⟩
  | array items => exact ⟨'[', _, rfl, rfl⟩
  | object fields => exact ⟨'{', _, rfl, rfl⟩

theorem kind_eq_of_text {value value' : Value ν} {r r' : List Char}
    (h : value.text ++ r = value'.text ++ r') : value.kind = value'.kind := by
  obtain ⟨c, rest, htext, hkind⟩ := value.text_first
  obtain ⟨c', rest', htext', hkind'⟩ := value'.text_first
  rw [htext, htext', List.cons_append, List.cons_append] at h
  rw [← hkind, ← hkind', (List.cons.inj h).1]

/-- No text begins with the bracket that ends an array. -/
theorem text_opens (value : Value ν) : ∃ c rest, value.text = c :: rest ∧ c ≠ ']' := by
  obtain ⟨c, rest, htext, hkind⟩ := value.text_first
  refine ⟨c, rest, htext, ?_⟩
  rintro rfl
  have hthree : kindOf ']' = 3 := by decide
  rw [hthree] at hkind
  cases value with
  | number n =>
    have hc : ']' ∈ NumberText.numberText n := by
      rw [show NumberText.numberText n = ']' :: rest from htext]
      exact List.mem_cons_self
    exact absurd (NumberText.chars n _ hc) (by decide)
  | bool b => cases b <;> exact (nomatch hkind)
  | _ => exact (nomatch hkind)

theorem fieldText_opens (entry : String × Value ν) : ∃ c rest, fieldText entry = c :: rest ∧ c ≠ '}' :=
  ⟨'"', _, rfl, by decide⟩

theorem outside_of_mark {mark : Char} (h : isNumberChar mark = false) (r : List Char) :
    Outside isNumberChar (mark :: r) := by
  intro c hc
  obtain rfl := Option.some.inj hc
  exact h

/-- A member is read when its value is. -/
theorem reads_fieldText {entry : String × Value ν} (h : ReadsAt (Outside isNumberChar) text entry.2) :
    ReadsAt (Outside isNumberChar) fieldText entry := by
  rintro ⟨key', value'⟩ r r' hr hr' heq
  obtain ⟨key, value⟩ := entry
  simp only [fieldText, List.append_assoc, List.cons_append] at heq
  obtain ⟨rfl, hrest⟩ := readable_string key key' _ _ trivial trivial heq
  obtain ⟨rfl, rfl⟩ := h value' r r' hr hr' (List.cons.inj hrest).2
  exact ⟨rfl, rfl⟩

/-- The text determines the value, and where it ends. -/
theorem reads_text (value : Value ν) : ReadsAt (Outside isNumberChar) text value := by
  induction value using induct with
  | null =>
    intro value' r r' _ _ heq
    have hkind := kind_eq_of_text heq
    cases value' with
    | null => exact ⟨rfl, List.append_cancel_left heq⟩
    | bool b => cases b <;> exact (nomatch hkind)
    | _ => exact (nomatch hkind)
  | bool b =>
    intro value' r r' _ _ heq
    have hkind := kind_eq_of_text heq
    cases value' with
    | bool b' =>
      have hb : b = b' := by
        cases b <;> cases b' <;> first | rfl | exact (nomatch hkind)
      subst hb
      exact ⟨rfl, List.append_cancel_left heq⟩
    | _ => cases b <;> exact (nomatch hkind)
  | number n =>
    intro value' r r' hr hr' heq
    have hkind := kind_eq_of_text heq
    cases value' with
    | number n' =>
      obtain ⟨rfl, rfl⟩ := readable_words NumberText.injective NumberText.chars n n' r r' hr hr' heq
      exact ⟨rfl, rfl⟩
    | bool b => cases b <;> exact (nomatch hkind)
    | _ => exact (nomatch hkind)
  | string s =>
    intro value' r r' _ _ heq
    have hkind := kind_eq_of_text heq
    cases value' with
    | string s' =>
      obtain ⟨rfl, rfl⟩ := readable_string s s' r r' trivial trivial heq
      exact ⟨rfl, rfl⟩
    | bool b => cases b <;> exact (nomatch hkind)
    | _ => exact (nomatch hkind)
  | array items ih =>
    intro value' r r' _ _ heq
    have hkind := kind_eq_of_text heq
    cases value' with
    | array items' =>
      have hlist := (List.cons.inj heq).2
      rw [itemTexts_eq, itemTexts_eq] at hlist
      obtain ⟨rfl, rfl⟩ := reads_listed (by decide) (outside_of_mark (by decide))
        (outside_of_mark (by decide)) text_opens ih items' r r' trivial trivial hlist
      exact ⟨rfl, rfl⟩
    | bool b => cases b <;> exact (nomatch hkind)
    | _ => exact (nomatch hkind)
  | object fields ih =>
    intro value' r r' _ _ heq
    have hkind := kind_eq_of_text heq
    cases value' with
    | object fields' =>
      have hlist := (List.cons.inj heq).2
      rw [fieldTexts_eq, fieldTexts_eq] at hlist
      obtain ⟨rfl, rfl⟩ := reads_listed (by decide) (outside_of_mark (by decide))
        (outside_of_mark (by decide)) fieldText_opens (fun entry hmem => reads_fieldText (ih entry hmem))
        fields' r r' trivial trivial hlist
      exact ⟨rfl, rfl⟩
    | bool b => cases b <;> exact (nomatch hkind)
    | _ => exact (nomatch hkind)

theorem text_injective : Function.Injective (text : Value ν → List Char) := by
  intro value value' heq
  have hend : Outside isNumberChar [] := fun c hc => (nomatch hc)
  exact (reads_text value value' [] [] hend hend (congrArg (· ++ []) heq)).1

/-! ### No zero character -/

theorem listed_chars (P : Char → Prop) {sep close : Char} (hsep : P sep) (hclose : P close) :
    ∀ {codes : List (List Char)}, (∀ code ∈ codes, ∀ c ∈ code, P c) → ∀ c ∈ listed sep close codes, P c
  | [], _, c, hc => by
    obtain rfl := List.mem_singleton.mp hc
    exact hclose
  | code :: codes, h, c, hc => by
    rw [listed, List.mem_append] at hc
    rcases hc with hc | hc
    · exact h code List.mem_cons_self c hc
    · split at hc
      · obtain rfl := List.mem_singleton.mp hc
        exact hclose
      · rcases List.mem_cons.mp hc with rfl | hc
        · exact hsep
        · exact listed_chars P hsep hclose (fun code hmem => h code (List.mem_cons_of_mem _ hmem)) c hc

theorem string_chars (s : List Char) : ∀ c ∈ jsonString s, c ≠ Char.ofNat 0 := by
  intro c hc
  rw [jsonString, List.cons_append, List.mem_cons, List.mem_append, List.mem_flatMap,
    List.mem_singleton] at hc
  rcases hc with rfl | ⟨d, -, hc⟩ | rfl
  · decide
  · exact (escapeChar_chars d).2 c hc
  · decide

/-- A text never holds the character zero: strings escape it. -/
theorem text_chars (value : Value ν) : ∀ c ∈ value.text, c ≠ Char.ofNat 0 := by
  induction value using induct with
  | null =>
    show ∀ c ∈ ['n', 'u', 'l', 'l'], c ≠ Char.ofNat 0
    simp
  | bool b =>
    cases b with
    | true =>
      show ∀ c ∈ ['t', 'r', 'u', 'e'], c ≠ Char.ofNat 0
      simp
    | false =>
      show ∀ c ∈ ['f', 'a', 'l', 's', 'e'], c ≠ Char.ofNat 0
      simp
  | number n =>
    rintro c hc rfl
    exact absurd (NumberText.chars n _ hc) (by decide)
  | string s => exact string_chars s.toList
  | array items ih =>
    intro c hc
    rw [text, itemTexts_eq] at hc
    rcases List.mem_cons.mp hc with rfl | hc
    · decide
    · refine listed_chars (· ≠ Char.ofNat 0) (by decide) (by decide) (fun code hmem => ?_) c hc
      obtain ⟨item, hitem, rfl⟩ := List.mem_map.mp hmem
      exact ih item hitem
  | object fields ih =>
    intro c hc
    rw [text, fieldTexts_eq] at hc
    rcases List.mem_cons.mp hc with rfl | hc
    · decide
    · refine listed_chars (· ≠ Char.ofNat 0) (by decide) (by decide) (fun code hmem d hd => ?_) c hc
      obtain ⟨entry, hentry, rfl⟩ := List.mem_map.mp hmem
      rcases List.mem_append.mp hd with hd | hd
      · exact string_chars _ d hd
      · rcases List.mem_cons.mp hd with rfl | hd
        · decide
        · exact ih entry hentry d hd

end Value

end Vyuh.Json
