import Mathlib

/-! JSON texts in ASCII (RFC 8259 §7): every other character is written as the escapes of its UTF-16 code
    units, two of them, a surrogate pair, beyond the basic plane. `Unescapes` reads them back. -/

namespace Lib.Ascii

/-- The UTF-16 code units of a character. -/
def utf16 (c : Char) : List ℕ :=
  if c.toNat < 0x10000 then [c.toNat]
  else [0xD800 + (c.toNat - 0x10000) / 0x400, 0xDC00 + (c.toNat - 0x10000) % 0x400]

def digit (n : ℕ) : Char := if n < 10 then Char.ofNat (48 + n) else Char.ofNat (87 + n)

def digitValue (c : Char) : Option ℕ :=
  if 48 ≤ c.toNat ∧ c.toNat ≤ 57 then some (c.toNat - 48)
  else if 97 ≤ c.toNat ∧ c.toNat ≤ 102 then some (c.toNat - 87)
  else none

/-- `\uXXXX`. -/
def escapeUnit (unit : ℕ) : List Char :=
  ['\\', 'u', digit (unit / 4096), digit (unit / 256 % 16), digit (unit / 16 % 16), digit (unit % 16)]

def escapeChar (c : Char) : List Char := if c.toNat < 128 then [c] else (utf16 c).flatMap escapeUnit

def escape (text : List Char) : List Char := text.flatMap escapeChar

/-! ### Reading -/

/-- The code unit whose escape a text begins with. -/
def readUnit : List Char → Option (ℕ × List Char)
  | '\\' :: 'u' :: a :: b :: c :: d :: rest => do
    let a ← digitValue a
    let b ← digitValue b
    let c ← digitValue c
    let d ← digitValue d
    some (a * 4096 + b * 256 + c * 16 + d, rest)
  | _ => none

/-- The character that two surrogates are. -/
def combine (high low : ℕ) : Char := Char.ofNat (0x10000 + (high - 0xD800) * 0x400 + (low - 0xDC00))

/-- The character outside ASCII whose escape a text begins with. -/
def readEscape (text : List Char) : Option (Char × List Char) :=
  match readUnit text with
  | none => none
  | some (unit, rest) =>
    if unit < 128 ∨ 0xDC00 ≤ unit ∧ unit < 0xE000 then none
    else if 0xD800 ≤ unit ∧ unit < 0xDC00 then
      match readUnit rest with
      | some (low, rest) => if 0xDC00 ≤ low ∧ low < 0xE000 then some (combine unit low, rest) else none
      | none => none
    else some (Char.ofNat unit, rest)

/-- The second text is the first with its escapes of characters outside ASCII read; all else stays, an
    escape of an ASCII character too. -/
inductive Unescapes : List Char → List Char → Prop
  | nil : Unescapes [] []
  | char {c : Char} {rest out : List Char} : c ≠ '\\' → Unescapes rest out → Unescapes (c :: rest) (c :: out)
  | pair {c : Char} {rest out : List Char} : readEscape ('\\' :: c :: rest) = none → Unescapes rest out →
    Unescapes ('\\' :: c :: rest) ('\\' :: c :: out)
  | escape {text rest out : List Char} {c : Char} : readEscape text = some (c, rest) → Unescapes rest out →
    Unescapes text (c :: out)

/-- A text whose only escapes are of two characters or of an ASCII character, as a JSON writer leaves it
    that escapes no more than it must. -/
inductive Written : List Char → Prop
  | nil : Written []
  | char {c : Char} {rest : List Char} : c ≠ '\\' → Written rest → Written (c :: rest)
  | pair {c : Char} {rest : List Char} : c.toNat < 128 → c ≠ 'u' → Written rest → Written ('\\' :: c :: rest)
  | unit {a b : Char} {high low : ℕ} {rest : List Char} : digitValue a = some high → high < 8 →
    digitValue b = some low → Written rest → Written ('\\' :: 'u' :: '0' :: '0' :: a :: b :: rest)

theorem Written.of_forall {text : List Char} (h : ∀ c ∈ text, c ≠ '\\') : Written text := by
  induction text with
  | nil => exact .nil
  | cons c rest ih =>
    obtain ⟨hc, hrest⟩ := List.forall_mem_cons.mp h
    exact .char hc (ih hrest)

/-! ### What was escaped is read back -/

theorem digitValue_digit : ∀ n < 16, digitValue (digit n) = some n := by decide

theorem digitValue_some {c : Char} {n : ℕ} (h : digitValue c = some n) : c.toNat < 128 ∧ n < 16 ∧ c ≠ '\\' := by
  have hne : c ≠ '\\' := by
    rintro rfl
    have hnone : digitValue '\\' = none := by decide
    rw [hnone] at h
    exact nomatch h
  rw [digitValue] at h
  refine ⟨?_, ?_, hne⟩
  · split at h
    · omega
    · split at h
      · omega
      · exact nomatch h
  · split at h
    · cases h
      omega
    · split at h
      · cases h
        omega
      · exact nomatch h

theorem readUnit_escapeUnit {unit : ℕ} (h : unit < 65536) (rest : List Char) :
    readUnit (escapeUnit unit ++ rest) = some (unit, rest) := by
  have hsplit : unit / 4096 * 4096 + unit / 256 % 16 * 256 + unit / 16 % 16 * 16 + unit % 16 = unit := by omega
  show (do
    let a ← digitValue (digit (unit / 4096))
    let b ← digitValue (digit (unit / 256 % 16))
    let c ← digitValue (digit (unit / 16 % 16))
    let d ← digitValue (digit (unit % 16))
    some (a * 4096 + b * 256 + c * 16 + d, rest)) = _
  rw [digitValue_digit _ (by omega), digitValue_digit _ (by omega), digitValue_digit _ (by omega),
    digitValue_digit _ (by omega)]
  exact congrArg (fun unit => some (unit, rest)) hsplit

/-- No character is a surrogate. -/
theorem toNat_range (c : Char) : c.toNat < 0xD800 ∨ 0xE000 ≤ c.toNat ∧ c.toNat < 0x110000 := by
  rcases c.valid with h | ⟨h, h'⟩
  · exact .inl h
  · exact .inr ⟨h, h'⟩

theorem readEscape_escapeChar {c : Char} (hc : 128 ≤ c.toNat) (rest : List Char) :
    readEscape (escapeChar c ++ rest) = some (c, rest) := by
  have hrange := toNat_range c
  rw [escapeChar, if_neg (by omega), utf16]
  by_cases hbasic : c.toNat < 0x10000
  · rw [if_pos hbasic, List.flatMap_singleton, readEscape, readUnit_escapeUnit hbasic]
    dsimp only
    rw [if_neg (by omega), if_neg (by omega), Char.ofNat_toNat]
  · rw [if_neg hbasic, List.flatMap_cons, List.flatMap_singleton, List.append_assoc, readEscape,
      readUnit_escapeUnit (by omega)]
    dsimp only
    rw [if_neg (by omega), if_pos (by omega), readUnit_escapeUnit (by omega)]
    dsimp only
    have hvalue : 0x10000 + (0xD800 + (c.toNat - 0x10000) / 0x400 - 0xD800) * 0x400 +
        (0xDC00 + (c.toNat - 0x10000) % 0x400 - 0xDC00) = c.toNat := by omega
    rw [if_pos (by omega), combine, hvalue, Char.ofNat_toNat]

theorem escapeChar_ascii {c : Char} (h : c.toNat < 128) : escapeChar c = [c] := if_pos h

/-- The escaped text is read as the text. -/
theorem Written.unescapes {text : List Char} (h : Written text) : Unescapes (escape text) text := by
  induction h with
  | nil => exact .nil
  | @char c rest hc _ ih =>
    rw [escape, List.flatMap_cons]
    by_cases hascii : c.toNat < 128
    · rw [escapeChar_ascii hascii]
      exact .char hc ih
    · exact .escape (readEscape_escapeChar (by omega) _) ih
  | @pair c rest hascii hu _ ih =>
    rw [escape, List.flatMap_cons, List.flatMap_cons, escapeChar_ascii hascii]
    refine .pair ?_ ih
    have hnone : readUnit ('\\' :: c :: rest.flatMap escapeChar) = none := by
      rw [readUnit]
      rintro _ _ _ _ _ heq
      exact hu (List.cons.inj (List.cons.inj heq).2).1
    show readEscape ('\\' :: c :: rest.flatMap escapeChar) = none
    rw [readEscape, hnone]
  | @unit a b high low rest ha hhigh hb _ ih =>
    obtain ⟨hascii, -, hne⟩ := digitValue_some ha
    obtain ⟨hascii', hlow, hne'⟩ := digitValue_some hb
    have hunit : readUnit ('\\' :: 'u' :: '0' :: '0' :: a :: b :: rest.flatMap escapeChar) =
        some (high * 16 + low, rest.flatMap escapeChar) := by
      show (do
        let a ← digitValue a
        let b ← digitValue b
        some (0 * 4096 + 0 * 256 + a * 16 + b, rest.flatMap escapeChar)) = _
      rw [ha, hb]
      simp
    have hnone : readEscape ('\\' :: 'u' :: '0' :: '0' :: a :: b :: rest.flatMap escapeChar) = none := by
      rw [readEscape, hunit]
      exact if_pos (.inl (by omega))
    simp only [escape, List.flatMap_cons, escapeChar_ascii hascii, escapeChar_ascii hascii']
    exact .pair hnone (.char (by decide) (.char (by decide) (.char hne (.char hne' ih))))

end Lib.Ascii
