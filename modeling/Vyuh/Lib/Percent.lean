import Vyuh.Lib.Coding

/-! Percent-encoding (RFC 3986 §2.1): a byte as `%` and two hexadecimal digits. The encoder escapes what
    its set names and everything outside ASCII; the decoder takes an escape where there is one and leaves
    a `%` without two digits as it is. -/

namespace Lib.Percent

def hexDigit (n : ℕ) : Char := if n < 10 then Char.ofNat (48 + n) else Char.ofNat (55 + n)

def hexValue (c : Char) : Option ℕ :=
  if 48 ≤ c.toNat ∧ c.toNat ≤ 57 then some (c.toNat - 48)
  else if 65 ≤ c.toNat ∧ c.toNat ≤ 70 then some (c.toNat - 55)
  else if 97 ≤ c.toNat ∧ c.toNat ≤ 102 then some (c.toNat - 87)
  else none

def encodeByte (byte : UInt8) : List Char :=
  ['%', hexDigit (byte.toNat / 16), hexDigit (byte.toNat % 16)]

def encodeChar (set : Char → Bool) (c : Char) : List Char :=
  if set c || 128 ≤ c.toNat then (String.utf8EncodeChar c).flatMap encodeByte else [c]

/-- `utf8_percent_encode`. -/
def encode (set : Char → Bool) (text : List Char) : List Char := text.flatMap (encodeChar set)

/-- The byte of an escape. -/
def escape (c high low : Char) : Option UInt8 :=
  if c = '%' then do
    let high ← hexValue high
    let low ← hexValue low
    some (UInt8.ofNat (16 * high + low))
  else none

/-- `percent_decode_str`. -/
def decode : List Char → List UInt8
  | c :: high :: low :: rest =>
    match escape c high low with
    | some byte => byte :: decode rest
    | none => String.utf8EncodeChar c ++ decode (high :: low :: rest)
  | short => utf8 short

/-- `percent_decode_str` and `decode_utf8`. -/
def decodeText (text : List Char) : Option (List Char) := fromUtf8 (decode text)

theorem decode_cons {c : Char} (h : c ≠ '%') (rest : List Char) :
    decode (c :: rest) = String.utf8EncodeChar c ++ decode rest := by
  match rest with
  | [] => rfl
  | [_] => rfl
  | high :: low :: rest => rw [decode, escape, if_neg h]

/-- Without escapes a text is decoded to itself. -/
theorem decode_of_not_mem {text : List Char} (h : '%' ∉ text) : decode text = utf8 text := by
  induction text with
  | nil => rfl
  | cons c text ih =>
    rw [List.mem_cons, not_or] at h
    rw [decode_cons (Ne.symm h.1), ih h.2, utf8, utf8, List.flatMap_cons]

theorem decodeText_of_not_mem {text : List Char} (h : '%' ∉ text) : decodeText text = some text := by
  rw [decodeText, decode_of_not_mem h, fromUtf8_utf8]

/-- A character is written as it is, or begins with an escape. -/
theorem encodeChar_cases (set : Char → Bool) (c : Char) :
    (encodeChar set c = [c] ∧ set c = false) ∨ ∃ rest, encodeChar set c = '%' :: rest := by
  rw [encodeChar]
  split
  next =>
    have hne : String.utf8EncodeChar c ≠ [] := fun hnil => by
      have hsize := String.length_utf8EncodeChar c
      rw [hnil] at hsize
      exact absurd hsize.symm (Nat.ne_of_gt c.utf8Size_pos)
    obtain ⟨byte, bytes, hbytes⟩ := List.exists_cons_of_ne_nil hne
    rw [hbytes, List.flatMap_cons]
    exact .inr ⟨_, rfl⟩
  next hplain =>
    rw [Bool.not_eq_true, Bool.or_eq_false_iff] at hplain
    exact .inl ⟨rfl, hplain.1⟩

/-! ### Encoding and decoding -/

theorem hexValue_hexDigit : ∀ n < 16, hexValue (hexDigit n) = some n := by decide

/-- What the set escapes is not written, but for the escapes themselves. -/
theorem not_mem_encode {set : Char → Bool} {c : Char} (hset : set c = true) (hpercent : c ≠ '%')
    (hhex : hexValue c = none) (text : List Char) : c ∉ encode set text := by
  have hdigit : ∀ n < 16, c ≠ hexDigit n := by
    rintro n hn rfl
    rw [hexValue_hexDigit n hn] at hhex
    exact nomatch hhex
  intro hmem
  obtain ⟨d, -, hmem⟩ := List.mem_flatMap.mp hmem
  rw [encodeChar] at hmem
  split at hmem
  next =>
    obtain ⟨byte, -, hmem⟩ := List.mem_flatMap.mp hmem
    have hbyte := byte.toNat_lt
    simp only [encodeByte, List.mem_cons, List.not_mem_nil, or_false] at hmem
    rcases hmem with h | h | h
    · exact hpercent h
    · exact hdigit _ (by omega) h
    · exact hdigit _ (by omega) h
  next hplain =>
    rw [List.mem_singleton.mp hmem] at hset
    rw [hset] at hplain
    exact hplain rfl

theorem decode_encodeByte (byte : UInt8) (rest : List Char) :
    decode (encodeByte byte ++ rest) = byte :: decode rest := by
  have hlt := byte.toNat_lt
  have hescape : escape '%' (hexDigit (byte.toNat / 16)) (hexDigit (byte.toNat % 16)) = some byte := by
    rw [escape, if_pos rfl, hexValue_hexDigit _ (by omega), hexValue_hexDigit _ (by omega)]
    show some (UInt8.ofNat (16 * (byte.toNat / 16) + byte.toNat % 16)) = some byte
    rw [Nat.div_add_mod, UInt8.ofNat_toNat]
  rw [encodeByte, List.cons_append, List.cons_append, List.cons_append, List.nil_append, decode, hescape]

theorem decode_flatMap_encodeByte (bytes : List UInt8) (rest : List Char) :
    decode (bytes.flatMap encodeByte ++ rest) = bytes ++ decode rest := by
  induction bytes with
  | nil => rfl
  | cons byte bytes ih =>
    rw [List.flatMap_cons, List.append_assoc, decode_encodeByte, ih, List.cons_append]

/-- What is encoded with a set that has `%` is decoded to its bytes, whatever follows. -/
theorem decode_encode_append {set : Char → Bool} (hset : set '%' = true) (text rest : List Char) :
    decode (encode set text ++ rest) = utf8 text ++ decode rest := by
  induction text with
  | nil => rfl
  | cons c text ih =>
    rw [encode, List.flatMap_cons, ← encode, List.append_assoc, utf8, List.flatMap_cons, ← utf8,
      List.append_assoc, ← ih, encodeChar]
    split
    next => exact decode_flatMap_encodeByte _ _
    next hplain =>
      refine decode_cons (fun hc => hplain ?_) _
      rw [hc, hset, Bool.true_or]

/-! ### Characters that are no digits -/

/-- A character that is part of no escape is decoded for itself. -/
theorem mem_decode {c : Char} (hc : hexValue c = none) (hp : c ≠ '%') {text : List Char} (h : c ∈ text)
    {byte : UInt8} (hbyte : byte ∈ String.utf8EncodeChar c) : byte ∈ decode text := by
  fun_induction decode text with
  | case1 d high low rest value hescape ih =>
    rw [escape] at hescape
    split at hescape
    next hd =>
      simp only [Option.bind_eq_bind, Option.bind_eq_some_iff] at hescape
      obtain ⟨_, hhigh, _, hlow, -⟩ := hescape
      refine List.mem_cons_of_mem _ (ih ?_)
      simp only [List.mem_cons] at h
      obtain rfl | rfl | rfl | hrest := h
      · exact absurd hd hp
      · exact nomatch hc.symm.trans hhigh
      · exact nomatch hc.symm.trans hlow
      · exact hrest
    next => exact nomatch hescape
  | case2 d high low rest hescape ih =>
    rw [List.mem_append]
    obtain rfl | hrest := List.mem_cons.mp h
    · exact .inl hbyte
    · exact .inr (ih hrest)
  | case3 => exact List.mem_flatMap.mpr ⟨c, h, hbyte⟩

/-- An ASCII character that is part of no escape is still in the decoded text. -/
theorem mem_of_decodeText {text decoded : List Char} (h : decodeText text = some decoded) {c : Char}
    (hascii : c.toNat < 128) (hc : hexValue c = none) (hp : c ≠ '%') (hmem : c ∈ text) : c ∈ decoded := by
  refine mem_of_mem_utf8 hascii ?_
  rw [utf8_of_fromUtf8 h]
  exact mem_decode hc hp hmem (by rw [utf8EncodeChar_ascii hascii]; exact List.mem_singleton_self _)

end Lib.Percent
