import Mathlib

/-! Base64 with the URL alphabet and without padding (RFC 4648 §5): three bytes are four characters, and
    the bits that a shorter last group leaves over are zero. -/

namespace Lib.Base64

/-- The character of a value below 64. -/
def charOf (n : ℕ) : Char :=
  if n < 26 then Char.ofNat (65 + n)
  else if n < 52 then Char.ofNat (71 + n)
  else if n < 62 then Char.ofNat (n - 4)
  else if n = 62 then '-'
  else '_'

def valueOf (c : Char) : Option ℕ :=
  if 65 ≤ c.toNat ∧ c.toNat ≤ 90 then some (c.toNat - 65)
  else if 97 ≤ c.toNat ∧ c.toNat ≤ 122 then some (c.toNat - 71)
  else if 48 ≤ c.toNat ∧ c.toNat ≤ 57 then some (c.toNat + 4)
  else if c = '-' then some 62
  else if c = '_' then some 63
  else none

def encode : List UInt8 → List Char
  | [] => []
  | [a] => [charOf (a.toNat / 4), charOf (a.toNat % 4 * 16)]
  | [a, b] =>
    [charOf (a.toNat / 4), charOf (a.toNat % 4 * 16 + b.toNat / 16), charOf (b.toNat % 16 * 4)]
  | a :: b :: c :: rest =>
    charOf (a.toNat / 4) :: charOf (a.toNat % 4 * 16 + b.toNat / 16) ::
      charOf (b.toNat % 16 * 4 + c.toNat / 64) :: charOf (c.toNat % 64) :: encode rest

def decode : List Char → Option (List UInt8)
  | [] => some []
  | [_] => none
  | [p, q] => do
    let p ← valueOf p
    let q ← valueOf q
    if q % 16 = 0 then some [UInt8.ofNat (p * 4 + q / 16)] else none
  | [p, q, r] => do
    let p ← valueOf p
    let q ← valueOf q
    let r ← valueOf r
    if r % 4 = 0 then some [UInt8.ofNat (p * 4 + q / 16), UInt8.ofNat (q % 16 * 16 + r / 4)] else none
  | p :: q :: r :: s :: rest => do
    let p ← valueOf p
    let q ← valueOf q
    let r ← valueOf r
    let s ← valueOf s
    let bytes ← decode rest
    some (UInt8.ofNat (p * 4 + q / 16) :: UInt8.ofNat (q % 16 * 16 + r / 4) ::
      UInt8.ofNat (r % 4 * 64 + s) :: bytes)

/-- The characters of the alphabet. -/
def isAlphabet (c : Char) : Bool := (valueOf c).isSome

theorem valueOf_charOf : ∀ n < 64, valueOf (charOf n) = some n := by decide

theorem isAlphabet_charOf {n : ℕ} (h : n < 64) : isAlphabet (charOf n) = true := by
  rw [isAlphabet, valueOf_charOf n h, Option.isSome_some]

theorem ofNat_eq {byte : UInt8} {n : ℕ} (h : n = byte.toNat) : UInt8.ofNat n = byte := by
  rw [h, UInt8.ofNat_toNat]

theorem decode_encode (bytes : List UInt8) : decode (encode bytes) = some bytes := by
  fun_induction encode bytes with
  | case1 => rfl
  | case2 a =>
    have ha := a.toNat_lt
    simp only [decode, valueOf_charOf _ (show a.toNat / 4 < 64 by omega),
      valueOf_charOf _ (show a.toNat % 4 * 16 < 64 by omega), Option.bind_eq_bind, Option.bind_some]
    rw [if_pos (by omega), ofNat_eq (show _ = a.toNat by omega)]
  | case3 a b =>
    have ha := a.toNat_lt
    have hb := b.toNat_lt
    simp only [decode, valueOf_charOf _ (show a.toNat / 4 < 64 by omega),
      valueOf_charOf _ (show a.toNat % 4 * 16 + b.toNat / 16 < 64 by omega),
      valueOf_charOf _ (show b.toNat % 16 * 4 < 64 by omega), Option.bind_eq_bind, Option.bind_some]
    rw [if_pos (by omega), ofNat_eq (show _ = a.toNat by omega), ofNat_eq (show _ = b.toNat by omega)]
  | case4 a b c rest ih =>
    have ha := a.toNat_lt
    have hb := b.toNat_lt
    have hc := c.toNat_lt
    simp only [decode, valueOf_charOf _ (show a.toNat / 4 < 64 by omega),
      valueOf_charOf _ (show a.toNat % 4 * 16 + b.toNat / 16 < 64 by omega),
      valueOf_charOf _ (show b.toNat % 16 * 4 + c.toNat / 64 < 64 by omega),
      valueOf_charOf _ (show c.toNat % 64 < 64 by omega), ih, Option.bind_eq_bind, Option.bind_some]
    rw [ofNat_eq (show _ = a.toNat by omega), ofNat_eq (show _ = b.toNat by omega),
      ofNat_eq (show _ = c.toNat by omega)]

/-- Four characters for three bytes, rounded up. -/
theorem length_encode (bytes : List UInt8) : (encode bytes).length = (4 * bytes.length + 2) / 3 := by
  fun_induction encode bytes with
  | case1 => rfl
  | case2 => simp
  | case3 => simp
  | case4 a b c rest ih =>
    simp only [List.length_cons, ih]
    omega

theorem isAlphabet_of_mem_encode (bytes : List UInt8) : ∀ c ∈ encode bytes, isAlphabet c = true := by
  fun_induction encode bytes with
  | case1 => exact fun _ hmem => (nomatch hmem)
  | case2 a =>
    have ha := a.toNat_lt
    simp only [List.forall_mem_cons, List.not_mem_nil, false_imp_iff, implies_true, and_true]
    exact ⟨isAlphabet_charOf (by omega), isAlphabet_charOf (by omega)⟩
  | case3 a b =>
    have ha := a.toNat_lt
    have hb := b.toNat_lt
    simp only [List.forall_mem_cons, List.not_mem_nil, false_imp_iff, implies_true, and_true]
    exact ⟨isAlphabet_charOf (by omega), isAlphabet_charOf (by omega), isAlphabet_charOf (by omega)⟩
  | case4 a b c rest ih =>
    have ha := a.toNat_lt
    have hb := b.toNat_lt
    have hc := c.toNat_lt
    simp only [List.forall_mem_cons]
    exact ⟨isAlphabet_charOf (by omega), isAlphabet_charOf (by omega), isAlphabet_charOf (by omega),
      isAlphabet_charOf (by omega), ih⟩

/-- The alphabet is ASCII. -/
theorem utf8Size_of_isAlphabet {c : Char} (h : isAlphabet c = true) : c.utf8Size = 1 := by
  have hlow : c.toNat < 128 := by
    simp only [isAlphabet, valueOf] at h
    split at h
    · omega
    split at h
    · omega
    split at h
    · omega
    split at h
    next hdash => rw [hdash]; decide
    split at h
    next hunder => rw [hunder]; decide
    exact (nomatch h)
  rw [Char.utf8Size_eq_one_iff, UInt32.le_iff_toNat_le]
  exact Nat.le_of_lt_succ hlow

end Lib.Base64
