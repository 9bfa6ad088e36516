import Vyuh.Lib.Base64
import Vyuh.Lib.Coding

/-! Texts sealed under a key, and tokens that carry the nonce in front of the sealed text. A token may be
    opened with any of several keys; the first one that opens it decides. -/

namespace Lib

/-- An authenticated cipher with keys `κ`; it takes a key, a nonce and a text, and may refuse to seal. -/
structure Cipher (κ : Type) where
  sealText : κ → List UInt8 → List UInt8 → Option (List UInt8)
  openText : κ → List UInt8 → List UInt8 → Option (List UInt8)

namespace Cipher

variable {κ : Type} {cipher : Cipher κ} {tag : ℕ} {nonce text sealedText : List UInt8}

/-- What was sealed opens again, and is longer by the tag. -/
structure Lawful (cipher : Cipher κ) (tag : ℕ) : Prop where
  opens : ∀ {key nonce text sealedText}, cipher.sealText key nonce text = some sealedText →
    cipher.openText key nonce sealedText = some text
  length : ∀ {key nonce text sealedText}, cipher.sealText key nonce text = some sealedText →
    sealedText.length = text.length + tag

/-- None of the keys opens a text sealed under `active` as another one. -/
def Faithful (cipher : Cipher κ) (active : κ) (keys : List κ) : Prop :=
  ∀ key ∈ keys, ∀ nonce text sealedText found, cipher.sealText active nonce text = some sealedText →
    cipher.openText key nonce sealedText = some found → found = text

/-- The text as the first key that fits opens it. -/
def openWith (cipher : Cipher κ) (keys : List κ) (nonce sealedText : List UInt8) :
    Option (List UInt8) :=
  keys.findSome? fun key => cipher.openText key nonce sealedText

theorem openWith_sealed (hlawful : cipher.Lawful tag) {active : κ} {keys : List κ}
    (hfaithful : cipher.Faithful active keys) (hactive : active ∈ keys)
    (hsealed : cipher.sealText active nonce text = some sealedText) :
    cipher.openWith keys nonce sealedText = some text := by
  cases hfound : cipher.openWith keys nonce sealedText with
  | none =>
    have hclosed := List.findSome?_eq_none_iff.mp hfound active hactive
    rw [hlawful.opens hsealed] at hclosed
    exact (nomatch hclosed)
  | some found =>
    obtain ⟨key, hkey, hopened⟩ := List.exists_of_findSome?_eq_some hfound
    rw [hfaithful key hkey nonce text sealedText found hsealed hopened]

/-- A cipher that hides nothing; the tag repeats the key. -/
def tagged (tag : ℕ) : Cipher UInt8 where
  sealText key _ text := some (text ++ List.replicate tag key)
  openText key _ sealedText :=
    if sealedText.drop (sealedText.length - tag) = List.replicate tag key then
      some (sealedText.take (sealedText.length - tag))
    else none

theorem take_drop_tagged (text tagText : List UInt8) :
    (text ++ tagText).take ((text ++ tagText).length - tagText.length) = text ∧
      (text ++ tagText).drop ((text ++ tagText).length - tagText.length) = tagText := by
  rw [List.length_append, Nat.add_sub_cancel]
  exact ⟨List.take_left, List.drop_left⟩

theorem lawful_tagged (tag : ℕ) : (tagged tag).Lawful tag where
  opens {key nonce text sealedText} h := by
    cases h
    have hsplit := take_drop_tagged text (List.replicate tag key)
    rw [List.length_replicate] at hsplit
    simp only [tagged]
    rw [if_pos hsplit.2, hsplit.1]
  length {key nonce text sealedText} h := by
    cases h
    rw [List.length_append, List.length_replicate]

theorem faithful_tagged (tag : ℕ) (active : UInt8) (keys : List UInt8) :
    (tagged tag).Faithful active keys := by
  intro key _ nonce text sealedText found hsealed hopened
  cases hsealed
  have hsplit := take_drop_tagged text (List.replicate tag active)
  rw [List.length_replicate] at hsplit
  simp only [tagged] at hopened
  split at hopened
  · rw [hsplit.1] at hopened
    exact (Option.some.inj hopened).symm
  · exact nomatch hopened

end Cipher

/-! ### Tokens -/

/-- The token of a sealed text: its nonce in front, in Base64. -/
def sealedToken (nonce sealedText : List UInt8) : List Char := Base64.encode (nonce ++ sealedText)

/-- The nonce and the sealed text of a token that is longer than a nonce and a tag. -/
def splitToken (nonceLength tag : ℕ) (token : List Char) : Option (List UInt8 × List UInt8) := do
  let bytes ← Base64.decode token
  if bytes.length ≤ nonceLength + tag then none
  else some (bytes.take nonceLength, bytes.drop nonceLength)

theorem splitToken_sealedToken {nonce sealedText : List UInt8} {tag : ℕ} (h : tag < sealedText.length) :
    splitToken nonce.length tag (sealedToken nonce sealedText) = some (nonce, sealedText) := by
  simp only [splitToken, sealedToken, Base64.decode_encode, Option.bind_eq_bind, Option.bind_some]
  rw [if_neg (by rw [List.length_append]; omega), List.take_left, List.drop_left]

theorem length_sealedToken (nonce sealedText : List UInt8) :
    (sealedToken nonce sealedText).length = (4 * (nonce.length + sealedText.length) + 2) / 3 := by
  rw [sealedToken, Base64.length_encode, List.length_append]

theorem sum_ones {α : Type} {size : α → ℕ} : ∀ {l : List α}, (∀ a ∈ l, size a = 1) →
    (l.map size).sum = l.length
  | [], _ => rfl
  | a :: l, h => by
    rw [List.map_cons, List.sum_cons, h a List.mem_cons_self,
      sum_ones fun b hb => h b (List.mem_cons_of_mem a hb), List.length_cons, Nat.add_comm]

namespace Cipher

variable {κ : Type} {cipher : Cipher κ} {tag : ℕ} {active : κ} {nonce text sealedText : List UInt8}

/-- The token of a text that is not empty opens as that text. -/
theorem openWith_splitToken (hlawful : cipher.Lawful tag) {keys : List κ}
    (hfaithful : cipher.Faithful active keys) (hactive : active ∈ keys)
    (hsealed : cipher.sealText active nonce text = some sealedText) (hne : text ≠ []) :
    splitToken nonce.length tag (sealedToken nonce sealedText) = some (nonce, sealedText) ∧
      cipher.openWith keys nonce sealedText = some text := by
  have hpos := List.length_pos_iff.mpr hne
  have htag := hlawful.length hsealed
  exact ⟨splitToken_sealedToken (by omega), openWith_sealed hlawful hfaithful hactive hsealed⟩

end Cipher

/-- A token has as many bytes as characters. -/
theorem byteSize_sealedToken (nonce sealedText : List UInt8) :
    ((sealedToken nonce sealedText).map Char.utf8Size).sum = (sealedToken nonce sealedText).length :=
  sum_ones fun c hc => Base64.utf8Size_of_isAlphabet (Base64.isAlphabet_of_mem_encode _ c hc)

/-- A token is a third longer than the nonce, the text and the tag. -/
theorem Cipher.utf8ByteSize_token {κ : Type} {cipher : Cipher κ} {tag : ℕ} (hlawful : cipher.Lawful tag)
    {active : κ} {nonce text sealedText : List UInt8}
    (hsealed : cipher.sealText active nonce text = some sealedText) :
    (String.ofList (sealedToken nonce sealedText)).utf8ByteSize =
      (4 * (nonce.length + (text.length + tag)) + 2) / 3 := by
  rw [utf8ByteSize_ofList, byteSize_sealedToken, length_sealedToken, hlawful.length hsealed]

end Lib
