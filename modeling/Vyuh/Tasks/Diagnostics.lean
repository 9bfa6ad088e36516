import Vyuh.Tasks.Envelope

/-! What a shortened diagnostic keeps. No byte of a message takes more than six bytes of its JSON text,
    so a round of `failure` that drops a sixth of the excess drops only prefixes that do not fit: the
    message kept at the end is the longest one that does. -/

namespace Vyuh.Tasks
open Lib

/-- Bytes of the envelope around a message. -/
def envelopeSize (id : TaskId) (message : List Char) : ℕ := (failureText id message).utf8ByteSize

theorem byteSize_append (a b : List Char) : byteSize (a ++ b) = byteSize a + byteSize b := by
  rw [byteSize, List.map_append, List.sum_append]
  rfl

theorem byteSize_cons (c : Char) (text : List Char) : byteSize (c :: text) = c.utf8Size + byteSize text := rfl

theorem hexDigit_size (n : ℕ) : (hexDigit n).utf8Size = 1 := by
  have hsmall : ∀ n < 16, (hexDigit n).utf8Size = 1 := by decide
  by_cases hn : n < 16
  · exact hsmall n hn
  · have hlength : "0123456789abcdef".toList.length = 16 := by decide
    have hnone : "0123456789abcdef".toList[n]? = none := List.getElem?_eq_none (by omega)
    rw [hexDigit, List.getD_eq_getElem?_getD, hnone]
    rfl

/-- One character takes at most six bytes of JSON text for each byte of its own. -/
theorem escapeChar_le (c : Char) : byteSize (escapeChar c) ≤ 6 * c.utf8Size := by
  have hpos := c.utf8Size_pos
  have hpair : ∀ a b : Char, a.utf8Size = 1 → b.utf8Size = 1 → byteSize [a, b] ≤ 6 * c.utf8Size := by
    intro a b ha hb
    rw [byteSize_cons, byteSize_cons, ha, hb]
    change 1 + (1 + 0) ≤ _
    omega
  rw [escapeChar]
  split_ifs
  iterate 7 exact hpair _ _ rfl rfl
  · -- the long form of a control character
    have hbackslash : Char.utf8Size '\\' = 1 := rfl
    have hletter : Char.utf8Size 'u' = 1 := rfl
    have hzero : Char.utf8Size '0' = 1 := rfl
    simp only [byteSize_cons, hexDigit_size, hbackslash, hletter, hzero]
    change 1 + (1 + (1 + (1 + (1 + (1 + 0))))) ≤ _
    omega
  · rw [byteSize_cons]
    change _ + 0 ≤ _
    omega

theorem flatMap_escapeChar_le : ∀ text : List Char,
    byteSize (text.flatMap escapeChar) ≤ 6 * byteSize text
  | [] => Nat.le_refl 0
  | c :: text => by
    have hc := escapeChar_le c
    have ih := flatMap_escapeChar_le text
    rw [List.flatMap_cons, byteSize_append, byteSize_cons]
    omega

theorem envelopeSize_eq (id : TaskId) (message : List Char) :
    envelopeSize id message = id.render.utf8ByteSize + byteSize (message.flatMap escapeChar) + 35 := by
  have hquoted : byteSize (jsonString message) = byteSize (message.flatMap escapeChar) + 2 := by
    rw [jsonString, byteSize_append, byteSize_cons]
    change 1 + _ + 1 = _
    omega
  rw [envelopeSize, failureText_size, hquoted]
  omega

/-- An envelope grows by at most six bytes for each byte added to its message. -/
theorem envelopeSize_append (id : TaskId) (kept rest : List Char) :
    envelopeSize id (kept ++ rest) ≤ envelopeSize id kept + 6 * byteSize rest := by
  have hrest := flatMap_escapeChar_le rest
  rw [envelopeSize_eq, envelopeSize_eq, List.flatMap_append, byteSize_append]
  omega

/-! ### Cutting a text -/

theorem takeBytes_front : ∀ (limit : ℕ) (text : List Char), takeBytes limit text <+: text
  | limit, [] => List.nil_prefix
  | limit, c :: text => by
    rw [takeBytes]
    split
    · exact List.cons_prefix_cons.mpr ⟨rfl, takeBytes_front _ text⟩
    · exact List.nil_prefix

/-- A prefix that stays within the limit is kept by the cut. -/
theorem prefix_takeBytes : ∀ (limit : ℕ) (kept text : List Char), kept <+: text → byteSize kept ≤ limit →
    kept <+: takeBytes limit text
  | limit, [], text, _, _ => List.nil_prefix
  | limit, k :: kept, [], h, _ => absurd (List.prefix_nil.mp h) (List.cons_ne_nil _ _)
  | limit, k :: kept, c :: text, h, hsize => by
    obtain ⟨rfl, htail⟩ := List.cons_prefix_cons.mp h
    rw [byteSize_cons] at hsize
    rw [takeBytes, if_pos (by omega)]
    exact List.cons_prefix_cons.mpr ⟨rfl, prefix_takeBytes _ kept text htail (by omega)⟩

/-! ### The shortening loop -/

/-- The kept message is a prefix that fits, and every prefix that fits is a prefix of it. -/
structure Longest (id : TaskId) (message kept : List Char) : Prop where
  of : kept <+: message
  fits : envelopeSize id kept ≤ resultLimit
  longest : ∀ other, other <+: message → envelopeSize id other ≤ resultLimit → other <+: kept

/-- One round drops no prefix that fits. -/
theorem shorten_keeps (id : TaskId) {message other : List Char} (hother : other <+: message)
    (hfits : envelopeSize id other ≤ resultLimit) :
    other <+: takeBytes (byteSize message - (envelopeSize id message - resultLimit + 5) / 6) message := by
  refine prefix_takeBytes _ other message hother ?_
  obtain ⟨rest, rfl⟩ := hother
  have hgrows := envelopeSize_append id other rest
  rw [byteSize_append]
  omega

theorem failureLoop_longest (id : TaskId) : ∀ (fuel : ℕ) (message : List Char), byteSize message < fuel →
    ∃ kept, failureLoop id fuel message = failureText id kept ∧ Longest id message kept
  | 0, message, h => absurd h (Nat.not_lt_zero _)
  | fuel + 1, message, h => by
    rw [failureLoop]
    split
    · next hfits => exact ⟨message, rfl, List.prefix_rfl, hfits, fun _ hother _ => hother⟩
    · next hlong =>
      have hmessage : message ≠ [] := by
        rintro rfl
        exact hlong (failureText_nil id)
      have hpos := byteSize_pos hmessage
      have htake := takeBytes_le
        (byteSize message - ((failureText id message).utf8ByteSize - resultLimit + 5) / 6) message
      have hless : byteSize (takeBytes
          (byteSize message - ((failureText id message).utf8ByteSize - resultLimit + 5) / 6) message) < fuel := by
        omega
      obtain ⟨kept, hkept, hlongest⟩ := failureLoop_longest id fuel _ hless
      refine ⟨kept, hkept, hlongest.of.trans (takeBytes_front _ _), hlongest.fits, fun other hother hfits => ?_⟩
      exact hlongest.longest other (shorten_keeps id hother hfits) hfits

/-- CORRECT: a failure envelope fits, and its message is the whole message where that fits and otherwise
    the longest prefix, in whole characters, whose envelope does. -/
theorem failure_keeps_longest (id : TaskId) (message : String) :
    ∃ kept : List Char, failure id message = failureText id kept ∧
      (failure id message).utf8ByteSize ≤ resultLimit ∧
      kept <+: message.toList ∧
      ((failureText id message.toList).utf8ByteSize ≤ resultLimit → kept = message.toList) ∧
      ∀ other, other <+: message.toList → (failureText id other).utf8ByteSize ≤ resultLimit →
        other <+: kept ∧ byteSize other ≤ byteSize kept := by
  obtain ⟨kept, hkept, hlongest⟩ := failureLoop_longest id _ message.toList (Nat.lt_succ_self _)
  refine ⟨kept, hkept, ?_, hlongest.of, fun hfits => ?_, fun other hother hfits => ?_⟩
  · rw [failure, hkept]
    exact hlongest.fits
  · have hwhole := hlongest.longest _ List.prefix_rfl hfits
    exact hlongest.of.eq_of_length_le hwhole.length_le
  · have hkeeps := hlongest.longest other hother hfits
    refine ⟨hkeeps, ?_⟩
    obtain ⟨rest, rfl⟩ := hkeeps
    rw [byteSize_append]
    omega

end Vyuh.Tasks
