import Mathlib
import Vyuh.Console.Logs.Walk

/-! One line, block by block. A `Piece` is a line of the file up to its newline, or what is left of one.
    Going back over it, the reader holds the bytes from some point of it on (`Held`); whole blocks of it
    are added until it is too long, and the block with its beginning ends the walk. -/

namespace Vyuh.Console.Logs

/-- A piece of a file: after `front`, which ends a line if it is not empty, come bytes without a newline,
    and the newline unless the piece is cut off. -/
structure Piece (file front bytes ending : List UInt8) : Prop where
  text : front ++ (bytes ++ ending) <+: file
  clean : newline ∉ bytes
  opens : front = [] ∨ ∃ before, front = before ++ [newline]
  ends : ending = [] ∨ ending = [newline]

/-- Walks with the same line and the same offset after it. -/
def Alike (first second : LineRead × ℕ × ℕ) : Prop := first.1 = second.1 ∧ first.2.1 = second.2.1

/-- The reader holds a piece from position `rest` on. -/
structure Held (bytes ending : List UInt8) (rest : ℕ) (parts : List (List UInt8)) : Prop where
  flatten : parts.flatten = bytes.drop rest
  first : parts = [] → rest = bytes.length + ending.length
  further : parts ≠ [] → rest ≤ bytes.length

/-! ### Newlines in a block -/

theorem rposition_none {block : List UInt8} (h : newline ∉ block) : rposition block = none := by
  rw [rposition, Option.map_eq_none_iff, List.findIdx?_eq_none_iff]
  intro byte hbyte
  refine decide_eq_false fun heq => h ?_
  rw [← heq]
  exact List.mem_reverse.mp hbyte

theorem rposition_append {before after : List UInt8} (h : newline ∉ after) :
    rposition (before ++ newline :: after) = some before.length := by
  have hnone : after.reverse.findIdx? (· = newline) = none := by
    rw [List.findIdx?_eq_none_iff]
    intro byte hbyte
    refine decide_eq_false fun heq => h ?_
    rw [← heq]
    exact List.mem_reverse.mp hbyte
  rw [rposition, List.reverse_append, List.reverse_cons, List.append_assoc, List.findIdx?_append, hnone]
  simp [List.findIdx?_cons]

/-! ### The block before a stop -/

section

variable {file front bytes ending : List UInt8} {parts : List (List UInt8)} {rest : ℕ}

theorem Held.rest_le (h : Held bytes ending rest parts) : rest ≤ bytes.length + ending.length := by
  by_cases hparts : parts = []
  · exact (h.first hparts).le
  · exact (h.further hparts).trans (Nat.le_add_right _ _)

theorem Piece.blockBefore (h : Piece file front bytes ending) (hrest : rest ≤ bytes.length + ending.length) :
    blockBefore file (front.length + rest) =
      (front ++ (bytes ++ ending).take rest).drop (blockStart (front.length + rest)) := by
  obtain ⟨after, htext⟩ := h.text
  have htake : file.take (front.length + rest) = front ++ (bytes ++ ending).take rest := by
    rw [← htext, List.take_append_of_le_length (by simp; omega), List.take_length_add_append]
  rw [Logs.blockBefore, ← htake, List.drop_take]

/-- What the reader looks at: the block, without the newline that ends the line. -/
theorem Piece.trimBlock (h : Piece file front bytes ending) (hheld : Held bytes ending rest parts)
    (hpos : parts = [] → 0 < rest) :
    trimBlock parts (Logs.blockBefore file (front.length + rest)) =
      (front ++ bytes.take rest).drop (blockStart (front.length + rest)) := by
  have hblock := h.blockBefore hheld.rest_le
  rw [hblock]
  by_cases hparts : parts = []
  · -- the first block: all of the piece is behind the stop
    have hrest := hheld.first hparts
    have hlt : blockStart (front.length + rest) < front.length + rest :=
      blockStart_lt (by have := hpos hparts; omega)
    rw [List.take_of_length_le (by simp; omega), List.take_of_length_le (by omega : bytes.length ≤ rest)]
    subst hparts
    rcases h.ends with rfl | rfl
    · have hbytes : bytes ≠ [] := by
        rintro rfl
        have := hpos rfl
        simp only [List.length_nil] at hrest
        omega
      have hlast : ((front ++ bytes).drop (blockStart (front.length + rest))).getLast? ≠ some newline := by
        rw [List.getLast?_drop, if_neg (by simp at hrest ⊢; omega), List.getLast?_append_of_ne_nil _ hbytes]
        exact fun hlast => h.clean (List.mem_of_getLast? hlast)
      rw [List.append_nil, Logs.trimBlock, if_neg (by simpa using hlast)]
    · rw [← List.append_assoc, List.drop_append_of_le_length (by simp at hrest ⊢; omega), Logs.trimBlock,
        if_pos (by simp), List.dropLast_concat]
  · rw [List.take_append_of_le_length (hheld.further hparts), Logs.trimBlock, if_neg (by simp [hparts])]

/-- Holding one more block of the piece. -/
theorem Held.grow (h : Held bytes ending rest parts) {rest' : ℕ} (hle : rest' ≤ rest)
    (hbytes : rest' ≤ bytes.length) : Held bytes ending rest' ((bytes.take rest).drop rest' :: parts) where
  flatten := by
    rw [List.flatten_cons, h.flatten, ← List.drop_append_of_le_length (by simp; omega), List.take_append_drop]
  first := fun hparts => (nomatch hparts)
  further := fun _ => hbytes

end

/-! ### Steps of the walk -/

section

variable {file front bytes ending : List UInt8} {parts : List (List UInt8)} {rest fuel : ℕ}

/-- The next block lies in the piece: it is added, unless the line is too long with it. -/
theorem Piece.step_inside (h : Piece file front bytes ending) (hheld : Held bytes ending rest parts)
    {rest' length length' : ℕ} (hrest : rest = rest' + blockBytes) (hbytes : rest' ≤ bytes.length)
    (hlength : length = bytes.length - rest) (hlength' : length' = bytes.length - rest') :
    Alike (walkLine file (fuel + 1) (front.length + rest) parts length)
      (if length' > maxLineBytes then (.skip, front.length + rest', 0)
      else walkLine file fuel (front.length + rest') ((bytes.take rest).drop rest' :: parts) length') := by
  have hblock : 0 < blockBytes := by decide
  have hstart : blockStart (front.length + rest) = front.length + rest' := by
    rw [blockStart]
    omega
  have htrim := h.trimBlock hheld fun _ => by omega
  rw [hstart, List.drop_length_add_append] at htrim
  have hnone : rposition ((bytes.take rest).drop rest') = none :=
    rposition_none fun hmem => h.clean (List.mem_of_mem_take (List.mem_of_mem_drop hmem))
  have hadd : length + ((bytes.take rest).drop rest').length = length' := by
    rw [List.length_drop, List.length_take]
    omega
  rw [walkLine, if_neg (by omega), scanBlock_eq, htrim, hnone, hstart]
  simp only [hadd]
  by_cases hlong : length' > maxLineBytes
  · simp only [if_pos hlong, Alike, and_self]
  · simp only [if_neg hlong, Alike, and_self]

/-- The next block holds the newline in front of the piece: the line is complete, and its length is taken
    to be what was read before and what the block holds up to that newline. -/
theorem Piece.step_head (h : Piece file front bytes ending) (hheld : Held bytes ending rest parts)
    (hpos : parts = [] → 0 < rest) (hfront : front ≠ []) (hrest : rest < blockBytes) :
    Alike (walkLine file (fuel + 1) (front.length + rest) parts (bytes.length - rest))
      (if bytes.length - rest + min front.length (blockBytes - rest) > maxLineBytes then .skip
        else .data front.length bytes, front.length, 0) := by
  obtain ⟨before, rfl⟩ := h.opens.resolve_left hfront
  have htrim := h.trimBlock hheld hpos
  have hlen : (before ++ [newline]).length = before.length + 1 := by simp
  have hstart : blockStart (before.length + 1 + rest) ≤ before.length := by
    rw [blockStart]
    omega
  rw [hlen] at htrim ⊢
  rw [List.append_assoc, List.singleton_append, List.drop_append_of_le_length hstart] at htrim
  have hclean : newline ∉ bytes.take rest := fun hmem => h.clean (List.mem_of_mem_take hmem)
  rw [walkLine, if_neg (by omega), scanBlock_eq, htrim, rposition_append hclean]
  have hindex : blockStart (before.length + 1 + rest) +
      (before.drop (blockStart (before.length + 1 + rest))).length + 1 = before.length + 1 := by
    rw [List.length_drop]
    omega
  have hdrop : (before.drop (blockStart (before.length + 1 + rest)) ++ newline :: bytes.take rest).drop
      ((before.drop (blockStart (before.length + 1 + rest))).length + 1) = bytes.take rest := by
    rw [List.drop_length_add_append]
    rfl
  have htake : ((before.drop (blockStart (before.length + 1 + rest)) ++ newline :: bytes.take rest).take
      ((before.drop (blockStart (before.length + 1 + rest))).length + 1)).length =
      min (before.length + 1) (blockBytes - rest) := by
    rw [List.length_take, List.length_append, List.length_drop, blockStart, List.length_cons]
    omega
  simp only [hindex, hdrop, htake]
  refine ⟨?_, rfl⟩
  simp only [joinLine, List.isEmpty_cons, Bool.false_eq_true, if_false, List.flatten_cons, hheld.flatten,
    List.take_append_drop]

theorem walkLine_zero (file : List UInt8) (fuel length : ℕ) (parts : List (List UInt8)) :
    walkLine file fuel 0 parts length = (joinLine 0 parts length, 0, 0) := by
  cases fuel with
  | zero => rfl
  | succ fuel => rw [walkLine, if_pos rfl]

theorem Held.join (h : Held bytes ending 0 parts) (hparts : parts ≠ []) (length : ℕ) :
    joinLine 0 parts length = if length > maxLineBytes then .skip else .data 0 bytes := by
  rw [joinLine, if_neg (by simpa using hparts), h.flatten, List.drop_zero]

/-- The next block begins with the file, and so does the piece. -/
theorem Piece.step_start (h : Piece file [] bytes ending) (hheld : Held bytes ending rest parts)
    {length : ℕ} (hpos : 0 < rest) (hrest : rest ≤ blockBytes) (hlength : length = bytes.length - rest) :
    Alike (walkLine file (fuel + 1) rest parts length)
      (if bytes.length > maxLineBytes then .skip else .data 0 bytes, 0, 0) := by
  have hstart : blockStart rest = 0 := by
    rw [blockStart]
    omega
  have htrim := h.trimBlock hheld fun _ => hpos
  rw [List.length_nil, Nat.zero_add, hstart, List.drop_zero, List.nil_append] at htrim
  have hnone : rposition (bytes.take rest) = none :=
    rposition_none fun hmem => h.clean (List.mem_of_mem_take hmem)
  have hadd : length + (bytes.take rest).length = bytes.length := by
    rw [List.length_take]
    omega
  have hgrown := hheld.grow (Nat.zero_le rest) (Nat.zero_le _)
  rw [List.drop_zero] at hgrown
  rw [walkLine, if_neg (by omega), scanBlock_eq, htrim, hnone, hstart]
  simp only [hadd]
  by_cases hlong : bytes.length > maxLineBytes
  · simp only [if_pos hlong, Alike, and_self]
  · simp only [if_neg hlong, walkLine_zero, hgrown.join (List.cons_ne_nil _ _), Alike, and_self]

/-- Up to four whole blocks of a piece are read without its being too long. -/
theorem Piece.reach (h : Piece file front bytes ending) : ∀ (k : ℕ), k ≤ 4 → ∀ {rest : ℕ},
    bytes.length + ending.length = rest + k * blockBytes →
    ∃ fuel parts, Held bytes ending rest parts ∧ (parts = [] → k = 0) ∧ front.length + rest ≤ fuel ∧
      Alike (nextLine file (front.length + (bytes.length + ending.length)))
        (walkLine file fuel (front.length + rest) parts (bytes.length - rest))
  | 0, _, rest, hrest => by
    rw [Nat.zero_mul, Nat.add_zero] at hrest
    subst hrest
    refine ⟨_, [], ⟨?_, fun _ => rfl, fun hparts => absurd rfl hparts⟩, fun _ => rfl, le_rfl, ?_⟩
    · rw [List.drop_of_length_le (Nat.le_add_right _ _)]
      rfl
    · rw [nextLine, Nat.sub_eq_zero_of_le (Nat.le_add_right _ _)]
      exact ⟨rfl, rfl⟩
  | k + 1, hk, rest, hrest => by
    have hmul : (k + 1) * blockBytes = k * blockBytes + blockBytes := by rw [Nat.add_mul, Nat.one_mul]
    have hmax : (k + 1) * blockBytes ≤ 4 * blockBytes := Nat.mul_le_mul_right blockBytes hk
    have hfour : maxLineBytes = 4 * blockBytes := rfl
    have hblock : 0 < blockBytes := by decide
    have hending : ending.length ≤ 1 := by
      rcases h.ends with rfl | rfl
      · exact Nat.zero_le 1
      · exact le_rfl
    obtain ⟨fuel, parts, hheld, -, hfuel, hwalk⟩ := Piece.reach h k (by omega)
      (show bytes.length + ending.length = rest + blockBytes + k * blockBytes by omega)
    obtain ⟨fuel, rfl⟩ := Nat.exists_eq_succ_of_ne_zero (show fuel ≠ 0 by omega)
    have hbytes : rest ≤ bytes.length := by omega
    have hstep := @Piece.step_inside file front bytes ending parts (rest + blockBytes) fuel h hheld rest
      (bytes.length - (rest + blockBytes)) (bytes.length - rest) rfl hbytes rfl rfl
    rw [if_neg (by omega)] at hstep
    exact ⟨fuel, (bytes.take (rest + blockBytes)).drop rest :: parts,
      hheld.grow (Nat.le_add_right _ _) hbytes, fun hparts => absurd hparts (List.cons_ne_nil _ _), by omega,
      hwalk.1.trans hstep.1, hwalk.2.trans hstep.2⟩

/-- What a line of fewer than five blocks is taken to measure: at the start of the file its length, else
    the whole blocks behind its first, and what that one holds up to the newline in front of the line. -/
def charge (start size whole : ℕ) : ℕ :=
  if start = 0 then size else size - whole % blockBytes + min start (blockBytes - whole % blockBytes)

/-- A piece of five blocks or more is cut off at the fifth. -/
theorem Piece.nextLine_long (h : Piece file front bytes ending) {rest : ℕ}
    (hrest : bytes.length + ending.length = rest + 5 * blockBytes) :
    ∃ cost, nextLine file (front.length + (bytes.length + ending.length)) =
      (.skip, front.length + rest, cost) := by
  have hblock : 1 < blockBytes := by decide
  have hmax : maxLineBytes = 4 * blockBytes := rfl
  have hending : ending.length ≤ 1 := by
    rcases h.ends with rfl | rfl
    · exact Nat.zero_le 1
    · exact le_rfl
  obtain ⟨fuel, parts, hheld, -, hfuel, hwalk⟩ := h.reach 4 le_rfl
    (show bytes.length + ending.length = rest + blockBytes + 4 * blockBytes by omega)
  obtain ⟨fuel, rfl⟩ := Nat.exists_eq_succ_of_ne_zero (show fuel ≠ 0 by omega)
  have hstep := @Piece.step_inside file front bytes ending parts (rest + blockBytes) fuel h hheld rest
    (bytes.length - (rest + blockBytes)) (bytes.length - rest) rfl (by omega) rfl rfl
  rw [if_pos (by omega)] at hstep
  refine ⟨(nextLine file (front.length + (bytes.length + ending.length))).2.2, ?_⟩
  exact Prod.ext (hwalk.1.trans hstep.1) (Prod.ext (hwalk.2.trans hstep.2) rfl)

/-- A shorter piece is read to its beginning. -/
theorem Piece.nextLine_short (h : Piece file front bytes ending)
    (hpos : 0 < bytes.length + ending.length) (hshort : bytes.length + ending.length < 5 * blockBytes) :
    ∃ cost, nextLine file (front.length + (bytes.length + ending.length)) =
      (if charge front.length bytes.length (bytes.length + ending.length) > maxLineBytes then .skip
        else .data front.length bytes, front.length, cost) := by
  have hblock : 0 < blockBytes := by decide
  have hdiv : (bytes.length + ending.length) / blockBytes ≤ 4 :=
    Nat.le_of_lt_succ (Nat.div_lt_of_lt_mul (by omega))
  have hsplit : bytes.length + ending.length = (bytes.length + ending.length) % blockBytes +
      (bytes.length + ending.length) / blockBytes * blockBytes := by
    rw [Nat.mul_comm]
    exact (Nat.mod_add_div _ _).symm
  have hmod := Nat.mod_lt (bytes.length + ending.length) hblock
  obtain ⟨fuel, parts, hheld, hparts, hfuel, hwalk⟩ := h.reach _ hdiv hsplit
  refine ⟨(nextLine file (front.length + (bytes.length + ending.length))).2.2, ?_⟩
  have hpartsPos : parts = [] → 0 < (bytes.length + ending.length) % blockBytes := by
    intro hnil
    rw [hparts hnil, Nat.zero_mul] at hsplit
    omega
  suffices hlast : Alike (walkLine file fuel (front.length + (bytes.length + ending.length) % blockBytes) parts
      (bytes.length - (bytes.length + ending.length) % blockBytes))
      (if charge front.length bytes.length (bytes.length + ending.length) > maxLineBytes then .skip
        else .data front.length bytes, front.length, 0) from
    Prod.ext (hwalk.1.trans hlast.1) (Prod.ext (hwalk.2.trans hlast.2) rfl)
  by_cases hfront : front = []
  · subst hfront
    rw [charge, List.length_nil, if_pos rfl, Nat.zero_add]
    rcases Nat.eq_zero_or_pos ((bytes.length + ending.length) % blockBytes) with hzero | hrest
    · rw [hzero] at hheld hpartsPos ⊢
      have hne : parts ≠ [] := fun hnil => (hpartsPos hnil).false
      rw [walkLine_zero, hheld.join hne, Nat.sub_zero]
      exact ⟨rfl, rfl⟩
    · obtain ⟨fuel, rfl⟩ := Nat.exists_eq_succ_of_ne_zero (show fuel ≠ 0 by omega)
      exact h.step_start hheld hrest hmod.le rfl
  · have hlen := List.length_pos_iff.mpr hfront
    obtain ⟨fuel, rfl⟩ := Nat.exists_eq_succ_of_ne_zero (show fuel ≠ 0 by omega)
    have hcharge : charge front.length bytes.length (bytes.length + ending.length) =
        bytes.length - (bytes.length + ending.length) % blockBytes +
          min front.length (blockBytes - (bytes.length + ending.length) % blockBytes) := by
      rw [charge, if_neg (by omega)]
    rw [hcharge]
    exact h.step_head hheld hpartsPos hfront hmod

end

end Vyuh.Console.Logs
