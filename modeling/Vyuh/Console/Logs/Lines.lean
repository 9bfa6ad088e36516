import Mathlib
import Vyuh.Console.Logs.Blocks

/-! The lines a reader yields when it is called until the end. `linesOf` says which lines a text has;
    `Readable` which of them the reader passes over or yields as it should. -/

namespace Vyuh.Console.Logs

/-- A line of a file: its bytes without its newline, where they begin, and where it stops, its newline
    included. -/
structure Line where
  start : ℕ
  stop : ℕ
  bytes : List UInt8
  deriving DecidableEq, Repr

/-- The lines of a text that goes on after `line`, which begins at `start`. -/
def linesFrom (start : ℕ) (line : List UInt8) : List UInt8 → List Line
  | [] => if line.isEmpty then [] else [⟨start, start + line.length, line⟩]
  | byte :: rest =>
    if byte = newline then
      ⟨start, start + line.length + 1, line⟩ :: linesFrom (start + line.length + 1) [] rest
    else linesFrom start (line ++ [byte]) rest

/-- The lines of a text. What stands after the last newline is a line unless it is empty. -/
def linesOf (text : List UInt8) : List Line := linesFrom 0 [] text

/-- What the reader is to yield: the lines in front of it, the last one first, but for those that are too
    long. -/
def FileReader.expected (reader : FileReader) : List Line :=
  ((linesOf (reader.file.take reader.offset)).filter fun line => line.bytes.length ≤ maxLineBytes).reverse

/-- Calls of `previous_line`, each with the budget it finds, until one reports the end: the lines they
    yield. A call without enough budget leaves the reader where it is. -/
inductive Reading : FileReader → List Line → Prop
  | finished {reader next : FileReader} {state state' : ScanState} :
    previousLine reader state = .ok (.finished, next, state') → Reading reader []
  | budget {reader next : FileReader} {state state' : ScanState} {lines : List Line} :
    previousLine reader state = .ok (.budget, next, state') → Reading next lines → Reading reader lines
  | skip {reader next : FileReader} {state state' : ScanState} {lines : List Line} :
    previousLine reader state = .ok (.skip, next, state') → Reading next lines → Reading reader lines
  | data {reader next : FileReader} {state state' : ScanState} {start : ℕ} {bytes : List UInt8}
    {lines : List Line} : previousLine reader state = .ok (.data start bytes, next, state') →
    Reading next lines → Reading reader (⟨start, reader.offset, bytes⟩ :: lines)

/-! ### Lines of a text -/

theorem linesFrom_clean {bytes : List UInt8} (h : newline ∉ bytes) (start : ℕ) (line : List UInt8) :
    linesFrom start line bytes =
      if (line ++ bytes).isEmpty then [] else [⟨start, start + (line ++ bytes).length, line ++ bytes⟩] := by
  induction bytes generalizing line with
  | nil => rw [linesFrom, List.append_nil]
  | cons byte rest ih =>
    obtain ⟨hbyte, hrest⟩ := not_or.mp (mt List.mem_cons.mpr h)
    rw [linesFrom, if_neg (Ne.symm hbyte), ih hrest, List.append_assoc, List.singleton_append]

theorem linesFrom_ended {bytes : List UInt8} (h : newline ∉ bytes) (start : ℕ) (line : List UInt8) :
    linesFrom start line (bytes ++ [newline]) =
      [⟨start, start + (line ++ bytes).length + 1, line ++ bytes⟩] := by
  induction bytes generalizing line with
  | nil =>
    rw [List.nil_append, linesFrom, if_pos rfl, List.append_nil]
    rfl
  | cons byte rest ih =>
    obtain ⟨hbyte, hrest⟩ := not_or.mp (mt List.mem_cons.mpr h)
    rw [List.cons_append, linesFrom, if_neg (Ne.symm hbyte), ih hrest, List.append_assoc,
      List.singleton_append]

/-- After a newline the lines begin anew. -/
theorem linesFrom_append (before rest : List UInt8) (start : ℕ) (line : List UInt8) :
    linesFrom start line ((before ++ [newline]) ++ rest) = linesFrom start line (before ++ [newline]) ++
      linesFrom (start + line.length + (before.length + 1)) [] rest := by
  induction before generalizing start line with
  | nil =>
    simp only [List.nil_append, List.singleton_append, linesFrom, if_pos, List.isEmpty_nil, List.length_nil]
  | cons byte before ih =>
    simp only [List.cons_append, linesFrom]
    split
    · rw [ih, List.cons_append, List.length_nil, List.length_cons]
      congr 3
      omega
    · rw [ih, List.length_append, List.length_singleton, List.length_cons]
      congr 2
      omega

/-- The last line of a text, after the others. -/
theorem linesOf_piece {file front bytes ending : List UInt8} (h : Piece file front bytes ending)
    (hpos : 0 < bytes.length + ending.length) :
    linesOf (front ++ (bytes ++ ending)) = linesOf front ++
      [⟨front.length, front.length + (bytes.length + ending.length), bytes⟩] := by
  have hlast : ∀ start, linesFrom start [] (bytes ++ ending) =
      [⟨start, start + (bytes.length + ending.length), bytes⟩] := by
    intro start
    rcases h.ends with rfl | rfl
    · have hne : bytes ≠ [] := by
        rintro rfl
        exact absurd hpos (Nat.lt_irrefl 0)
      rw [List.append_nil, linesFrom_clean h.clean, List.nil_append, if_neg (by simpa using hne)]
      rfl
    · rw [linesFrom_ended h.clean]
      rfl
  unfold linesOf
  rcases h.opens with rfl | ⟨before, rfl⟩
  · exact hlast 0
  · rw [linesFrom_append, hlast]
    simp

/-- A text that is not empty has a last line. -/
theorem exists_piece (text : List UInt8) (hne : text ≠ []) : ∃ front bytes ending,
    text = front ++ (bytes ++ ending) ∧ newline ∉ bytes ∧ (front = [] ∨ ∃ before, front = before ++ [newline]) ∧
      (ending = [] ∨ ending = [newline]) ∧ 0 < bytes.length + ending.length := by
  have hbody : ∀ body : List UInt8, ∃ front bytes, body = front ++ bytes ∧ newline ∉ bytes ∧
      (front = [] ∨ ∃ before, front = before ++ [newline]) := by
    intro body
    induction body using List.reverseRecOn with
    | nil => exact ⟨[], [], rfl, List.not_mem_nil, .inl rfl⟩
    | append_singleton body byte ih =>
      by_cases hbyte : byte = newline
      · exact ⟨body ++ [byte], [], (List.append_nil _).symm, List.not_mem_nil, .inr ⟨body, by rw [hbyte]⟩⟩
      · obtain ⟨front, bytes, rfl, hclean, hopens⟩ := ih
        refine ⟨front, bytes ++ [byte], List.append_assoc _ _ _, ?_, hopens⟩
        simp only [List.mem_append, List.mem_singleton, not_or]
        exact ⟨hclean, Ne.symm hbyte⟩
  obtain ⟨body, byte, rfl⟩ := (List.eq_nil_or_concat' text).resolve_left hne
  by_cases hbyte : byte = newline
  · obtain ⟨front, bytes, rfl, hclean, hopens⟩ := hbody body
    refine ⟨front, bytes, [newline], ?_, hclean, hopens, .inr rfl, Nat.succ_pos _⟩
    rw [hbyte, List.append_assoc]
  · obtain ⟨front, bytes, htext, hclean, hopens⟩ := hbody (body ++ [byte])
    refine ⟨front, bytes, [], ?_, hclean, hopens, .inl rfl, ?_⟩
    · rw [List.append_nil]
      exact htext
    · rcases hopens with rfl | ⟨before, rfl⟩
      · rw [List.nil_append] at htext
        rw [← htext]
        simp
      · refine Nat.pos_of_ne_zero fun hzero => ?_
        have hnil : bytes = [] := List.length_eq_zero_iff.mp (by simpa using hzero)
        rw [hnil, List.append_nil] at htext
        exact hbyte (List.singleton_inj.mp (List.append_inj' htext rfl).2)

/-! ### What the reader yields -/

/-- The lines read back from an offset, whatever the budgets. -/
inductive ReadBack (file : List UInt8) : ℕ → List Line → Prop
  | finished : ReadBack file 0 []
  | skip {offset next cost : ℕ} {lines : List Line} : nextLine file offset = (.skip, next, cost) →
    ReadBack file next lines → ReadBack file offset lines
  | data {offset start next cost : ℕ} {bytes : List UInt8} {lines : List Line} :
    nextLine file offset = (.data start bytes, next, cost) → ReadBack file next lines →
    ReadBack file offset (⟨start, offset, bytes⟩ :: lines)

section

variable {file : List UInt8} {offset : ℕ} {lines : List Line}

theorem ReadBack.of_zero (h : ReadBack file 0 lines) : lines = [] := by
  cases h with
  | finished => rfl
  | skip hline _ => exact (nomatch (nextLine_zero file).symm.trans hline)
  | data hline _ => exact (nomatch (nextLine_zero file).symm.trans hline)

theorem ReadBack.unique (h : ReadBack file offset lines) {lines' : List Line}
    (h' : ReadBack file offset lines') : lines = lines' := by
  induction h generalizing lines' with
  | finished => exact h'.of_zero.symm
  | skip hline _ ih =>
    cases h' with
    | finished => exact (nomatch (nextLine_zero file).symm.trans hline)
    | skip hline' hrest' =>
      cases hline.symm.trans hline'
      exact ih hrest'
    | data hline' _ => exact (nomatch hline.symm.trans hline')
  | data hline _ ih =>
    cases h' with
    | finished => exact (nomatch (nextLine_zero file).symm.trans hline)
    | skip hline' _ => exact (nomatch hline.symm.trans hline')
    | data hline' hrest' =>
      cases hline.symm.trans hline'
      rw [ih hrest']

/-- A read line stops at the offset it was read from, or before. -/
theorem ReadBack.stops (h : ReadBack file offset lines) (hoffset : offset ≤ file.length) :
    ∀ line ∈ lines, line.stop ≤ offset := by
  induction h with
  | finished => exact fun _ hmem => (nomatch hmem)
  | skip hline _ ih =>
    obtain ⟨-, hnext, -⟩ := nextLine_of_ne hoffset hline (nomatch ·)
    exact fun line hmem => (ih (hnext.le.trans hoffset) line hmem).trans hnext.le
  | data hline _ ih =>
    obtain ⟨-, hnext, -⟩ := nextLine_of_ne hoffset hline (nomatch ·)
    intro line hmem
    rcases List.mem_cons.mp hmem with rfl | hmem
    · exact le_rfl
    · exact (ih (hnext.le.trans hoffset) line hmem).trans hnext.le

end

/-- Calls that reach the end have read the file back. -/
theorem Reading.readBack {reader : FileReader} {lines : List Line} (h : Reading reader lines)
    (hoffset : reader.offset ≤ reader.file.length) : ReadBack reader.file reader.offset lines := by
  induction h with
  | @finished reader next state state' hread =>
    rcases hline : nextLine reader.file reader.offset with ⟨line, offset', cost⟩
    rcases previousLine_cases reader hoffset hline state with heq | ⟨-, left, heq⟩
    · cases heq.symm.trans hread
      have hzero : reader.offset = 0 := by
        by_contra hpos
        obtain ⟨_, _, _, hline', hgoes, -⟩ := nextLine_goes hoffset hpos
        cases hline.symm.trans hline'
        rcases hgoes with hskip | ⟨_, hdata⟩
        · exact (nomatch hskip)
        · exact (nomatch hdata)
      rw [hzero]
      exact .finished
    · exact (nomatch heq.symm.trans hread)
  | @budget reader next state state' lines hread _ ih =>
    rcases hline : nextLine reader.file reader.offset with ⟨line, offset', cost⟩
    rcases previousLine_cases reader hoffset hline state with heq | ⟨-, left, heq⟩
    · cases heq.symm.trans hread
      have hgoes := nextLine_of_ne hoffset hline (nomatch ·)
      rcases hgoes.1 with hskip | ⟨_, hdata⟩
      · exact (nomatch hskip)
      · exact (nomatch hdata)
    · cases heq.symm.trans hread
      exact ih hoffset
  | @skip reader next state state' lines hread _ ih =>
    rcases hline : nextLine reader.file reader.offset with ⟨line, offset', cost⟩
    rcases previousLine_cases reader hoffset hline state with heq | ⟨-, left, heq⟩
    · cases heq.symm.trans hread
      obtain ⟨-, hnext, -⟩ := nextLine_of_ne hoffset hline (nomatch ·)
      exact .skip hline (ih (hnext.le.trans hoffset))
    · exact (nomatch heq.symm.trans hread)
  | @data reader next state state' start bytes lines hread _ ih =>
    rcases hline : nextLine reader.file reader.offset with ⟨line, offset', cost⟩
    rcases previousLine_cases reader hoffset hline state with heq | ⟨-, left, heq⟩
    · cases heq.symm.trans hread
      obtain ⟨-, hnext, -⟩ := nextLine_of_ne hoffset hline (nomatch ·)
      exact .data hline (ih (hnext.le.trans hoffset))
    · exact (nomatch heq.symm.trans hread)

/-- A file is read back by calls with enough budget. -/
theorem ReadBack.reading {reader : FileReader} {lines : List Line} (hoffset : reader.offset ≤ reader.file.length)
    (h : ReadBack reader.file reader.offset lines) : Reading reader lines := by
  obtain ⟨source, name, file, offset⟩ := reader
  dsimp only at hoffset h
  induction h with
  | finished => exact @Reading.finished ⟨source, name, file, 0⟩ ⟨source, name, file, 0⟩ ⟨0, false⟩ ⟨0, false⟩ rfl
  | @skip offset next cost lines hline _ ih =>
    obtain ⟨-, hnext, -⟩ := nextLine_of_ne hoffset hline (nomatch ·)
    rcases previousLine_cases ⟨source, name, file, offset⟩ hoffset hline ⟨cost, false⟩ with heq | ⟨hlt, -⟩
    · exact .skip heq (ih (hnext.le.trans hoffset))
    · exact absurd hlt (Nat.lt_irrefl _)
  | @data offset start next cost bytes lines hline _ ih =>
    obtain ⟨-, hnext, -⟩ := nextLine_of_ne hoffset hline (nomatch ·)
    rcases previousLine_cases ⟨source, name, file, offset⟩ hoffset hline ⟨cost, false⟩ with heq | ⟨hlt, -⟩
    · exact .data heq (ih (hnext.le.trans hoffset))
    · exact absurd hlt (Nat.lt_irrefl _)

theorem reading_iff (reader : FileReader) (hoffset : reader.offset ≤ reader.file.length) (lines : List Line) :
    Reading reader lines ↔ ReadBack reader.file reader.offset lines :=
  ⟨fun h => h.readBack hoffset, fun h => h.reading hoffset⟩

/-! ### Pieces -/

/-- What is yielded of bytes from `start` on that are cut off at their end: they are cut down by five blocks
    at a time. -/
def cutLines (start : ℕ) (bytes : List UInt8) : List Line :=
  let size := bytes.length % (5 * blockBytes)
  if size = 0 ∨ charge start size size > maxLineBytes then []
  else [⟨start, start + size, bytes.take size⟩]

/-- What is yielded of a line. -/
def pieceLines (start : ℕ) (bytes ending : List UInt8) : List Line :=
  let whole := bytes.length + ending.length
  if whole < 5 * blockBytes then
    if charge start bytes.length whole > maxLineBytes then [] else [⟨start, start + whole, bytes⟩]
  else cutLines start (bytes.take (whole - 5 * blockBytes))

section

variable {file front bytes ending : List UInt8} {lines : List Line}

theorem Piece.cut (h : Piece file front bytes ending) (rest : ℕ) : Piece file front (bytes.take rest) [] where
  text := by
    refine List.IsPrefix.trans ?_ h.text
    rw [List.append_nil, List.prefix_append_right_inj]
    exact (List.take_prefix rest bytes).trans (List.prefix_append bytes ending)
  clean := fun hmem => h.clean (List.mem_of_mem_take hmem)
  opens := h.opens
  ends := .inl rfl

theorem Piece.readBack_cut (hfront : ReadBack file front.length lines) :
    ∀ (n : ℕ) {bytes : List UInt8}, bytes.length = n → Piece file front bytes [] →
      ReadBack file (front.length + bytes.length) (cutLines front.length bytes ++ lines) := by
  intro n
  induction n using Nat.strong_induction_on with
  | _ n ih =>
    rintro bytes rfl h
    have hblock : 1 < blockBytes := by decide
    rcases Nat.eq_zero_or_pos bytes.length with hzero | hpos
    · rw [cutLines, hzero, Nat.zero_mod]
      exact hfront
    rcases Nat.lt_or_ge bytes.length (5 * blockBytes) with hshort | hlong
    · obtain ⟨cost, hline⟩ := h.nextLine_short hpos hshort
      rw [List.length_nil, Nat.add_zero] at hline
      rw [cutLines, Nat.mod_eq_of_lt hshort]
      by_cases hcharge : charge front.length bytes.length bytes.length > maxLineBytes
      · rw [if_pos hcharge] at hline
        rw [if_pos (.inr hcharge)]
        exact .skip hline hfront
      · rw [if_neg hcharge] at hline
        rw [if_neg (by omega), List.take_length]
        exact .data hline hfront
    · obtain ⟨rest, hrest⟩ := Nat.exists_eq_add_of_le' hlong
      obtain ⟨cost, hline⟩ := @Piece.nextLine_long file front bytes [] h rest hrest
      rw [List.length_nil, Nat.add_zero] at hline
      have hlength : (bytes.take rest).length = rest := by
        rw [List.length_take]
        omega
      have hback := ih rest (by omega) hlength (h.cut rest)
      rw [hlength] at hback
      have hsize : bytes.length % (5 * blockBytes) = rest % (5 * blockBytes) := by
        rw [hrest, Nat.add_mod_right]
      have hsame : cutLines front.length (bytes.take rest) = cutLines front.length bytes := by
        rw [cutLines, cutLines, hlength, hsize, List.take_take, Nat.min_eq_left (Nat.mod_le _ _)]
      rw [hsame] at hback
      exact .skip hline hback

/-- A line is read back to its beginning. -/
theorem Piece.readBack (h : Piece file front bytes ending) (hpos : 0 < bytes.length + ending.length)
    (hfront : ReadBack file front.length lines) :
    ReadBack file (front.length + (bytes.length + ending.length))
      (pieceLines front.length bytes ending ++ lines) := by
  rw [pieceLines]
  by_cases hshort : bytes.length + ending.length < 5 * blockBytes
  · obtain ⟨cost, hline⟩ := h.nextLine_short hpos hshort
    rw [if_pos hshort]
    by_cases hcharge : charge front.length bytes.length (bytes.length + ending.length) > maxLineBytes
    · rw [if_pos hcharge] at hline ⊢
      exact .skip hline hfront
    · rw [if_neg hcharge] at hline ⊢
      exact .data hline hfront
  · obtain ⟨rest, hrest⟩ := Nat.exists_eq_add_of_le' (not_lt.mp hshort)
    obtain ⟨cost, hline⟩ := @Piece.nextLine_long file front bytes ending h rest hrest
    rw [if_neg hshort]
    have hblock : 1 < blockBytes := by decide
    have hending : ending.length ≤ 1 := by
      rcases h.ends with rfl | rfl
      · exact Nat.zero_le 1
      · exact le_rfl
    have hcut : bytes.length + ending.length - 5 * blockBytes = rest := by omega
    have hlength : (bytes.take rest).length = rest := by
      rw [List.length_take]
      omega
    have hback := Piece.readBack_cut hfront rest hlength (h.cut rest)
    rw [hlength] at hback
    rw [hcut]
    exact .skip hline hback

end

/-! ### Which lines are read as they should be -/

/-- The lines the reader yields or passes over as it should. Lines of less than four blocks are; so are, at
    the start of the file, those of less than five. A longer line is cut down by five blocks at a time, and
    what is left has to be nothing or too long again. Between four and five blocks the length of a line is
    mistaken by what stands in front of it in its first block. -/
def Line.Readable (line : Line) : Prop :=
  let whole := line.stop - line.start
  let left := whole % (5 * blockBytes)
  if line.start = 0 then whole < 5 * blockBytes ∨ left = 0 ∨ 4 * blockBytes < left
  else if 5 * blockBytes ≤ whole then left = 0 ∨ 4 * blockBytes ≤ left
  else if line.bytes.length = whole then whole ≠ 4 * blockBytes
  else if line.start = 1 then whole ≤ 4 * blockBytes + 1
  else whole < 4 * blockBytes ∨ 4 * blockBytes + 2 ≤ whole ∧ whole + 2 ≤ 5 * blockBytes

section

variable {start size whole : ℕ}

theorem charge_start (size whole : ℕ) : charge 0 size whole = size := if_pos rfl

/-- A line of less than four blocks is never taken to be too long. -/
theorem charge_short (hstart : start ≠ 0) (hsize : size ≤ whole) (hwhole : whole < 4 * blockBytes) :
    charge start size whole ≤ maxLineBytes := by
  have hmax : maxLineBytes = 4 * blockBytes := rfl
  have hdiv : whole / blockBytes ≤ 3 := Nat.le_of_lt_succ (Nat.div_lt_of_lt_mul (by omega))
  have hmul : blockBytes * (whole / blockBytes) ≤ blockBytes * 3 := Nat.mul_le_mul_left _ hdiv
  have hsplit := Nat.mod_add_div whole blockBytes
  rw [charge, if_neg hstart]
  omega

/-- Between four and five blocks. -/
theorem charge_long (hstart : start ≠ 0) {rest : ℕ} (hwhole : whole = rest + 4 * blockBytes)
    (hrest : rest < blockBytes) : charge start size whole = size - rest + min start (blockBytes - rest) := by
  have hmod : whole % blockBytes = rest := by
    rw [hwhole, Nat.add_mul_mod_self_right, Nat.mod_eq_of_lt hrest]
  rw [charge, if_neg hstart, hmod]

/-- What is left of a line that was cut off is passed over when it is nothing or too long again. -/
theorem cutLines_eq_nil (start : ℕ) (bytes : List UInt8) : cutLines start bytes = [] ↔
    if start = 0 then bytes.length % (5 * blockBytes) = 0 ∨ 4 * blockBytes < bytes.length % (5 * blockBytes)
    else bytes.length % (5 * blockBytes) = 0 ∨ 4 * blockBytes ≤ bytes.length % (5 * blockBytes) := by
  have hmax : maxLineBytes = 4 * blockBytes := rfl
  have hblock : 1 < blockBytes := by decide
  have hmod : bytes.length % (5 * blockBytes) < 5 * blockBytes := Nat.mod_lt _ (by omega)
  have hnil : cutLines start bytes = [] ↔ bytes.length % (5 * blockBytes) = 0 ∨
      charge start (bytes.length % (5 * blockBytes)) (bytes.length % (5 * blockBytes)) > maxLineBytes := by
    rw [cutLines]
    split
    · next h => exact iff_of_true rfl h
    · next h => exact iff_of_false (List.cons_ne_nil _ _) h
  rw [hnil]
  by_cases hstart : start = 0
  · subst hstart
    rw [if_pos rfl, charge_start, hmax]
  · rw [if_neg hstart]
    refine or_congr_right ?_
    rcases Nat.lt_or_ge (bytes.length % (5 * blockBytes)) (4 * blockBytes) with hlt | hge
    · exact iff_of_false (not_lt.mpr (charge_short hstart le_rfl hlt)) (not_le.mpr hlt)
    · obtain ⟨rest, hrest⟩ := Nat.exists_eq_add_of_le' hge
      rw [charge_long hstart hrest (by omega)]
      refine iff_of_true ?_ hge
      omega

end

/-- What is yielded of a line is right when the line is readable. -/
theorem pieceLines_eq_iff {start : ℕ} {bytes ending : List UInt8} (hends : ending = [] ∨ ending = [newline])
    (hpos : 0 < bytes.length + ending.length) :
    (pieceLines start bytes ending =
      if bytes.length ≤ maxLineBytes then [⟨start, start + (bytes.length + ending.length), bytes⟩] else []) ↔
      Line.Readable ⟨start, start + (bytes.length + ending.length), bytes⟩ := by
  have hmax : maxLineBytes = 4 * blockBytes := rfl
  have hblock : 2 < blockBytes := by decide
  have hending : ending.length ≤ 1 := by
    rcases hends with rfl | rfl
    · exact Nat.zero_le 1
    · exact le_rfl
  rw [Line.Readable, pieceLines]
  dsimp only
  rw [Nat.add_sub_cancel_left]
  generalize hwhole : bytes.length + ending.length = whole at hpos
  rcases Nat.lt_or_ge whole (5 * blockBytes) with hshort | hlong
  · have hyield : ((if charge start bytes.length whole > maxLineBytes then [] else
        [(⟨start, start + whole, bytes⟩ : Line)]) =
        if bytes.length ≤ maxLineBytes then [⟨start, start + whole, bytes⟩] else []) ↔
        (charge start bytes.length whole ≤ maxLineBytes ↔ bytes.length ≤ maxLineBytes) := by
      by_cases hcharge : charge start bytes.length whole ≤ maxLineBytes
      · rw [if_neg (not_lt.mpr hcharge), iff_true_left hcharge]
        by_cases hsize : bytes.length ≤ maxLineBytes <;> simp [hsize]
      · rw [if_pos (not_le.mp hcharge), iff_false_left hcharge]
        by_cases hsize : bytes.length ≤ maxLineBytes <;> simp [hsize]
    rw [if_pos hshort, hyield]
    by_cases hstart : start = 0
    · subst hstart
      rw [if_pos rfl, charge_start]
      exact iff_of_true Iff.rfl (.inl hshort)
    · rw [if_neg hstart, if_neg (not_le.mpr hshort)]
      rcases Nat.lt_or_ge whole (4 * blockBytes) with hlt | hge
      · have hcharge := charge_short hstart (by omega : bytes.length ≤ whole) hlt
        refine iff_of_true (iff_of_true hcharge (by omega)) ?_
        split
        · omega
        · split
          · omega
          · exact .inl hlt
      · obtain ⟨rest, hrest⟩ := Nat.exists_eq_add_of_le' hge
        rw [charge_long hstart hrest (by omega), hmax]
        split
        · omega
        · split
          · omega
          · -- only a newline just before the block leaves the length as it is
            have hsub : bytes.length - rest = 4 * blockBytes - 1 := by omega
            rw [hsub]
            constructor
            · intro hsame
              by_cases hsize : bytes.length ≤ 4 * blockBytes
              · have hcharge := hsame.mpr hsize
                omega
              · have hcharge := mt hsame.mp hsize
                omega
            · intro hread
              constructor
              · intro hcharge
                omega
              · intro hsize
                omega
  · rw [if_neg (not_lt.mpr hlong), if_neg (by omega), cutLines_eq_nil]
    have hlength : (bytes.take (whole - 5 * blockBytes)).length = whole - 5 * blockBytes := by
      rw [List.length_take]
      omega
    have hmod : (whole - 5 * blockBytes) % (5 * blockBytes) = whole % (5 * blockBytes) :=
      (Nat.mod_eq_sub_mod hlong).symm
    rw [hlength, hmod]
    by_cases hstart : start = 0
    · rw [if_pos hstart, if_pos hstart]
      exact (or_iff_right (not_lt.mpr hlong)).symm
    · rw [if_neg hstart, if_neg hstart, if_pos hlong]

/-! ### Whole files -/

/-- Lists that agree on each side of an offset. -/
theorem append_inj_of_stop {own own' rest rest' : List Line} (offset : ℕ)
    (hown : ∀ line ∈ own, offset < line.stop) (hown' : ∀ line ∈ own', offset < line.stop)
    (hrest : ∀ line ∈ rest, line.stop ≤ offset) (hrest' : ∀ line ∈ rest', line.stop ≤ offset) :
    own ++ rest = own' ++ rest' ↔ own = own' ∧ rest = rest' := by
  refine ⟨fun heq => ?_, fun ⟨hleft, hright⟩ => by rw [hleft, hright]⟩
  have hkeep : ∀ {front back : List Line}, (∀ line ∈ front, offset < line.stop) →
      (∀ line ∈ back, line.stop ≤ offset) →
      (front ++ back).filter (fun line => decide (offset < line.stop)) = front := by
    intro front back hfront hback
    rw [List.filter_append, List.filter_eq_self.mpr fun line hmem => decide_eq_true (hfront line hmem),
      List.filter_eq_nil_iff.mpr fun line hmem => by simpa using hback line hmem, List.append_nil]
  have hfirst : own = own' := by
    rw [← hkeep hown hrest, heq, hkeep hown' hrest']
  rw [hfirst] at heq
  exact ⟨hfirst, List.append_cancel_left heq⟩

theorem linesFrom_stops (text : List UInt8) (start : ℕ) (line : List UInt8) :
    ∀ found ∈ linesFrom start line text, found.stop ≤ start + line.length + text.length := by
  induction text generalizing start line with
  | nil =>
    intro found hmem
    rw [linesFrom] at hmem
    split at hmem
    · exact (nomatch hmem)
    · obtain rfl := List.mem_singleton.mp hmem
      exact le_rfl
  | cons byte rest ih =>
    intro found hmem
    rw [linesFrom] at hmem
    rw [List.length_cons]
    split at hmem
    · rcases List.mem_cons.mp hmem with rfl | hmem
      · dsimp only
        omega
      · have hstop := ih _ _ found hmem
        rw [List.length_nil] at hstop
        omega
    · have hstop := ih _ _ found hmem
      rw [List.length_append, List.length_singleton] at hstop
      omega

theorem cutLines_stops {start : ℕ} {bytes : List UInt8} : ∀ line ∈ cutLines start bytes, start < line.stop := by
  intro line hmem
  rw [cutLines] at hmem
  split at hmem
  · exact (nomatch hmem)
  · next hleft =>
    obtain rfl := List.mem_singleton.mp hmem
    dsimp only
    omega

theorem pieceLines_stops {start : ℕ} {bytes ending : List UInt8} (hpos : 0 < bytes.length + ending.length) :
    ∀ line ∈ pieceLines start bytes ending, start < line.stop := by
  intro line hmem
  rw [pieceLines] at hmem
  split at hmem
  · split at hmem
    · exact (nomatch hmem)
    · obtain rfl := List.mem_singleton.mp hmem
      dsimp only
      omega
  · exact cutLines_stops line hmem

/-- The lines of a text that are not too long, the last one first. -/
def shortLines (text : List UInt8) : List Line :=
  ((linesOf text).filter fun line => line.bytes.length ≤ maxLineBytes).reverse

theorem shortLines_stops (text : List UInt8) : ∀ line ∈ shortLines text, line.stop ≤ text.length := by
  intro line hmem
  have hline := List.mem_of_mem_filter (List.mem_reverse.mp hmem)
  have hstop := linesFrom_stops text 0 [] line hline
  rw [List.length_nil] at hstop
  omega

/-- A text is read back to its short lines when all its lines are readable. -/
theorem readBack_text {file : List UInt8} : ∀ (n : ℕ) {text : List UInt8}, text.length = n → text <+: file →
    ∃ lines, ReadBack file text.length lines ∧
      (lines = shortLines text ↔ ∀ line ∈ linesOf text, line.Readable) := by
  intro n
  induction n using Nat.strong_induction_on with
  | _ n ih =>
    rintro text rfl htext
    by_cases hne : text = []
    · subst hne
      exact ⟨[], .finished, iff_of_true rfl fun line hmem => (nomatch hmem)⟩
    obtain ⟨front, bytes, ending, rfl, hclean, hopens, hends, hpos⟩ := exists_piece text hne
    have h : Piece file front bytes ending := ⟨htext, hclean, hopens, hends⟩
    have hfront : front <+: file := (List.prefix_append _ _).trans htext
    have hlength : (front ++ (bytes ++ ending)).length = front.length + (bytes.length + ending.length) := by
      rw [List.length_append, List.length_append]
    obtain ⟨lines, hback, hiff⟩ := ih front.length (by omega) rfl hfront
    refine ⟨pieceLines front.length bytes ending ++ lines, hlength ▸ h.readBack hpos hback, ?_⟩
    have hshort : shortLines (front ++ (bytes ++ ending)) =
        (if bytes.length ≤ maxLineBytes then
          [⟨front.length, front.length + (bytes.length + ending.length), bytes⟩] else []) ++
        shortLines front := by
      rw [shortLines, linesOf_piece h hpos, List.filter_append, List.reverse_append, shortLines,
        List.filter_singleton]
      by_cases hsize : bytes.length ≤ maxLineBytes <;> simp [hsize]
    have hown : ∀ line ∈ (if bytes.length ≤ maxLineBytes then
        [(⟨front.length, front.length + (bytes.length + ending.length), bytes⟩ : Line)] else []),
        front.length < line.stop := by
      intro line hmem
      split at hmem
      · obtain rfl := List.mem_singleton.mp hmem
        dsimp only
        omega
      · exact (nomatch hmem)
    rw [hshort, append_inj_of_stop front.length (pieceLines_stops hpos) hown
      (hback.stops hfront.length_le) (shortLines_stops front), hiff, pieceLines_eq_iff hends hpos,
      linesOf_piece h hpos, and_comm]
    simp only [List.forall_mem_append, List.forall_mem_singleton]

/-- The calls yield one list of lines. -/
theorem reading_unique (reader : FileReader) (hoffset : reader.offset ≤ reader.file.length) :
    ∃ lines, (∀ lines', Reading reader lines' ↔ lines = lines') ∧
      (lines = reader.expected ↔ ∀ line ∈ linesOf (reader.file.take reader.offset), line.Readable) := by
  have hlength : (reader.file.take reader.offset).length = reader.offset := by
    rw [List.length_take]
    omega
  obtain ⟨lines, hback, hiff⟩ := readBack_text _ rfl (List.take_prefix reader.offset reader.file)
  rw [hlength] at hback
  refine ⟨lines, fun lines' => ?_, hiff⟩
  rw [reading_iff reader hoffset]
  refine ⟨fun h => hback.unique h, ?_⟩
  rintro rfl
  exact hback

/-- Calls of `previous_line` until the end yield one list of lines, whatever their budgets, and it is that
    of the lines in front of the reader which are not too long, in reverse order and with their places, if
    and only if all of these lines are readable. -/
theorem previous_line_exact (reader : FileReader) (hoffset : reader.offset ≤ reader.file.length) :
    (∃! lines, Reading reader lines) ∧ (Reading reader reader.expected ↔
      ∀ line ∈ linesOf (reader.file.take reader.offset), line.Readable) := by
  obtain ⟨lines, hunique, hiff⟩ := reading_unique reader hoffset
  refine ⟨⟨lines, (hunique lines).mpr rfl, fun lines' h => ((hunique lines').mp h).symm⟩, ?_⟩
  rw [hunique, hiff]

/-- Two lines, the second without a newline. -/
theorem previous_line_exact_pair :
    Reading ⟨"app", "app.log", [97, newline, 98], 3⟩ [⟨2, 3, [98]⟩, ⟨0, 2, [97]⟩] := by
  have hreading := (previous_line_exact ⟨"app", "app.log", [97, newline, 98], 3⟩ (by decide)).2.mpr (by
    intro line hmem
    have hlines : linesOf ([97, newline, 98].take 3) = [⟨0, 2, [97]⟩, ⟨2, 3, [98]⟩] := by decide
    rw [hlines] at hmem
    rcases List.mem_pair.mp hmem with rfl | rfl
    · exact .inl (by decide)
    · exact fun h => absurd h (by decide))
  exact hreading

/-- One line of five blocks and a byte: its first byte is yielded as a line. -/
theorem previous_line_yields_fragment :
    ¬∀ reader : FileReader, reader.offset ≤ reader.file.length → Reading reader reader.expected := by
  intro h
  obtain ⟨size, hsize⟩ : ∃ size, 5 * blockBytes + 1 = size := ⟨_, rfl⟩
  have hlength : (List.replicate size (97 : UInt8)).length = size := List.length_replicate
  obtain ⟨lines, hunique, hiff⟩ :=
    reading_unique ⟨"app", "app.log", List.replicate size 97, size⟩ hlength.ge
  have hreading := h ⟨"app", "app.log", List.replicate size 97, size⟩ hlength.ge
  have hread := hiff.mp ((hunique _).mp hreading)
  have hclean : newline ∉ List.replicate size (97 : UInt8) := fun hmem =>
    absurd (List.eq_of_mem_replicate hmem) (by decide)
  have hlines : linesOf ((List.replicate size (97 : UInt8)).take size) =
      [⟨0, size, List.replicate size 97⟩] := by
    have hpos : size ≠ 0 := by omega
    rw [List.take_of_length_le hlength.le, linesOf, linesFrom_clean hclean]
    simp [hpos]
  rw [hlines] at hread
  have hline : size < 5 * blockBytes ∨ size % (5 * blockBytes) = 0 ∨
      4 * blockBytes < size % (5 * blockBytes) := hread _ (List.mem_singleton_self _)
  rw [← hsize] at hline
  exact absurd hline (by decide)

end Vyuh.Console.Logs
