import Vyuh.Console.Logs.Reader
import Vyuh.Lib.Step

/-! What a reader finds when it goes back through its file. The budget decides only when it has to stop:
    the lines it passes over depend on the bytes and the offset alone. -/

namespace Vyuh.Console.Logs

open Lib

variable {entries : List FoundEntry} {stop : ℕ} {line : LineRead} {found : Option FoundEntry}
  {state state' : ScanState}

/-! ### One line -/

theorem blockStart_le (stop : ℕ) : blockStart stop ≤ stop := Nat.sub_le stop blockBytes

theorem blockStart_lt (h : stop ≠ 0) : blockStart stop < stop :=
  Nat.sub_lt (Nat.pos_of_ne_zero h) (by decide)

theorem sub_blockStart_le (stop : ℕ) : stop - blockStart stop ≤ blockBytes := by
  rw [blockStart]
  omega

/-- The block read before `stop`. -/
def blockBefore (file : List UInt8) (stop : ℕ) : List UInt8 :=
  (file.drop (blockStart stop)).take (stop - blockStart stop)

/-- The line before an offset, the offset the reader is left at and the bytes read for it, without a
    budget. -/
def walkLine (file : List UInt8) : ℕ → ℕ → List (List UInt8) → ℕ → LineRead × ℕ × ℕ
  | 0, _, parts, length => (joinLine 0 parts length, 0, 0)
  | fuel + 1, stop, parts, length =>
    if stop = 0 then (joinLine 0 parts length, 0, 0)
    else
      match scanBlock (blockStart stop) parts length (blockBefore file stop) with
      | .inl (line, offset) => (line, offset, stop - blockStart stop)
      | .inr (parts, length) =>
        let rest := walkLine file fuel (blockStart stop) parts length
        (rest.1, rest.2.1, rest.2.2 + (stop - blockStart stop))

/-- The line before an offset of a file. -/
def nextLine (file : List UInt8) (offset : ℕ) : LineRead × ℕ × ℕ := walkLine file offset offset [] 0

/-- The most one line can cost. -/
def lineCost : ℕ := maxLineBytes + blockBytes + 1

section

variable {reader : FileReader} {fuel stop length : ℕ} {parts : List (List UInt8)} {state : ScanState}

theorem readBlock_ok (hstop : stop ≤ reader.file.length) (hblock : stop - blockStart stop ≤ state.remaining) :
    readBlock reader (blockStart stop) stop state = .ok (some (blockBefore reader.file stop),
      { state with remaining := state.remaining - (stop - blockStart stop) }) := by
  rw [readBlock, if_neg (not_lt.mpr hblock), if_neg (not_lt.mpr hstop)]
  rfl

/-- With enough budget, a line is read as the file has it. -/
theorem previousLineFrom_eq {offset cost : ℕ} (hstop : stop ≤ reader.file.length)
    (hwalk : walkLine reader.file fuel stop parts length = (line, offset, cost))
    (hcost : cost ≤ state.remaining) :
    previousLineFrom reader fuel stop parts length state =
      .ok (line, { reader with offset }, { state with remaining := state.remaining - cost }) := by
  induction fuel generalizing stop parts length state cost with
  | zero =>
    cases hwalk
    rfl
  | succ fuel ih =>
    rw [walkLine] at hwalk
    rw [previousLineFrom]
    by_cases hpos : stop = 0
    · rw [if_pos hpos] at hwalk ⊢
      cases hwalk
      rfl
    · rw [if_neg hpos] at hwalk ⊢
      cases hscan : scanBlock (blockStart stop) parts length (blockBefore reader.file stop) with
      | inl found =>
        rw [hscan] at hwalk
        cases hwalk
        rw [readBlock_ok hstop hcost]
        simp only [bind, Except.bind, hscan]
      | inr more =>
        obtain ⟨parts', length'⟩ := more
        rw [hscan] at hwalk
        rcases hrest : walkLine reader.file fuel (blockStart stop) parts' length' with ⟨line', offset', cost'⟩
        simp only [hrest, Prod.mk.injEq] at hwalk
        obtain ⟨rfl, rfl, rfl⟩ := hwalk
        rw [readBlock_ok hstop (by omega)]
        simp only [bind, Except.bind, hscan]
        refine (ih ((blockStart_le stop).trans hstop) hrest ?_).trans ?_
        · exact Nat.le_sub_of_add_le hcost
        · rw [Nat.sub_sub, Nat.add_comm (stop - blockStart stop)]

/-- Without enough budget, the reader stays where it is. -/
theorem previousLineFrom_budget {offset cost : ℕ} (hstop : stop ≤ reader.file.length)
    (hwalk : walkLine reader.file fuel stop parts length = (line, offset, cost))
    (hcost : state.remaining < cost) :
    ∃ left, previousLineFrom reader fuel stop parts length state = .ok (.budget, reader, ⟨left, true⟩) := by
  induction fuel generalizing stop parts length state cost with
  | zero =>
    cases hwalk
    exact absurd hcost (Nat.not_lt_zero _)
  | succ fuel ih =>
    rw [walkLine] at hwalk
    rw [previousLineFrom]
    by_cases hpos : stop = 0
    · rw [if_pos hpos] at hwalk
      cases hwalk
      exact absurd hcost (Nat.not_lt_zero _)
    · rw [if_neg hpos] at hwalk ⊢
      by_cases hblock : stop - blockStart stop ≤ state.remaining
      · rw [readBlock_ok hstop hblock]
        cases hscan : scanBlock (blockStart stop) parts length (blockBefore reader.file stop) with
        | inl found =>
          rw [hscan] at hwalk
          cases hwalk
          exact absurd hcost (not_lt.mpr hblock)
        | inr more =>
          obtain ⟨parts', length'⟩ := more
          rw [hscan] at hwalk
          rcases hrest : walkLine reader.file fuel (blockStart stop) parts' length'
            with ⟨line', offset', cost'⟩
          simp only [hrest, Prod.mk.injEq] at hwalk
          obtain ⟨rfl, rfl, rfl⟩ := hwalk
          simp only [bind, Except.bind, hscan]
          refine ih ((blockStart_le stop).trans hstop) hrest (Nat.sub_lt_left_of_lt_add hblock ?_)
          rw [Nat.add_comm]
          exact hcost
      · refine ⟨state.remaining, ?_⟩
        rw [readBlock, if_pos (not_le.mp hblock)]
        rfl

end

/-! ### Progress -/

theorem rposition_some {block : List UInt8} {index : ℕ} (h : rposition block = some index) :
    index < block.length ∧ block[index]? = some newline := by
  obtain ⟨back, hback, rfl⟩ := Option.map_eq_some_iff.mp h
  obtain ⟨hlt, hat, -⟩ := List.findIdx?_eq_some_iff_getElem.mp hback
  rw [List.length_reverse] at hlt
  refine ⟨by omega, ?_⟩
  rw [List.getElem_reverse] at hat
  rw [List.getElem?_eq_getElem (by omega)]
  exact congrArg some (of_decide_eq_true hat)

/-- A line that was read: it was too long, or it starts where the reader is left. -/
def LineRead.Goes (line : LineRead) (offset : ℕ) : Prop := line = .skip ∨ ∃ bytes, line = .data offset bytes

theorem joinLine_goes {start length : ℕ} {parts : List (List UInt8)} (h : parts ≠ []) :
    (joinLine start parts length).Goes start := by
  rw [joinLine, if_neg (by simpa using h)]
  split
  · exact .inl rfl
  · exact .inr ⟨_, rfl⟩

/-- The block without the newline that ends its line. -/
def trimBlock (parts : List (List UInt8)) (block : List UInt8) : List UInt8 :=
  if parts.isEmpty && block.getLast? = some newline then block.dropLast else block

theorem trimBlock_length (parts : List (List UInt8)) (block : List UInt8) :
    (trimBlock parts block).length ≤ block.length ∧ block.length ≤ (trimBlock parts block).length + 1 := by
  rw [trimBlock]
  split
  · rw [List.length_dropLast]
    omega
  · omega

/-- A line starts after a newline that does not end it. -/
theorem rposition_trimBlock {block : List UInt8} {index : ℕ}
    (h : rposition (trimBlock [] block) = some index) : index + 1 < block.length := by
  obtain ⟨hlt, hat⟩ := rposition_some h
  rw [trimBlock] at hlt hat
  split at hlt
  · rw [List.length_dropLast] at hlt
    omega
  next hlast =>
    rw [if_neg hlast] at hat
    by_contra hend
    have heq : index = block.length - 1 := by omega
    rw [heq, ← List.getLast?_eq_getElem?] at hat
    simp [hat] at hlast

section

variable {start length offset : ℕ} {parts : List (List UInt8)} {block : List UInt8} {line : LineRead}

theorem scanBlock_eq : scanBlock start parts length block =
    match rposition (trimBlock parts block) with
    | some index =>
      .inl (joinLine (start + index + 1) ((trimBlock parts block).drop (index + 1) :: parts)
        (length + ((trimBlock parts block).take (index + 1)).length), start + index + 1)
    | none =>
      if length + (trimBlock parts block).length > maxLineBytes then .inl (.skip, start)
      else .inr (trimBlock parts block :: parts, length + (trimBlock parts block).length) := rfl

/-- A complete line is left at an offset within the block, before its end for the first block. -/
theorem scanBlock_inl (h : scanBlock start parts length block = .inl (line, offset)) :
    line.Goes offset ∧ offset ≤ start + block.length ∧
      (parts = [] → 0 < block.length → offset < start + block.length) := by
  rw [scanBlock_eq] at h
  cases hpos : rposition (trimBlock parts block) with
  | some index =>
    rw [hpos] at h
    cases h
    have hlt := (rposition_some hpos).1
    have hlength := (trimBlock_length parts block).1
    refine ⟨joinLine_goes (List.cons_ne_nil _ _), by omega, ?_⟩
    rintro rfl -
    have hfirst := rposition_trimBlock hpos
    omega
  | none =>
    rw [hpos] at h
    dsimp only at h
    split at h
    · cases h
      exact ⟨.inl rfl, Nat.le_add_right start _, fun _ hblock => Nat.lt_add_of_pos_right hblock⟩
    · exact nomatch h

theorem scanBlock_inr {parts' : List (List UInt8)} {length' : ℕ}
    (h : scanBlock start parts length block = .inr (parts', length')) :
    parts' ≠ [] ∧ length' ≤ maxLineBytes ∧ length + block.length ≤ length' + 1 ∧
      (parts ≠ [] → length' = length + block.length) := by
  rw [scanBlock_eq] at h
  cases hpos : rposition (trimBlock parts block) with
  | some index =>
    rw [hpos] at h
    exact nomatch h
  | none =>
    rw [hpos] at h
    dsimp only at h
    split at h
    · exact nomatch h
    next hshort =>
      cases h
      have hlength := (trimBlock_length parts block).2
      refine ⟨List.cons_ne_nil _ _, not_lt.mp hshort, by omega, ?_⟩
      intro hparts
      have hfull : trimBlock parts block = block := by
        rw [trimBlock, if_neg (by simp [hparts])]
      rw [hfull]

end

theorem blockBefore_length {file : List UInt8} (h : stop ≤ file.length) :
    (blockBefore file stop).length = stop - blockStart stop := by
  have hle := blockStart_le stop
  rw [blockBefore, List.length_take, List.length_drop]
  omega

/-- A line that goes on before its first block. -/
theorem walkLine_rest {file : List UInt8} {fuel stop length offset cost : ℕ} {parts : List (List UInt8)}
    (hstop : stop ≤ file.length) (hparts : parts ≠ []) (hlength : length ≤ maxLineBytes)
    (h : walkLine file fuel stop parts length = (line, offset, cost)) :
    line.Goes offset ∧ offset ≤ stop ∧ cost + length ≤ maxLineBytes + blockBytes := by
  induction fuel generalizing stop parts length cost with
  | zero =>
    cases h
    exact ⟨joinLine_goes hparts, Nat.zero_le _, by omega⟩
  | succ fuel ih =>
    rw [walkLine] at h
    by_cases hpos : stop = 0
    · rw [if_pos hpos] at h
      cases h
      exact ⟨joinLine_goes hparts, Nat.zero_le _, by omega⟩
    · rw [if_neg hpos] at h
      have hblock := blockBefore_length hstop
      have hstart := blockStart_lt hpos
      have hbytes := sub_blockStart_le stop
      cases hscan : scanBlock (blockStart stop) parts length (blockBefore file stop) with
      | inl found =>
        rw [hscan] at h
        cases h
        obtain ⟨hgoes, hoffset, -⟩ := scanBlock_inl hscan
        rw [hblock] at hoffset
        exact ⟨hgoes, by omega, by omega⟩
      | inr more =>
        obtain ⟨parts', length'⟩ := more
        rw [hscan] at h
        rcases hrest : walkLine file fuel (blockStart stop) parts' length' with ⟨line', offset', cost'⟩
        simp only [hrest, Prod.mk.injEq] at h
        obtain ⟨rfl, rfl, rfl⟩ := h
        obtain ⟨hparts', hlength', -, hadd⟩ := scanBlock_inr hscan
        have hnext := hadd hparts
        obtain ⟨hgoes, hoffset, hcost⟩ := ih (hstart.le.trans hstop) hparts' hlength' hrest
        rw [hblock] at hnext
        exact ⟨hgoes, hoffset.trans hstart.le, by omega⟩

theorem nextLine_zero (file : List UInt8) : nextLine file 0 = (.finished, 0, 0) := rfl

/-- Before any other offset there is a line, which the reader leaves at a smaller offset and whose cost is
    bounded. -/
theorem nextLine_goes {file : List UInt8} {offset : ℕ} (hoffset : offset ≤ file.length) (hpos : offset ≠ 0) :
    ∃ line next cost, nextLine file offset = (line, next, cost) ∧ line.Goes next ∧ next < offset ∧
      cost ≤ lineCost := by
  rcases hline : nextLine file offset with ⟨line, next, cost⟩
  refine ⟨line, next, cost, rfl, ?_⟩
  obtain ⟨fuel, hfuel⟩ := Nat.exists_eq_succ_of_ne_zero hpos
  have h : walkLine file (fuel + 1) offset [] 0 = (line, next, cost) := by
    rw [nextLine] at hline
    rw [← hline]
    exact congrArg (walkLine file · offset [] 0) hfuel.symm
  rw [walkLine, if_neg hpos] at h
  have hblock := blockBefore_length hoffset
  have hstart := blockStart_lt hpos
  have hbytes := sub_blockStart_le offset
  rw [lineCost]
  cases hscan : scanBlock (blockStart offset) [] 0 (blockBefore file offset) with
  | inl found =>
    rw [hscan] at h
    cases h
    obtain ⟨hgoes, -, hbefore⟩ := scanBlock_inl hscan
    have hlt := hbefore rfl (by omega)
    exact ⟨hgoes, by omega, by omega⟩
  | inr more =>
    obtain ⟨parts', length'⟩ := more
    rw [hscan] at h
    rcases hrest : walkLine file fuel (blockStart offset) parts' length' with ⟨line', next', cost'⟩
    simp only [hrest, Prod.mk.injEq] at h
    obtain ⟨rfl, rfl, rfl⟩ := h
    obtain ⟨hparts', hlength', hadd, -⟩ := scanBlock_inr hscan
    obtain ⟨hgoes, hle, hcost⟩ := walkLine_rest (hstart.le.trans hoffset) hparts' hlength' hrest
    exact ⟨hgoes, by omega, by omega⟩

/-! ### The entry of a line -/

/-- A line gives an entry when it is an event, with a time, that the query asks for. -/
theorem parseEntry_eq_some [Libraries] {rule : String} {line : List UInt8} {query : LogQuery} {entry : LogEntry} :
    parseEntry rule line query = .ok (some entry) ↔ ∃ value timestamp time,
      Libraries.fromSlice line = some value ∧ (value.get "timestamp").bind Json.asStr = some timestamp ∧
      Libraries.parseFromRfc3339 timestamp = some time ∧
      matchesQuery value (((value.get "level").bind Json.asStr).getD "INFO")
        (((value.get "target").bind Json.asStr).getD "") time query = true ∧
      normalizeEntry rule timestamp (((value.get "level").bind Json.asStr).getD "INFO")
        (((value.get "target").bind Json.asStr).getD "") value = .ok entry := by
  constructor
  · intro h
    rw [parseEntry] at h
    split at h
    next => exact nomatch h
    next value hvalue =>
      split at h
      next => exact nomatch h
      next timestamp htimestamp =>
        split at h
        next => exact nomatch h
        next time htime =>
          dsimp only at h
          split at h
          next hmatches =>
            obtain ⟨entry', hnormal, hentry⟩ := Step.except_bind_ok.mp h
            cases hentry
            exact ⟨value, timestamp, time, hvalue, htimestamp, htime, hmatches, hnormal⟩
          next => exact nomatch h
  · rintro ⟨value, timestamp, time, hvalue, htimestamp, htime, hmatches, hnormal⟩
    simp only [parseEntry, hvalue, htimestamp, htime, hmatches, if_true]
    exact Step.except_bind_ok.mpr ⟨entry, hnormal, rfl⟩

theorem normalizeEntry_ok {rule timestamp level target : String} {value : Json} {entry : LogEntry}
    (h : normalizeEntry rule timestamp level target value = .ok entry) :
    entry.id = "" ∧ entry.timestamp = timestamp := by
  obtain ⟨fields, -, h⟩ := Step.except_bind_ok.mp h
  obtain ⟨spans, -, h⟩ := Step.except_bind_ok.mp h
  cases h
  exact ⟨rfl, rfl⟩

/-! ### Entries -/

/-- The entries a query finds in a file when it is read back from an offset, newest first. -/
inductive Walk [Libraries] (query : LogQuery) (source name : String) (file : List UInt8) :
    ℕ → List FoundEntry → Prop
  | finished : Walk query source name file 0 []
  | skip {offset next cost : ℕ} {entries : List FoundEntry} :
    nextLine file offset = (.skip, next, cost) → Walk query source name file next entries →
    Walk query source name file offset entries
  | pass {offset next cost : ℕ} {line : List UInt8} {entries : List FoundEntry} :
    nextLine file offset = (.data next line, next, cost) → parseEntry source line query = .ok none →
    Walk query source name file next entries → Walk query source name file offset entries
  | found {offset next cost : ℕ} {line : List UInt8} {entry : LogEntry} {entries : List FoundEntry} :
    nextLine file offset = (.data next line, next, cost) →
    parseEntry source line query = .ok (some entry) → Walk query source name file next entries →
    Walk query source name file offset
      ({ entry := { entry with id := "" }, start := next, stop := offset, digest := Libraries.hash line,
         rule := source, file := name } :: entries)

/-- The entries a query finds on the way back from one offset of a file to another. -/
inductive Trail [Libraries] (query : LogQuery) (source name : String) (file : List UInt8) :
    ℕ → List FoundEntry → ℕ → Prop
  | stay {offset : ℕ} : Trail query source name file offset [] offset
  | skip {offset next stop cost : ℕ} {entries : List FoundEntry} :
    nextLine file offset = (.skip, next, cost) → Trail query source name file next entries stop →
    Trail query source name file offset entries stop
  | pass {offset next stop cost : ℕ} {line : List UInt8} {entries : List FoundEntry} :
    nextLine file offset = (.data next line, next, cost) → parseEntry source line query = .ok none →
    Trail query source name file next entries stop → Trail query source name file offset entries stop
  | found {offset next stop cost : ℕ} {line : List UInt8} {entry : LogEntry} {entries : List FoundEntry} :
    nextLine file offset = (.data next line, next, cost) →
    parseEntry source line query = .ok (some entry) → Trail query source name file next entries stop →
    Trail query source name file offset
      ({ entry := { entry with id := "" }, start := next, stop := offset, digest := Libraries.hash line,
         rule := source, file := name } :: entries) stop

section

variable {source name : String} {file : List UInt8} {offset : ℕ}

/-- A line is read as the file has it, or the budget stops the reader where it stands. -/
theorem previousLine_cases (reader : FileReader) {next cost : ℕ}
    (hoffset : reader.offset ≤ reader.file.length)
    (hline : nextLine reader.file reader.offset = (line, next, cost)) (state : ScanState) :
    previousLine reader state =
      .ok (line, { reader with offset := next }, ⟨state.remaining - cost, state.truncated⟩) ∨
    state.remaining < cost ∧ ∃ left, previousLine reader state = .ok (.budget, reader, ⟨left, true⟩) := by
  rcases Nat.lt_or_ge state.remaining cost with hcost | hcost
  · exact .inr ⟨hcost, previousLineFrom_budget hoffset hline hcost⟩
  · exact .inl (previousLineFrom_eq hoffset hline hcost)

/-- What is known of a line that was read. -/
theorem nextLine_of_ne {next cost : ℕ} (hoffset : offset ≤ file.length)
    (hline : nextLine file offset = (line, next, cost)) (hne : line ≠ .finished) :
    line.Goes next ∧ next < offset ∧ cost ≤ lineCost := by
  have hpos : offset ≠ 0 := by
    rintro rfl
    cases (nextLine_zero file).symm.trans hline
    exact hne rfl
  obtain ⟨_, _, _, hline', hgoes, hnext, hcost⟩ := nextLine_goes hoffset hpos
  cases hline.symm.trans hline'
  exact ⟨hgoes, hnext, hcost⟩

variable [Libraries] {query : LogQuery}

/-- What one search for an entry comes to, from an offset with these entries before it: the first of them,
    with what is before the reader then; none, as there are none; or none for lack of budget, with all of
    them still before the reader. -/
inductive Advanced (query : LogQuery) (source name : String) (file : List UInt8) (offset : ℕ)
    (entries : List FoundEntry) (state : ScanState) : Option FoundEntry → ℕ → ScanState → Prop
  | found {found : FoundEntry} {rest : List FoundEntry} {next : ℕ} {state' : ScanState} :
    entries = found :: rest → Walk query source name file found.stop (found :: rest) →
    Walk query source name file next rest → next < found.stop → found.stop ≤ offset →
    state'.truncated = state.truncated →
    Advanced query source name file offset entries state (some found) next state'
  | finished {state' : ScanState} : entries = [] → state'.truncated = state.truncated →
    Advanced query source name file offset entries state none 0 state'
  | budget {next : ℕ} {state' : ScanState} : Walk query source name file next entries → next ≤ offset →
    (lineCost ≤ state.remaining → next < offset) → state'.truncated = true →
    Advanced query source name file offset entries state none next state'

/-- A search that passes over a line and goes on comes to what it comes to from there. -/
theorem Advanced.after_line {entries : List FoundEntry} {state : ScanState} {next next' cost : ℕ}
    {found : Option FoundEntry} {state' : ScanState} (hnext : next < offset)
    (h : Advanced query source name file next entries ⟨state.remaining - cost, state.truncated⟩ found next'
      state') :
    Advanced query source name file offset entries state found next' state' := by
  cases h with
  | found heq hwalk hrest hlt hstop htruncated =>
    exact .found heq hwalk hrest hlt (hstop.trans hnext.le) htruncated
  | finished heq htruncated => exact .finished heq htruncated
  | budget hwalk hle hprogress htruncated =>
    exact .budget hwalk (hle.trans hnext.le) (fun _ => hle.trans_lt hnext) htruncated

theorem nextEntryFrom_advances (h : Walk query source name file offset entries)
    (hoffset : offset ≤ file.length) (fuel : ℕ) (hfuel : offset ≤ fuel) (state : ScanState) :
    ∃ found next state', nextEntryFrom query fuel ⟨source, name, file, offset⟩ state =
      .ok (found, ⟨source, name, file, next⟩, state') ∧
      Advanced query source name file offset entries state found next state' := by
  -- without the budget for the next line, everything is still before the reader
  have hstay : ∀ {offset cost fuel : ℕ} {entries : List FoundEntry} {state : ScanState},
      Walk query source name file offset entries → cost ≤ lineCost → state.remaining < cost →
      (∃ left, previousLine ⟨source, name, file, offset⟩ state =
        .ok (.budget, ⟨source, name, file, offset⟩, ⟨left, true⟩)) →
      ∃ found next state', nextEntryFrom query (fuel + 1) ⟨source, name, file, offset⟩ state =
        .ok (found, ⟨source, name, file, next⟩, state') ∧
        Advanced query source name file offset entries state found next state' := by
    rintro offset cost fuel entries state hwalk hcost hshort ⟨left, hread⟩
    refine ⟨none, offset, ⟨left, true⟩, ?_, .budget hwalk le_rfl (by omega) rfl⟩
    rw [nextEntryFrom, hread]
    rfl
  induction h generalizing fuel state with
  | finished =>
    refine ⟨none, 0, state, ?_, .finished rfl rfl⟩
    cases fuel with
    | zero => rfl
    | succ fuel => rfl
  | @skip offset next cost entries hline hwalk ih =>
    obtain ⟨-, hnext, hcost⟩ := nextLine_of_ne hoffset hline (nomatch ·)
    obtain ⟨fuel, rfl⟩ : ∃ fuel', fuel = fuel' + 1 := ⟨fuel - 1, by omega⟩
    rcases previousLine_cases ⟨source, name, file, offset⟩ hoffset hline state with hread | ⟨hshort, hread⟩
    · obtain ⟨found, next', state', hsearch, hadvanced⟩ := ih (hnext.le.trans hoffset) fuel (by omega)
        ⟨state.remaining - cost, state.truncated⟩
      refine ⟨found, next', state', ?_, hadvanced.after_line hnext⟩
      rw [nextEntryFrom, hread]
      exact hsearch
    · exact hstay (.skip hline hwalk) hcost hshort hread
  | @pass offset next cost line entries hline hparse hwalk ih =>
    obtain ⟨-, hnext, hcost⟩ := nextLine_of_ne hoffset hline (nomatch ·)
    obtain ⟨fuel, rfl⟩ : ∃ fuel', fuel = fuel' + 1 := ⟨fuel - 1, by omega⟩
    rcases previousLine_cases ⟨source, name, file, offset⟩ hoffset hline state with hread | ⟨hshort, hread⟩
    · obtain ⟨found, next', state', hsearch, hadvanced⟩ := ih (hnext.le.trans hoffset) fuel (by omega)
        ⟨state.remaining - cost, state.truncated⟩
      refine ⟨found, next', state', ?_, hadvanced.after_line hnext⟩
      rw [nextEntryFrom, hread]
      simp only [bind, Except.bind, hparse]
      exact hsearch
    · exact hstay (.pass hline hparse hwalk) hcost hshort hread
  | @found offset next cost line entry entries hline hparse hwalk ih =>
    obtain ⟨-, hnext, hcost⟩ := nextLine_of_ne hoffset hline (nomatch ·)
    obtain ⟨fuel, rfl⟩ : ∃ fuel', fuel = fuel' + 1 := ⟨fuel - 1, by omega⟩
    rcases previousLine_cases ⟨source, name, file, offset⟩ hoffset hline state with hread | ⟨hshort, hread⟩
    · refine ⟨_, next, ⟨state.remaining - cost, state.truncated⟩, ?_,
        .found rfl (.found hline hparse hwalk) hwalk hnext le_rfl rfl⟩
      rw [nextEntryFrom, hread]
      simp only [bind, Except.bind, hparse]
    · exact hstay (.found hline hparse hwalk) hcost hshort hread

theorem Trail.append {stop next : ℕ} {entries others : List FoundEntry}
    (h : Trail query source name file offset entries stop)
    (h' : Trail query source name file stop others next) :
    Trail query source name file offset (entries ++ others) next := by
  induction h with
  | stay => exact h'
  | skip hline _ ih => exact .skip hline (ih h')
  | pass hline hparse _ ih => exact .pass hline hparse (ih h')
  | found hline hparse _ ih => exact .found hline hparse (ih h')

/-- Filters do not depend on the cursor. -/
theorem Trail.with_cursor (h : Trail query source name file offset entries stop) (cursor : Option String) :
    Trail { query with cursor } source name file offset entries stop := by
  induction h with
  | stay => exact .stay
  | skip hline _ ih => exact .skip hline ih
  | pass hline hparse _ ih => exact .pass hline hparse ih
  | found hline hparse _ ih => exact .found hline hparse ih

theorem Trail.of_zero (h : Trail query source name file 0 entries stop) : entries = [] := by
  cases h with
  | stay => rfl
  | skip hline _ => exact (nomatch (nextLine_zero file).symm.trans hline)
  | pass hline _ _ => exact (nomatch (nextLine_zero file).symm.trans hline)
  | found hline _ _ => exact (nomatch (nextLine_zero file).symm.trans hline)

/-- The first entry on the way back from an offset is the same on every trail. -/
theorem Trail.first_unique {stop stop' : ℕ} {first first' : FoundEntry} {entries entries' : List FoundEntry}
    (h : Trail query source name file offset (first :: entries) stop)
    (h' : Trail query source name file offset (first' :: entries') stop') : first = first' := by
  generalize hall : first :: entries = all at h
  induction h with
  | stay => exact nomatch hall
  | skip hline _ ih =>
    cases h' with
    | skip hline' hrest' =>
      cases hline.symm.trans hline'
      exact ih hrest' hall
    | pass hline' _ _ => exact nomatch hline.symm.trans hline'
    | found hline' _ _ => exact nomatch hline.symm.trans hline'
  | pass hline hparse _ ih =>
    cases h' with
    | skip hline' _ => exact nomatch hline.symm.trans hline'
    | pass hline' _ hrest' =>
      cases hline.symm.trans hline'
      exact ih hrest' hall
    | found hline' hparse' _ =>
      cases hline.symm.trans hline'
      exact nomatch hparse.symm.trans hparse'
  | found hline hparse _ _ =>
    cases hall
    cases h' with
    | skip hline' _ => exact nomatch hline.symm.trans hline'
    | pass hline' hparse' _ =>
      cases hline.symm.trans hline'
      exact nomatch hparse.symm.trans hparse'
    | found hline' hparse' _ =>
      cases hline.symm.trans hline'
      cases hparse.symm.trans hparse'
      rfl

/-- What is found from an offset goes on with what is found from where a trail ends. -/
theorem Trail.walk {next : ℕ} {entries rest : List FoundEntry}
    (h : Trail query source name file offset entries next) (hrest : Walk query source name file next rest) :
    Walk query source name file offset (entries ++ rest) := by
  induction h with
  | stay => exact hrest
  | skip hline _ ih => exact .skip hline (ih hrest)
  | pass hline hparse _ ih => exact .pass hline hparse (ih hrest)
  | found hline hparse _ ih => exact .found hline hparse (ih hrest)

/-- What a search has done: it passed over lines down to `stop`, and then found an entry, or nothing. -/
structure Searched (query : LogQuery) (source name : String) (file : List UInt8) (offset : ℕ)
    (state : ScanState) (found : Option FoundEntry) (stop next : ℕ) (state' : ScanState) : Prop where
  before : Trail query source name file offset [] stop
  after : Trail query source name file stop found.toList next
  stop_eq : found.elim next FoundEntry.stop = stop
  stop_le : stop ≤ offset
  next_le : next ≤ stop
  progress : lineCost ≤ state.remaining → offset ≠ 0 → next < offset
  exhausted : found = none → state.truncated = false → state'.truncated = false → next = 0
  truncated : state.truncated = true → state'.truncated = true

/-- A search at the beginning of the file, or without the budget for the next line. -/
theorem Searched.stay (hprogress : lineCost ≤ state.remaining → offset ≠ 0 → offset < offset)
    (hexhausted : state.truncated = false → state'.truncated = false → offset = 0)
    (htruncated : state.truncated = true → state'.truncated = true) :
    Searched query source name file offset state none offset offset state' :=
  ⟨.stay, .stay, rfl, le_rfl, le_rfl, hprogress, fun _ => hexhausted, htruncated⟩

/-- A search that goes on after a line it has passed over. -/
theorem Searched.after_line {state state' : ScanState} {found : Option FoundEntry} {next cost stop next' : ℕ}
    (hnext : next < offset)
    (hbefore : ∀ {stop : ℕ}, Trail query source name file next [] stop →
      Trail query source name file offset [] stop)
    (h : Searched query source name file next ⟨state.remaining - cost, state.truncated⟩ found stop next'
      state') :
    Searched query source name file offset state found stop next' state' :=
  ⟨hbefore h.before, h.after, h.stop_eq, h.stop_le.trans hnext.le, h.next_le,
    fun _ _ => (h.next_le.trans h.stop_le).trans_lt hnext, h.exhausted, h.truncated⟩

theorem nextEntryFrom_searched {fuel : ℕ} {reader' : FileReader} (hoffset : offset ≤ file.length)
    (hfuel : offset ≤ fuel)
    (h : nextEntryFrom query fuel ⟨source, name, file, offset⟩ state = .ok (found, reader', state')) :
    ∃ stop next, reader' = ⟨source, name, file, next⟩ ∧
      Searched query source name file offset state found stop next state' := by
  induction fuel generalizing offset state with
  | zero =>
    cases h
    obtain rfl := Nat.le_zero.mp hfuel
    exact ⟨0, 0, rfl, .stay (fun _ h => absurd rfl h) (fun _ _ => rfl) id⟩
  | succ fuel ih =>
    rw [nextEntryFrom] at h
    by_cases hpos : offset = 0
    · subst hpos
      cases h
      exact ⟨0, 0, rfl, .stay (fun _ h => absurd rfl h) (fun _ _ => rfl) id⟩
    · obtain ⟨line, next, cost, hline, hgoes, hnext, hcost⟩ := nextLine_goes hoffset hpos
      have hwithin := hnext.le.trans hoffset
      rcases previousLine_cases ⟨source, name, file, offset⟩ hoffset hline state with
        hread | ⟨hshort, left, hread⟩
      · rw [hread] at h
        rcases hgoes with rfl | ⟨bytes, rfl⟩
        · obtain ⟨stop, next', hreader, hsearched⟩ := ih hwithin (by omega) h
          exact ⟨stop, next', hreader, hsearched.after_line hnext (.skip hline)⟩
        · simp only [bind, Except.bind] at h
          cases hparse : parseEntry source bytes query with
          | error error =>
            rw [hparse] at h
            exact nomatch h
          | ok parsed =>
            rw [hparse] at h
            cases parsed with
            | none =>
              obtain ⟨stop, next', hreader, hsearched⟩ := ih hwithin (by omega) h
              exact ⟨stop, next', hreader, hsearched.after_line hnext (.pass hline hparse)⟩
            | some entry =>
              cases h
              exact ⟨offset, next, rfl, .stay, .found hline hparse .stay, rfl, le_rfl, hnext.le,
                fun _ _ => hnext, fun h => (nomatch h), id⟩
      · rw [hread] at h
        cases h
        exact ⟨offset, offset, rfl, .stay (fun hbudget => absurd hshort (by omega)) (fun _ h => nomatch h)
          fun _ => rfl⟩

/-- What is found from an offset is what a search gives followed by what is found from where it ends. -/
theorem Walk.of_nextEntryFrom {fuel : ℕ} {reader' : FileReader} (hoffset : offset ≤ file.length)
    (hfuel : offset ≤ fuel)
    (h : nextEntryFrom query fuel ⟨source, name, file, offset⟩ state = .ok (found, reader', state')) :
    ∃ next, reader' = ⟨source, name, file, next⟩ ∧ next ≤ offset ∧
      (lineCost ≤ state.remaining → offset ≠ 0 → next < offset) ∧
      (found = none → state.truncated = false → state'.truncated = false → next = 0) ∧
      ∀ rest, Walk query source name file next rest →
        Walk query source name file offset (found.toList ++ rest) := by
  obtain ⟨stop, next, hreader, hsearched⟩ := nextEntryFrom_searched hoffset hfuel h
  exact ⟨next, hreader, hsearched.next_le.trans hsearched.stop_le, hsearched.progress, hsearched.exhausted,
    fun rest hrest => hsearched.before.walk (hsearched.after.walk hrest)⟩

/-- Filters do not depend on the cursor, so a walk is the same on every page. -/
theorem Walk.with_cursor (h : Walk query source name file offset entries) (cursor : Option String) :
    Walk { query with cursor } source name file offset entries := by
  induction h with
  | finished => exact .finished
  | skip hline _ ih => exact .skip hline ih
  | pass hline hparse _ ih => exact .pass hline hparse ih
  | found hline hparse _ ih => exact .found hline hparse ih

/-- The entries of a walk start before its offset, each at a place of its own in the file. -/
theorem Walk.starts (h : Walk query source name file offset entries) (hoffset : offset ≤ file.length) :
    (∀ found ∈ entries, found.rule = source ∧ found.file = name ∧ found.start < offset) ∧
      (entries.map FoundEntry.start).Nodup := by
  induction h with
  | finished => exact ⟨fun _ hmem => (nomatch hmem), .nil⟩
  | skip hline _ ih =>
    obtain ⟨-, hnext, -⟩ := nextLine_of_ne hoffset hline (nomatch ·)
    obtain ⟨hbefore, hnodup⟩ := ih (hnext.le.trans hoffset)
    refine ⟨fun found hmem => ?_, hnodup⟩
    obtain ⟨hrule, hfile, hstart⟩ := hbefore found hmem
    exact ⟨hrule, hfile, hstart.trans hnext⟩
  | pass hline _ _ ih =>
    obtain ⟨-, hnext, -⟩ := nextLine_of_ne hoffset hline (nomatch ·)
    obtain ⟨hbefore, hnodup⟩ := ih (hnext.le.trans hoffset)
    refine ⟨fun found hmem => ?_, hnodup⟩
    obtain ⟨hrule, hfile, hstart⟩ := hbefore found hmem
    exact ⟨hrule, hfile, hstart.trans hnext⟩
  | found hline _ _ ih =>
    obtain ⟨-, hnext, -⟩ := nextLine_of_ne hoffset hline (nomatch ·)
    obtain ⟨hbefore, hnodup⟩ := ih (hnext.le.trans hoffset)
    refine ⟨fun found hmem => ?_, List.nodup_cons.mpr ⟨?_, hnodup⟩⟩
    · rcases List.mem_cons.mp hmem with rfl | hmem
      · exact ⟨rfl, rfl, hnext⟩
      · obtain ⟨hrule, hfile, hstart⟩ := hbefore found hmem
        exact ⟨hrule, hfile, hstart.trans hnext⟩
    · intro hmem
      obtain ⟨other, hother, heq⟩ := List.mem_map.mp hmem
      exact (hbefore other hother).2.2.ne heq

/-! ### Whole files -/

/-- Every entry of a file: `next_entry` is called on it alone, with a new budget each time, until the file
    is exhausted. -/
def readAllFrom (query : LogQuery) : ℕ → FileReader → Except LogError (List FoundEntry)
  | 0, _ => .ok []
  | fuel + 1, reader => do
    match ← nextEntry reader query ⟨scanBytes, false⟩ with
    | (some found, reader, _) => do .ok (found :: (← readAllFrom query fuel reader))
    | (none, reader, state) => if state.truncated then readAllFrom query fuel reader else .ok []

def readAll (query : LogQuery) (reader : FileReader) : Except LogError (List FoundEntry) :=
  readAllFrom query reader.offset reader

theorem Walk.of_readAllFrom {fuel : ℕ} (hoffset : offset ≤ file.length) (hfuel : offset ≤ fuel)
    (h : readAllFrom query fuel ⟨source, name, file, offset⟩ = .ok entries) :
    Walk query source name file offset entries := by
  induction fuel generalizing offset entries with
  | zero =>
    cases h
    obtain rfl := Nat.le_zero.mp hfuel
    exact .finished
  | succ fuel ih =>
    rw [readAllFrom] at h
    obtain ⟨⟨found, reader', state'⟩, hsearch, h⟩ := Step.except_bind_ok.mp h
    obtain ⟨next, rfl, hle, hprogress, hend, hwalk⟩ := Walk.of_nextEntryFrom hoffset le_rfl hsearch
    have hnext : next ≤ fuel := by
      by_cases hpos : offset = 0
      · omega
      · have := hprogress (by decide) hpos
        omega
    cases found with
    | some found =>
      obtain ⟨rest, hrest, h⟩ := Step.except_bind_ok.mp h
      cases h
      exact hwalk rest (ih (hle.trans hoffset) hnext hrest)
    | none =>
      dsimp only at h
      split at h
      · exact hwalk entries (ih (hle.trans hoffset) hnext h)
      next htruncated =>
        cases h
        obtain rfl := hend rfl rfl (Bool.not_eq_true _ ▸ htruncated)
        exact hwalk [] .finished

end

end Vyuh.Console.Logs
