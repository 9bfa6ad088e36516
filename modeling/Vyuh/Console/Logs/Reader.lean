import Vyuh.Console.Logs.Entry

/-! The backward line reader (`console/logs.rs`). A file is its bytes; a reader stands at an offset of it
    and goes back line by line, in blocks, while the scan budget lasts. Loops are bounded by the offset,
    which every turn makes smaller. -/

namespace Vyuh.Console.Logs

def blockBytes : ℕ := 64 * 1024
def scanBytes : ℕ := 8 * 1024 * 1024
def maxLineBytes : ℕ := 256 * 1024

def newline : UInt8 := 10

structure ScanState where
  remaining : ℕ
  truncated : Bool
  deriving DecidableEq, Repr

structure FileReader where
  source : String
  name : String
  file : List UInt8
  offset : ℕ
  deriving DecidableEq, Repr

structure FoundEntry where
  entry : LogEntry
  start : ℕ
  stop : ℕ
  digest : String
  rule : String
  file : String
  deriving DecidableEq, Repr

inductive LineRead
  | data (start : ℕ) (line : List UInt8)
  | skip
  | finished
  | budget
  deriving DecidableEq, Repr

/-- The bytes from `start` to `stop`, if the budget still allows them. -/
def readBlock (reader : FileReader) (start stop : ℕ) (state : ScanState) :
    Except LogError (Option (List UInt8) × ScanState) :=
  if stop - start > state.remaining then .ok (none, { state with truncated := true })
  else if reader.file.length < stop then .error .unavailable
  else .ok (some ((reader.file.drop start).take (stop - start)),
    { state with remaining := state.remaining - (stop - start) })

/-- The line of the parts; the part read last comes first. -/
def joinLine (start : ℕ) (parts : List (List UInt8)) (length : ℕ) : LineRead :=
  if parts.isEmpty then .finished
  else if length > maxLineBytes then .skip
  else .data start parts.flatten

/-- The last position of a newline. -/
def rposition (block : List UInt8) : Option ℕ :=
  (block.reverse.findIdx? (· = newline)).map fun index => block.length - 1 - index

/-- What one more block, read from `start`, makes of the line: it is complete and the reader stands at an
    offset, or it goes on before the block. -/
def scanBlock (start : ℕ) (parts : List (List UInt8)) (length : ℕ) (block : List UInt8) :
    (LineRead × ℕ) ⊕ (List (List UInt8) × ℕ) :=
  -- the newline that ends the line is not part of it
  let block := if parts.isEmpty && block.getLast? = some newline then block.dropLast else block
  match rposition block with
  | some index =>
    let lineStart := start + index + 1
    -- the length is taken of what is left of the block, in front of the line
    .inl (joinLine lineStart (block.drop (index + 1) :: parts) (length + (block.take (index + 1)).length),
      lineStart)
  | none =>
    if length + block.length > maxLineBytes then .inl (.skip, start)
    else .inr (block :: parts, length + block.length)

/-- Where the block before `stop` starts. -/
def blockStart (stop : ℕ) : ℕ := stop - blockBytes

/-- The block loop, from `stop` backwards. -/
def previousLineFrom (reader : FileReader) :
    ℕ → ℕ → List (List UInt8) → ℕ → ScanState → Except LogError (LineRead × FileReader × ScanState)
  | 0, _, parts, length, state => .ok (joinLine 0 parts length, { reader with offset := 0 }, state)
  | fuel + 1, stop, parts, length, state =>
    if stop = 0 then .ok (joinLine 0 parts length, { reader with offset := 0 }, state)
    else do
      match ← readBlock reader (blockStart stop) stop state with
      | (none, state) => .ok (.budget, reader, state)
      | (some block, state) =>
        match scanBlock (blockStart stop) parts length block with
        | .inl (line, offset) => .ok (line, { reader with offset }, state)
        | .inr (parts, length) => previousLineFrom reader fuel (blockStart stop) parts length state

def previousLine (reader : FileReader) (state : ScanState) :
    Except LogError (LineRead × FileReader × ScanState) :=
  previousLineFrom reader reader.offset reader.offset [] 0 state

/-- The line loop: lines that are too long or not asked for are passed over. -/
def nextEntryFrom [Libraries] (query : LogQuery) :
    ℕ → FileReader → ScanState → Except LogError (Option FoundEntry × FileReader × ScanState)
  | 0, reader, state => .ok (none, reader, state)
  | fuel + 1, reader, state => do
    match ← previousLine reader state with
    | (.skip, next, state) => nextEntryFrom query fuel next state
    | (.finished, next, state) => .ok (none, next, state)
    | (.budget, next, state) => .ok (none, next, state)
    | (.data start line, next, state) =>
      match ← parseEntry reader.source line query with
      | none => nextEntryFrom query fuel next state
      | some entry =>
        .ok (some { entry := { entry with id := "" }, start, stop := reader.offset,
                    digest := Libraries.hash line, rule := reader.source, file := reader.name }, next, state)

def nextEntry [Libraries] (reader : FileReader) (query : LogQuery) (state : ScanState) :
    Except LogError (Option FoundEntry × FileReader × ScanState) :=
  nextEntryFrom query reader.offset reader state

end Vyuh.Console.Logs
