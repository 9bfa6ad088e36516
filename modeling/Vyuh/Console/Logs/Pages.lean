import Mathlib
import Vyuh.Console.Logs.Reader

/-! Cursor-paginated reading of the configured log files (`console/logs.rs`): discovery, the merge of the
    readers into one page and the cursor that continues it. The files of a disk do not change. -/

namespace Vyuh.Console.Logs

def maxFiles : ℕ := 64

structure LogPage where
  items : List LogEntry
  rules : List String
  nextCursor : Option String
  truncated : Bool
  configured : Bool
  deriving DecidableEq, Repr

structure LogSource where
  name : String
  dir : String
  deriving DecidableEq, Repr

structure FileCursor where
  rule : String
  file : String
  offset : ℕ
  modified : ℕ
  deriving DecidableEq, Repr

structure PageCursor where
  version : ℕ
  filter : String
  files : List FileCursor
  deriving DecidableEq, Repr

structure EntryCursor where
  version : ℕ
  filter : String
  rule : String
  file : String
  start : ℕ
  digest : String
  deriving DecidableEq, Repr

inductive CursorValue
  | page (value : PageCursor)
  | entry (value : EntryCursor)
  deriving DecidableEq, Repr

/-- Sealing and opening of cursors. -/
class CursorCodec where
  sealValue : CursorValue → Except LogError String
  openToken : String → Except LogError CursorValue

/-- One directory entry; only regular files are read. -/
structure DirEntry where
  name : String
  isFile : Bool
  bytes : List UInt8
  modified : ℕ
  deriving DecidableEq, Repr

/-- The entries of every directory that exists, each name once. -/
structure Disk where
  readDir : String → Option (List DirEntry)
  distinct : ∀ dir entries, readDir dir = some entries → (entries.map DirEntry.name).Nodup

/-! ### Files -/

def fileMatches (source : LogSource) (file : String) : Bool :=
  file = source.name || (source.name ++ ".").toList.isPrefixOf file.toList

def sourceFile (source : LogSource) (entry : DirEntry) : Option FileCursor :=
  if fileMatches source entry.name && entry.isFile then
    some { rule := source.name, file := entry.name, offset := entry.bytes.length, modified := entry.modified }
  else none

def sourceFiles (disk : Disk) (source : LogSource) : List FileCursor :=
  ((disk.readDir source.dir).getD []).filterMap (sourceFile source)

def selectedSources (sources : List LogSource) (query : LogQuery) : Except LogError (List LogSource) :=
  match query.rule with
  | some name =>
    match sources.find? fun source => source.name = name with
    | some source => .ok [source]
    | none => .error .invalidQuery
  | none => .ok sources

/-- The files of the sources a query selects. -/
def listedFiles (disk : Disk) (sources : List LogSource) (query : LogQuery) :
    Except LogError (List FileCursor) := do
  .ok ((← selectedSources sources query).flatMap (sourceFiles disk))

/-- The newest files; a stable sort by descending time of modification. -/
def discoverFiles (disk : Disk) (sources : List LogSource) (query : LogQuery) :
    Except LogError (List FileCursor) := do
  let files ← listedFiles disk sources query
  .ok ((files.mergeSort fun left right => decide (right.modified ≤ left.modified)).take maxFiles)

def openReader (disk : Disk) (sources : List LogSource) (cursor : FileCursor) :
    Except LogError FileReader :=
  match sources.find? fun source => source.name = cursor.rule with
  | none => .error .invalidCursor
  | some source =>
    match ((disk.readDir source.dir).getD []).find? fun entry => entry.name = cursor.file with
    | none => .error .invalidCursor
    | some entry =>
      if !entry.isFile || !fileMatches source cursor.file || cursor.offset > entry.bytes.length then
        .error .invalidCursor
      else .ok { source := cursor.rule, name := cursor.file, file := entry.bytes, offset := cursor.offset }

/-! ### Pages -/

/-- A reader with the entry read ahead from it. -/
structure Slot where
  reader : FileReader
  next : Option FoundEntry
  deriving DecidableEq, Repr

section

variable [Libraries]

def nextEntries (query : LogQuery) : List FileReader → ScanState → Except LogError (List Slot × ScanState)
  | [], state => .ok ([], state)
  | reader :: readers, state => do
    let (next, reader, state) ← nextEntry reader query state
    let (slots, state) ← nextEntries query readers state
    .ok (⟨reader, next⟩ :: slots, state)

/-- The later of the best entry so far and the one read ahead in a slot; of equals, the one of the slot. -/
def newer (best : Option (ℕ × String)) (entry : Slot × ℕ) : Option (ℕ × String) :=
  match entry.1.next with
  | none => best
  | some found =>
    if best.any (fun other => decide (found.entry.timestamp < other.2)) then best
    else some (entry.2, found.entry.timestamp)

/-- The slot with the greatest timestamp, the last of equals. -/
def newestIndex (slots : List Slot) : Option ℕ := (slots.zipIdx.foldl newer none).map Prod.fst

variable [CursorCodec]

def entryCursor (found : FoundEntry) : Except LogError String :=
  CursorCodec.sealValue (.entry { version := 1, filter := "", rule := found.rule, file := found.file,
                                  start := found.start, digest := found.digest })

/-- The page under construction: the entries kept so far and the digests seen on the page. -/
structure PageScan where
  slots : List Slot
  state : ScanState
  entries : List LogEntry
  seen : List String

/-- Keeps an entry whose digest is new on the page. -/
def PageScan.keep (scan : PageScan) (found : FoundEntry) : Except LogError PageScan :=
  if found.digest ∈ scan.seen then .ok scan
  else do
    let id ← entryCursor found
    .ok { scan with entries := scan.entries ++ [{ found.entry with id }], seen := found.digest :: scan.seen }

/-- The merge loop; every turn takes an entry read ahead, and the reader of another one goes back. -/
def PageScan.fillFrom (query : LogQuery) (limit : ℕ) : ℕ → PageScan → Except LogError PageScan
  | 0, scan => .ok scan
  | fuel + 1, scan =>
    if scan.entries.length < limit then
      match newestIndex scan.slots with
      | none => .ok scan
      | some index =>
        match scan.slots[index]? with
        | none => .ok scan
        | some slot =>
          match slot.next with
          | none => .ok scan
          | some found => do
            let scan ← scan.keep found
            let (next, reader, state) ← nextEntry slot.reader query scan.state
            let scan := { scan with slots := scan.slots.set index ⟨reader, next⟩, state }
            if state.truncated then .ok scan else fillFrom query limit fuel scan
    else .ok scan

/-- What the merge loop may still take: a bound on its turns. -/
def PageScan.turns (scan : PageScan) : ℕ :=
  (scan.slots.map fun slot => slot.reader.offset + if slot.next.isSome then 1 else 0).sum

def PageScan.fill (query : LogQuery) (limit : ℕ) (scan : PageScan) : Except LogError PageScan :=
  fillFrom query limit scan.turns scan

/-- Where the next page has to start: an entry that was read ahead is read again. -/
def cursorFile (slot : Slot) : FileCursor :=
  { rule := slot.reader.source, file := slot.reader.name,
    offset := slot.next.elim slot.reader.offset FoundEntry.stop, modified := 0 }

def nextCursor (query : LogQuery) (slots : List Slot) (truncated : Bool) :
    Except LogError (Option String) :=
  if slots.isEmpty || (!truncated && slots.all fun slot => slot.next.isNone) then .ok none
  else do
    .ok (some (← CursorCodec.sealValue (.page { version := 1, filter := query.filterKey,
                                                files := slots.map cursorFile })))

def cursorPage (token : String) (query : LogQuery) : Except LogError (List FileCursor) := do
  match ← CursorCodec.openToken token with
  | .entry _ => .error .invalidCursor
  | .page value =>
    if value.version ≠ 1 || value.filter ≠ query.filterKey then .error .invalidCursor
    else .ok value.files

def cursorFiles (disk : Disk) (sources : List LogSource) (query : LogQuery) :
    Except LogError (List FileCursor) :=
  match query.cursor with
  | some token => cursorPage token query
  | none => discoverFiles disk sources query

def emptyPage (rules : List String) : LogPage :=
  { items := [], rules, nextCursor := none, truncated := false, configured := false }

def readPage (disk : Disk) (sources : List LogSource) (query : LogQuery) (limit : ℕ) :
    Except LogError LogPage :=
  if sources.isEmpty then .ok (emptyPage (sources.map LogSource.name))
  else do
    let files ← cursorFiles disk sources query
    let readers ← files.mapM (openReader disk sources)
    let (slots, state) ← nextEntries query readers ⟨scanBytes, false⟩
    let scan ← PageScan.fill query limit { slots, state, entries := [], seen := [] }
    let cursor ← nextCursor query scan.slots scan.state.truncated
    .ok { items := scan.entries, rules := sources.map LogSource.name, nextCursor := cursor,
          truncated := scan.state.truncated, configured := true }

end

end Vyuh.Console.Logs
