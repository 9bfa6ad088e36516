import Mathlib
import Vyuh.Lib.BTreeMap

/-! One log line as a console entry (`console/logs.rs`): the JSON of a tracing event, the filters of a
    query and the bounded rendering. Parsing JSON, dates and hashes is done by libraries. -/

namespace Vyuh.Console.Logs

open Lib

def fieldLimit : ℕ := 12
def spanLimit : ℕ := 4
def valueLimit : ℕ := 128
def debugValueLimit : ℕ := 16 * 1024

/-- A failed read; the last one is a panic of the reading thread. -/
inductive LogError
  | invalidQuery
  | invalidCursor
  | entryUnavailable
  | unavailable
  | panicked
  deriving DecidableEq, Repr

/-- A JSON value; a number is the text it prints as, an object keeps the order of its keys. -/
inductive Json
  | null
  | bool (value : Bool)
  | number (text : String)
  | string (value : String)
  | array (values : List Json)
  | object (entries : List (String × Json))

namespace Json

def asStr : Json → Option String
  | string value => some value
  | _ => none

def asArray : Json → Option (List Json)
  | array values => some values
  | _ => none

def asObject : Json → Option (List (String × Json))
  | object entries => some entries
  | _ => none

def get (value : Json) (key : String) : Option Json := do
  let entries ← value.asObject
  let entry ← entries.find? fun entry => entry.1 = key
  entry.2

end Json

/-- What is used of `serde_json`, `chrono`, `blake3` and of Unicode case mapping. Instants are nanoseconds
    and dates are days since the epoch. -/
class Libraries where
  fromSlice : List UInt8 → Option Json
  toText : Json → List UInt8
  parseFromRfc3339 : String → Option ℤ
  parseFromStr : String → Option ℤ
  hash : List UInt8 → String
  toLowercase : String → String

structure LogQuery where
  rule : Option String
  level : Option String
  target : Option String
  dateFrom : Option String
  dateTo : Option String
  q : Option String
  cursor : Option String
  deriving DecidableEq, Repr

structure LogSpan where
  name : String
  fields : BTreeMap String String
  deriving DecidableEq, Repr

structure LogEntry where
  id : String
  timestamp : String
  level : String
  target : String
  message : String
  rule : String
  fields : BTreeMap String String
  spans : List LogSpan
  deriving DecidableEq, Repr

/-! ### Filters -/

section

variable [Libraries]

def contains (text query : String) : Bool := decide (query.toList <:+: text.toList)

mutual

def valueContains (query : String) : Json → Bool
  | .string value => contains (Libraries.toLowercase value) query
  | .number text => contains text query
  | .bool value => contains (if value then "true" else "false") query
  | .array values => valuesContain query values
  | .object entries => entriesContain query entries
  | .null => false

def valuesContain (query : String) : List Json → Bool
  | [] => false
  | value :: values => valueContains query value || valuesContain query values

def entriesContain (query : String) : List (String × Json) → Bool
  | [] => false
  | (key, value) :: entries =>
    contains (Libraries.toLowercase key) query || valueContains query value || entriesContain query entries

end

/-- `time.date_naive()`, in days. -/
def dateNaive (time : ℤ) : ℤ := time / (86400 * 1000000000)

def parseDate (value : Option String) : Option ℤ := value.bind Libraries.parseFromStr

def LogQuery.startDate (query : LogQuery) : Option ℤ := parseDate query.dateFrom

def LogQuery.endDate (query : LogQuery) : Option ℤ := parseDate query.dateTo

def eqIgnoreAsciiCase (left right : String) : Bool := left.toLower = right.toLower

def matchesQuery (value : Json) (level target : String) (time : ℤ) (query : LogQuery) : Bool :=
  query.level.all (fun expected => eqIgnoreAsciiCase expected level) &&
    query.target.all (fun start => decide (start.toList <+: target.toList)) &&
    query.startDate.all (fun start => decide (start ≤ dateNaive time)) &&
    query.endDate.all (fun last => decide (dateNaive time ≤ last)) &&
    query.q.all fun text => valueContains text value

/-- The filters of a query as one key; the cursor is not part of it. -/
def LogQuery.filterKey (query : LogQuery) : String :=
  let text (value : Option String) : Json := value.elim .null .string
  Libraries.hash (Libraries.toText (.object [("rule", text query.rule), ("level", text query.level),
    ("target", text query.target), ("from", text query.dateFrom), ("to", text query.dateTo),
    ("q", text query.q)]))

end

/-! ### Rendering -/

/-- The characters in the first `max` bytes; none when a character stands across that boundary. -/
def truncateChars : ℕ → List Char → Option (List Char)
  | 0, _ => some []
  | _, [] => some []
  | max + 1, c :: rest =>
    if c.utf8Size ≤ max + 1 then (truncateChars (max + 1 - c.utf8Size) rest).map (c :: ·) else none

/-- `String::truncate` panics inside a character. -/
def truncate (value : String) (max : ℕ) : Except LogError String :=
  if value.utf8ByteSize > max then
    match truncateChars max value.toList with
    | some kept => .ok (String.ofList kept ++ "…")
    | none => .error .panicked
  else .ok value

/-- Selects a bounded field length while preserving debug diagnostics. -/
def valueLimitOf (key : String) : ℕ :=
  if "debug_".toList <+: key.toList then debugValueLimit else valueLimit

def scalarText : Json → Option String
  | .string value => some value
  | .number text => some text
  | .bool value => some (if value then "true" else "false")
  | _ => none

def scalar (key : String) (value : Json) : Except LogError (Option String) :=
  match scalarText value with
  | none => .ok none
  | some text => do .ok (some (← truncate text (valueLimitOf key)))

/-- The first scalars; what comes after the last one taken is not looked at. -/
def takeFields : ℕ → List (String × Json) → Except LogError (List (String × String))
  | 0, _ => .ok []
  | _, [] => .ok []
  | count + 1, (key, value) :: rest => do
    match ← scalar key value with
    | none => takeFields (count + 1) rest
    | some text => .ok ((key, text) :: (← takeFields count rest))

def fieldsOut (value : List (String × Json)) : Except LogError (BTreeMap String String) := do
  .ok ((← takeFields fieldLimit value).foldl (fun fields (key, text) => fields.insert key text) [])

/-- The fields of an event or a span. -/
def fieldsOf (value : Json) : Except LogError (BTreeMap String String) :=
  ((value.get "fields").bind Json.asObject).elim (.ok []) fieldsOut

def spanOut (value : Json) : Except LogError (Option LogSpan) :=
  match (value.get "name").bind Json.asStr with
  | none => .ok none
  | some name => do .ok (some ⟨name, ← fieldsOf value⟩)

def spansOut (values : List Json) : Except LogError (List LogSpan) := do
  .ok (← (values.take spanLimit).mapM spanOut).reduceOption

def normalizeEntry (rule timestamp level target : String) (value : Json) : Except LogError LogEntry := do
  let fields ← fieldsOf value
  let spans ← ((value.get "spans").bind Json.asArray).elim (.ok []) spansOut
  .ok { id := "", timestamp, level := level.toUpper, target, message := (fields.get "message").getD "",
        rule, fields, spans }

/-- The entry of a line, if it is an event that the query asks for. -/
def parseEntry [Libraries] (rule : String) (line : List UInt8) (query : LogQuery) :
    Except LogError (Option LogEntry) :=
  match Libraries.fromSlice line with
  | none => .ok none
  | some value =>
    match (value.get "timestamp").bind Json.asStr with
    | none => .ok none
    | some timestamp =>
      match Libraries.parseFromRfc3339 timestamp with
      | none => .ok none
      | some time =>
        let level := ((value.get "level").bind Json.asStr).getD "INFO"
        let target := ((value.get "target").bind Json.asStr).getD ""
        if matchesQuery value level target time query then do
          .ok (some (← normalizeEntry rule timestamp level target value))
        else .ok none

end Vyuh.Console.Logs
