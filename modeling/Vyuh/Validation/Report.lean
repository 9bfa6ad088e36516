import Vyuh.Json.Value

/-! Validation reports and their nested JSON form (`validation.rs`). -/

namespace Vyuh.Validation
open Json

/-- A single validation failure. -/
structure ValidationError where
  code : String
  message : String
  params : List (String × String)
  deriving DecidableEq, Repr

/-- A segment of a validation path. -/
inductive PathSeg where
  | field (name : String)
  | index (idx : ℕ)
  | key (name : String)
  deriving DecidableEq, Repr

/-- A path into nested data. -/
structure Path where
  segs : List PathSeg
  deriving DecidableEq, Repr

namespace Path

def root : Path := ⟨[]⟩

def isRoot (path : Path) : Bool := path.segs.isEmpty

def prefixed (seg : PathSeg) (path : Path) : Path := ⟨seg :: path.segs⟩

end Path

/-- A validation error at a path. -/
structure ValidationIssue where
  path : Path
  invalid : ValidationError
  deriving DecidableEq, Repr

/-- Collected validation issues. -/
structure ValidationReport where
  issues : List ValidationIssue
  deriving DecidableEq, Repr

/-- The failure as JSON; a parameter given twice keeps its place and takes the last text. -/
def ValidationError.toJson {ν : Type} (error : ValidationError) : Value ν :=
  .object [
    ("code", .string error.code),
    ("message", .string error.message),
    ("params", .object (error.params.foldl
      (fun fields param => updateEntry param.1 .null (fun _ => .string param.2) fields) []))]

namespace ValidationReport

variable {ν : Type}

def empty : ValidationReport := ⟨[]⟩

def isEmpty (report : ValidationReport) : Bool := report.issues.isEmpty

def push (path : Path) (invalid : ValidationError) (report : ValidationReport) : ValidationReport :=
  ⟨report.issues ++ [⟨path, invalid⟩]⟩

def pushRoot (invalid : ValidationError) (report : ValidationReport) : ValidationReport :=
  report.push .root invalid

def merge (other : ValidationReport) (seg : Option PathSeg) (report : ValidationReport) :
    ValidationReport :=
  ⟨report.issues ++ other.issues.map fun issue =>
    match seg with
    | some seg => { issue with path := issue.path.prefixed seg }
    | none => issue⟩

def extend (other : ValidationReport) (report : ValidationReport) : ValidationReport :=
  ⟨report.issues ++ other.issues⟩

/-- Prefixes every path with a segment. -/
def prefixWith (seg : PathSeg) (report : ValidationReport) : ValidationReport :=
  ⟨report.issues.map fun issue => { issue with path := ⟨seg :: issue.path.segs⟩ }⟩

def atField (name : String) (report : ValidationReport) : ValidationReport :=
  report.prefixWith (.field name)

def atIndex (idx : ℕ) (report : ValidationReport) : ValidationReport :=
  report.prefixWith (.index idx)

/-! ### The nested form -/

/-- Pushes onto an array; any other value stays as it is. -/
def pushMessage (msg : Value ν) : Value ν → Value ν
  | .array items => .array (items ++ [msg])
  | other => other

/-- An object as it is; any other value is replaced by an empty one. -/
def asObject (value : Value ν) : Value ν := if value.isObject then value else .object []

/-- The `Field` and `Key` arms of `insert_at`: `last` when the segment ends the path, else `deeper`
    inserts the rest of it. -/
def insertMember (name : String) (last : Bool) (deeper : Value ν → Value ν) (msg : Value ν) :
    Value ν → Value ν
  | .object fields =>
    if last then .object (updateEntry name (.array []) (pushMessage msg) fields)
    else .object (updateEntry name (.object []) (fun entry => deeper (asObject entry)) fields)
  | other => other

/-- The `Index` arm of `insert_at`: a value that is no array is replaced by one. -/
def insertElement (idx : ℕ) (last : Bool) (deeper : Value ν → Value ν) (msg : Value ν)
    (value : Value ν) : Value ν :=
  let items := match value with
    | .array items => items
    | _ => []
  let items := items ++ List.replicate (idx + 1 - items.length) .null
  .array (items.modify idx fun elem =>
    if last then pushMessage msg (if elem.isNull then .array [] else elem)
    else deeper (asObject elem))

def insertAt (msg : Value ν) : List PathSeg → Value ν → Value ν
  | [], value => value
  | .field name :: rest, value => insertMember name rest.isEmpty (insertAt msg rest) msg value
  | .key name :: rest, value => insertMember name rest.isEmpty (insertAt msg rest) msg value
  | .index idx :: rest, value => insertElement idx rest.isEmpty (insertAt msg rest) msg value

/-- A failure of the whole value goes to the member `non_field_errors`. -/
def insertRoot (msg : Value ν) : Value ν → Value ν
  | .object fields => .object (updateEntry "non_field_errors" (.array []) (pushMessage msg) fields)
  | other => other

def toNestedWith (render : ValidationError → Value ν) (report : ValidationReport) : Value ν :=
  report.issues.foldl
    (fun root issue =>
      let msg := render issue.invalid
      if issue.path.isRoot then insertRoot msg root else insertAt msg issue.path.segs root)
    (.object [])

def toNestedErrors (report : ValidationReport) : Value ν := report.toNestedWith (·.toJson)

def toNestedMessages (report : ValidationReport) : Value ν :=
  report.toNestedWith fun error => .string error.message

end ValidationReport

/-- `Validate for Vec<T>`: the reports of the elements, each at its index. -/
def validateVec {τ : Type} (validate : τ → Except ValidationReport Unit) (items : List τ) :
    Except ValidationReport Unit :=
  let report := items.zipIdx.foldl
    (fun report (item, idx) =>
      match validate item with
      | .ok () => report
      | .error other => report.extend (other.atIndex idx))
    .empty
  if report.isEmpty then .ok () else .error report

end Vyuh.Validation
