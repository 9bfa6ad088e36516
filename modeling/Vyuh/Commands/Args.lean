import Vyuh.Auth.Location
import Vyuh.Json.Bytes
import Vyuh.Lib.FMap

/-! Command-line arguments (`commands/args.rs`): the flags that a command's schema declares, and how an
    argument list is read with them. -/

namespace Vyuh.Commands

open Lib Json

inductive CommandArgType
  | string
  | number
  | integer
  | boolean
  | array (item : CommandArgType)
  deriving DecidableEq

structure CommandArg where
  name : List Char
  flag : List Char
  argType : CommandArgType
  required : Bool
  deriving DecidableEq

inductive CommandError
  | unsupportedSchema (reason : String)
  | unsupportedType (type : String)
  | unknownFlag (command flag : List Char)
  | unexpectedArgument (command argument : List Char)
  | missingRequired (flag : List Char)
  | missingValue (flag : List Char)
  | tooManyValues (flag : List Char) (count : ℕ)
  | duplicateFlag (command flag : List Char)
  | parseError (flag value : List Char) (expectedType error : String)
  | deserializeError (reason : String)
  deriving DecidableEq

/-- `str::parse::<f64>` with `Number::from_f64`, which has nothing for what is not finite; `Number::from`
    and the texts of numbers. -/
class Numbers (ν : Type) where
  parseF64 : List Char → Except String (Option ν)
  ofInt : ℤ → ν
  display : ν → List Char

/-! ### Schemas -/

section

variable {ν : Type}

abbrev Fields (ν : Type) := List (String × Value ν)

def asObject : Value ν → Option (Fields ν)
  | .object fields => some fields
  | _ => none

def asArray : Value ν → Option (List (Value ν))
  | .array items => some items
  | _ => none

def asStr : Value ν → Option String
  | .string s => some s
  | _ => none

/-- `str::replace` of a tilde and a digit. -/
def replaceTilde (digit char : Char) : List Char → List Char
  | [] => []
  | [c] => [c]
  | c :: d :: rest =>
    if c = '~' ∧ d = digit then char :: replaceTilde digit char rest else c :: replaceTilde digit char (d :: rest)

def decodePointer (segment : List Char) : String :=
  String.ofList (replaceTilde '0' '~' (replaceTilde '1' '/' segment))

def resolveRootSchemaObject (root : Fields ν) : Except CommandError (Fields ν) :=
  match (root.lookup "$ref").bind asStr with
  | none => .ok root
  | some reference =>
    match reference.toList.dropPrefix? "#/".toList with
    | none => .error (.unsupportedSchema ("unsupported schema reference: " ++ reference))
    | some path =>
      match (path.splitOn '/').foldlM (fun value segment =>
        (asObject value).bind fun fields => fields.lookup (decodePointer segment)) (Value.object root) with
      | none => .error (.unsupportedSchema ("schema reference not found: " ++ reference))
      | some value =>
        match asObject value with
        | none => .error (.unsupportedSchema ("schema reference is not an object: " ++ reference))
        | some fields => .ok fields

/-- A type that is not null. -/
def namedType (value : Value ν) : Option String := (asStr value).filter (· ≠ "null")

def extractTypeFromSchema (schema : Fields ν) : Except CommandError String :=
  match schema.lookup "anyOf" with
  | some anyOf =>
    match (asArray anyOf).bind fun items =>
      items.findSome? fun item => ((asObject item).bind fun fields => fields.lookup "type").bind namedType with
    | none => .error (.unsupportedSchema "anyOf schema type not found or unsupported")
    | some type => .ok type
  | none =>
    match schema.lookup "type" with
    | some (.string s) => .ok s
    | some (.array items) =>
      match items.findSome? namedType with
      | none => .error (.unsupportedSchema "type array has no non-null entry")
      | some type => .ok type
    | some _ => .error (.unsupportedSchema "Property type is not a string or array")
    | none => .error (.unsupportedSchema "Property type missing")

def scalarType (type : String) : Except CommandError CommandArgType :=
  match type with
  | "string" => .ok .string
  | "number" => .ok .number
  | "integer" => .ok .integer
  | "boolean" => .ok .boolean
  | _ => .error (.unsupportedType type)

def parseArrayType (property : Fields ν) : Except CommandError CommandArgType :=
  match property.lookup "items" with
  | none => .error (.unsupportedSchema "Array items schema missing")
  | some items =>
    match asObject items with
    | none => .error (.unsupportedSchema "Array item schema is not an object")
    | some fields => do
      let type ← extractTypeFromSchema fields
      let item ← scalarType type
      .ok (.array item)

def parseArgType (property : Fields ν) : Except CommandError CommandArgType := do
  let type ← extractTypeFromSchema property
  if type = "array" then parseArrayType property else scalarType type

def toFlagName (name : List Char) : List Char := name.map fun c => if c = '_' then '-' else c

def parseProperty (required : List String) (entry : String × Value ν) : Except CommandError CommandArg :=
  match asObject entry.2 with
  | none => .error (.unsupportedSchema "property schema is not an object")
  | some property => do
    let argType ← parseArgType property
    .ok ⟨entry.1.toList, toFlagName entry.1.toList, argType, required.contains entry.1⟩

def parseSchemaToArgs (schema : Value ν) : Except CommandError (List CommandArg) :=
  match asObject schema with
  | none => .error (.unsupportedSchema "schema is not an object")
  | some root => do
    let fields ← resolveRootSchemaObject root
    match (fields.lookup "properties").bind asObject with
    | some properties =>
      properties.mapM (parseProperty ((((fields.lookup "required").bind asArray).getD []).filterMap asStr))
    | none =>
      if (fields.lookup "type").bind asStr = some "object" then .ok []
      else .error (.unsupportedSchema "Command argument schema must be an object with named fields")

end

/-! ### Flags -/

/-- The values of each argument, in the order of their first flags. -/
abbrev Store := List (List Char × List (List Char))

/-- `entry(name).or_default()`, with values put behind the ones there. -/
def pushValues (name : List Char) (values : List (List Char)) : Store → Store
  | [] => [(name, values)]
  | (key, old) :: store =>
    if key = name then (key, old ++ values) :: store else (key, old) :: pushValues name values store

abbrev ArgMap := FMap (List Char) CommandArg

/-- An argument is found by its name and by its flag; a later one takes the place of an earlier one. -/
def buildArgMap (args : List CommandArg) : ArgMap :=
  args.foldl (fun argMap arg => (argMap.insert arg.name arg).insert arg.flag arg) FMap.empty

/-- `trim_start_matches("--")`. -/
def trimDashes : List Char → List Char
  | '-' :: '-' :: rest => trimDashes rest
  | text => text

def isFlag (token : List Char) : Bool := "--".toList.isPrefixOf token

def CommandArgType.isArray : CommandArgType → Bool
  | .array _ => true
  | _ => false

section

variable (command : List Char)

def ensureFlagCanStart (store : Store) (arg : CommandArg) : Except CommandError Unit :=
  if !arg.argType.isArray && (store.lookup arg.name).isSome then .error (.duplicateFlag command arg.flag) else .ok ()

def insertFlagValue (store : Store) (arg : CommandArg) (value : List Char) : Except CommandError Store := do
  ensureFlagCanStart command store arg
  .ok (pushValues arg.name [value] store)

/-- Where the loop over the tokens stands: the values read so far, the argument that values which follow belong
    to, and whether the next token has been read, too. -/
structure Cursor where
  store : Store
  key : Option (List Char)
  skip : Bool

def handleBoolFlag (arg : CommandArg) (next : Option (List Char)) (store : Store) : Except CommandError Cursor :=
  match next.filter (fun next => !isFlag next && (next = "true".toList || next = "false".toList)) with
  | some value => do
    let store ← insertFlagValue command store arg value
    .ok ⟨store, none, true⟩
  | none => do
    let store ← insertFlagValue command store arg "true".toList
    .ok ⟨store, none, false⟩

/-- The key of a flag, and the value that is written behind it. -/
def splitFlag (flag : List Char) : List Char × Option (List Char) :=
  match Auth.splitOnce '=' (trimDashes flag) with
  | some (key, value) => (key, some value)
  | none => (trimDashes flag, none)

def handleFlag (flag : List Char) (next : Option (List Char)) (store : Store) (argMap : ArgMap) :
    Except CommandError Cursor :=
  let (key, inlineValue) := splitFlag flag
  match key.dropPrefix? "no-".toList with
  | some stripped =>
    match (argMap stripped).filter (·.argType = .boolean) with
    | some arg => do
      let store ← insertFlagValue command store arg "false".toList
      .ok ⟨store, none, false⟩
    | none => .error (.unknownFlag command key)
  | none =>
    match argMap key with
    | none => .error (.unknownFlag command key)
    | some arg =>
      match inlineValue with
      | some value => do
        let store ← insertFlagValue command store arg value
        .ok ⟨store, none, false⟩
      | none =>
        if arg.argType = .boolean then handleBoolFlag command arg next store
        else do
          ensureFlagCanStart command store arg
          .ok ⟨pushValues arg.name [] store, some arg.name, false⟩

def parseToken (argMap : ArgMap) (cursor : Cursor) (token : List Char) (next : Option (List Char)) :
    Except CommandError Cursor :=
  if cursor.skip then .ok { cursor with skip := false }
  else if isFlag token then handleFlag command token next cursor.store argMap
  else
    match cursor.key with
    | some key => .ok { cursor with store := pushValues key [token] cursor.store }
    | none => .error (.unexpectedArgument command token)

def parseTokens (argMap : ArgMap) (cursor : Cursor) : List (List Char) → Except CommandError Cursor
  | [] => .ok cursor
  | token :: tokens => do
    let cursor ← parseToken command argMap cursor token tokens.head?
    parseTokens argMap cursor tokens

def parseFlagArgs (argMap : ArgMap) (tokens : List (List Char)) : Except CommandError Store := do
  let cursor ← parseTokens command argMap ⟨[], none, false⟩ tokens
  .ok cursor.store

end

/-! ### Values -/

def validateArgValues (flag : List Char) (values : List (List Char)) : CommandArgType → Except CommandError Unit
  | .array _ => if values.isEmpty then .error (.missingValue flag) else .ok ()
  | .boolean => if values.length ≠ 1 then .error (.tooManyValues flag values.length) else .ok ()
  | _ =>
    if values.isEmpty then .error (.missingValue flag)
    else if 1 < values.length then .error (.tooManyValues flag values.length)
    else .ok ()

/-- A digit more, away from zero. -/
def pushI64 (negative : Bool) (n : ℤ) (c : Char) : Except String ℤ :=
  if !c.isDigit then .error "invalid digit found in string"
  else
    let digit : ℤ := c.toNat - '0'.toNat
    let next := if negative then 10 * n - digit else 10 * n + digit
    if next < -2 ^ 63 then .error "number too small to fit in target type"
    else if 2 ^ 63 ≤ next then .error "number too large to fit in target type"
    else .ok next

/-- `str::parse::<i64>`. -/
def parseI64 (text : List Char) : Except String ℤ :=
  match text with
  | [] => .error "cannot parse integer from empty string"
  | ['-'] | ['+'] => .error "invalid digit found in string"
  | '-' :: digits => digits.foldlM (pushI64 true) 0
  | '+' :: digits => digits.foldlM (pushI64 false) 0
  | digits => digits.foldlM (pushI64 false) 0

/-- `str::parse::<bool>`. -/
def parseBool (text : List Char) : Except String Bool :=
  if text = "true".toList then .ok true
  else if text = "false".toList then .ok false
  else .error "provided string was not `true` or `false`"

section

variable {ν : Type} [Numbers ν]

def convertSingleValue (flag value : List Char) : CommandArgType → Except CommandError (Value ν)
  | .string => .ok (.string (String.ofList value))
  | .number =>
    match Numbers.parseF64 value with
    | .error e => .error (.parseError flag value "number" e)
    | .ok none => .error (.parseError flag value "number" "invalid floating point value")
    | .ok (some number) => .ok (.number number)
  | .integer =>
    match parseI64 value with
    | .error e => .error (.parseError flag value "integer" e)
    | .ok n => .ok (.number (Numbers.ofInt n))
  | .boolean =>
    match parseBool value with
    | .error e => .error (.parseError flag value "boolean" e)
    | .ok b => .ok (.bool b)
  | .array _ => .error (.unsupportedSchema "cannot convert single value to array")

def convertValue (flag : List Char) (values : List (List Char)) : CommandArgType → Except CommandError (Value ν)
  | .array item => do
    let items ← values.mapM fun value => convertSingleValue flag value item
    .ok (.array items)
  | argType =>
    match values.head? with
    | none => .error (.missingValue flag)
    | some value => convertSingleValue flag value argType

/-- The members of a JSON object. -/
abbrev Members (ν : Type) := FMap (List Char) (Value ν)

def convertEntry (command : List Char) (argMap : ArgMap) (members : Members ν)
    (entry : List Char × List (List Char)) : Except CommandError (Members ν) :=
  match argMap entry.1 with
  | none => .error (.unknownFlag command entry.1)
  | some arg => do
    validateArgValues arg.flag entry.2 arg.argType
    let value ← convertValue arg.flag entry.2 arg.argType
    .ok (members.insert arg.name value)

def checkRequiredArgs (args : List CommandArg) (members : Members ν) : Except CommandError Unit :=
  forM args fun arg =>
    if arg.argType = .boolean then .ok ()
    else if arg.required && !members.contains arg.name then .error (.missingRequired arg.flag)
    else .ok ()

/-- A switch that is not given is off. -/
def injectFalse (args : List CommandArg) (members : Members ν) : Members ν :=
  args.foldl (fun members arg =>
    if arg.argType = .boolean ∧ ¬members.contains arg.name then members.insert arg.name (.bool false)
    else members) members

/-- The object that a command's arguments are read from. -/
def parseMembers (command : List Char) (argv : List (List Char)) (args : List CommandArg) :
    Except CommandError (Members ν) := do
  let store ← parseFlagArgs command (buildArgMap args) argv
  let members ← store.foldlM (convertEntry command (buildArgMap args)) FMap.empty
  checkRequiredArgs args members
  .ok (injectFalse args members)

/-- `T` is whatever the object can be deserialized to. -/
def parseArgs {T : Type} (fromValue : Members ν → Except String T) (command : List Char) (argv : List (List Char))
    (args : List CommandArg) : Except CommandError T := do
  let members ← parseMembers command argv args
  (fromValue members).mapError .deserializeError

end

end Vyuh.Commands
