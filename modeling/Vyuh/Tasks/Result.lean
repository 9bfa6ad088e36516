import Vyuh.Tasks.Models

/-! Result envelopes (`result.rs`): `{"Ok":…}` or `{"Err":{"task_id":…,"message":…}}`, at most
    32 768 bytes. `serde_json` is outside the repository; what the store uses of it is the class
    `Serde`, whose members give the text of the parser's error when there is one. -/

namespace Vyuh.Tasks
open Lib

/-- The two parses the store runs: any JSON value, and a `Result<_, TaskFailure>` envelope. -/
class Serde where
  rawValueError : String → Option String
  envelopeError : String → Option String

def resultLimit : ℕ := 32768

/-- `{"Ok":null}` -/
def unitResult : String := "\x7b\"Ok\":null\x7d"

/-! ### Rendering -/

/-- Lowercase hexadecimal digit. -/
def hexDigit (n : ℕ) : Char := "0123456789abcdef".toList.getD n '0'

/-- The `count` hexadecimal digits of `u` from digit `start`, most significant first. -/
def hexDigits (u : Uuid) (start count : ℕ) : List Char :=
  (List.range count).map (fun i => hexDigit ((u.toNat / 16 ^ (31 - (start + i))) % 16))

/-- `Uuid::to_string`: the hyphenated form. -/
def Uuid.render (u : Uuid) : String :=
  String.ofList (hexDigits u 0 8 ++ '-' :: hexDigits u 8 4 ++ '-' :: hexDigits u 12 4 ++
    '-' :: hexDigits u 16 4 ++ '-' :: hexDigits u 20 12)

def TaskId.render (id : TaskId) : String := Uuid.render id.uuid

/-- One character of a JSON string, as `serde_json` writes it. -/
def escapeChar (c : Char) : List Char :=
  if c = '"' then ['\\', '"']
  else if c = '\\' then ['\\', '\\']
  else if c.toNat = 8 then ['\\', 'b']
  else if c.toNat = 9 then ['\\', 't']
  else if c.toNat = 10 then ['\\', 'n']
  else if c.toNat = 12 then ['\\', 'f']
  else if c.toNat = 13 then ['\\', 'r']
  else if c.toNat < 32 then
    ['\\', 'u', '0', '0', hexDigit (c.toNat / 16), hexDigit (c.toNat % 16)]
  else [c]

/-- `serde_json::Value::String(message).to_string()`. -/
def jsonString (message : List Char) : List Char := '"' :: message.flatMap escapeChar ++ ['"']

/-- UTF-8 length of a text. -/
def byteSize (text : List Char) : ℕ := (text.map Char.utf8Size).sum

/-- The longest prefix of at most `limit` bytes that ends on a character boundary. -/
def takeBytes : ℕ → List Char → List Char
  | _, [] => []
  | limit, c :: text => if c.utf8Size ≤ limit then c :: takeBytes (limit - c.utf8Size) text else []

/-- Display text of an error. -/
def TaskRuntimeError.render : TaskRuntimeError → String
  | .resultTooLarge actual limit =>
    "Task result is " ++ toString actual ++ " bytes; the limit is " ++ toString limit ++ " bytes"
  | .taskNotFound name => "Task '" ++ name ++ "' not found"
  | .jsonError text => "Task JSON error: " ++ text
  | .taskExecutionError text => "Task execution error: " ++ text
  | .alreadyExists id => "Task already exists: " ++ id.render
  | .invalidConfig text => "Invalid task configuration: " ++ text
  | .invalidOptions text => "Invalid task submission options: " ++ text
  | .unknownLane lane => "Task lane '" ++ lane ++ "' is not configured"
  | .idempotencyConflict id => "Idempotency key conflicts with task " ++ id.render
  | .laneBusy lane => "Task lane '" ++ lane ++ "' still has running work"

/-! ### Envelopes -/

/-- Checks the complete serialized envelope. -/
def checkSize (actual : ℕ) : Except TaskRuntimeError Unit :=
  if resultLimit < actual then .error (.resultTooLarge actual resultLimit) else .ok ()

def jsonCheck (error : Option String) : Except TaskRuntimeError Unit :=
  match error with
  | some text => .error (.jsonError text)
  | none => .ok ()

/-- Validates a successful JSON value before its seven-byte envelope is added. -/
def validateOutput [Serde] (output : String) : Except TaskRuntimeError Unit := do
  checkSize (saturatingAddUsize output.utf8ByteSize 7)
  jsonCheck (Serde.rawValueError output)

/-- Validates a low-level resume request without interpreting its success type. -/
def validateResume [Serde] (value : String) : Except TaskRuntimeError Unit := do
  checkSize value.utf8ByteSize
  jsonCheck (Serde.envelopeError value)

/-- Wraps an already validated successful value. -/
def success (output : String) : String := "\x7b\"Ok\":" ++ output ++ "\x7d"

/-- The failure envelope around one message. -/
def failureText (id : TaskId) (message : List Char) : String :=
  "\x7b\"Err\":\x7b\"task_id\":\"" ++ id.render ++ "\",\"message\":" ++
    String.ofList (jsonString message) ++ "\x7d\x7d"

/-- The shortening loop of `failure`; each round drops at least a byte, so the message's length is
    fuel enough. -/
def failureLoop (id : TaskId) : ℕ → List Char → String
  | 0, message => failureText id message
  | fuel + 1, message =>
    let result := failureText id message
    if result.utf8ByteSize ≤ resultLimit then result
    else
      let excess := result.utf8ByteSize - resultLimit
      failureLoop id fuel (takeBytes (byteSize message - (excess + 5) / 6) message)

/-- Encodes safe diagnostics, shortening only the message when the envelope is too long. -/
def failure (id : TaskId) (message : String) : String :=
  failureLoop id (byteSize message.toList + 1) message.toList

end Vyuh.Tasks
