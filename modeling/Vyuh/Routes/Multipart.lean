import Mathlib
import Vyuh.Lib.BTreeMap
import Vyuh.Lib.Step
import Vyuh.Validation.Report

/-! Multipart forms (`routes/multipart.rs`): what a form declares, and how its fields are read off the stream
    and checked. -/

namespace Vyuh.Routes

open Lib Validation

abbrev Bytes := List UInt8

/-- `UploadConf`, as far as forms are read with it. -/
structure UploadConf where
  maxRequestBytes : ℕ
  maxFileBytes : ℕ
  maxFiles : ℕ
  maxFields : ℕ
  memoryThresholdBytes : ℕ
  fits : maxRequestBytes < 2 ^ 64

/-- What is around the parser: `infer::get`, the file that `create_temp_file` makes, and the text of a UTF-8
    error. -/
structure Host where
  infer : Bytes → Option String
  tempPath : String
  utf8Error : Bytes → String

inductive MultipartError
  | invalid (reason : String)
  | unsupported (field reason : String)
  | tooLarge (field reason : String)
  | validation (report : ValidationReport)
  deriving DecidableEq

inductive UploadedFileData
  | memory (bytes : Bytes)
  | temp (path : String) (bytes : Bytes)
  deriving DecidableEq

structure UploadedFile where
  fieldName : String
  fileName : Option String
  contentType : Option String
  sniffedContentType : Option String
  size : ℕ
  data : UploadedFileData
  deriving DecidableEq

def UploadedFileData.bytes : UploadedFileData → Bytes
  | .memory bytes => bytes
  | .temp _ bytes => bytes

structure MultipartMap where
  texts : BTreeMap String (List String)
  files : BTreeMap String (List UploadedFile)
  deriving DecidableEq

/-! ### Rules -/

structure FieldRule where
  required : Bool
  maxLength : Option ℕ
  maxBytes : Option ℕ
  multiple : Bool

inductive SniffRule
  | image
  | mime (allowed : List String)

structure FileRule where
  required : Bool
  maxSize : Option ℕ
  contentTypes : List String
  extensions : List String
  sniff : Option SniffRule
  multiple : Bool

def FieldRule.new : FieldRule := ⟨false, none, none, false⟩

def FileRule.new : FileRule := ⟨false, none, [], [], none, false⟩

structure MultipartSpec where
  text : BTreeMap String FieldRule
  files : BTreeMap String FileRule
  allowUnknown : Bool
  textKeys : text.keys.Nodup
  fileKeys : files.keys.Nodup

inductive RuleRef
  | text (rule : FieldRule)
  | file (rule : FileRule)

def MultipartSpec.ruleFor (spec : MultipartSpec) (name : String) (isFile : Bool) : Option RuleRef :=
  if isFile then (spec.files.get name).map .file else (spec.text.get name).map .text

def atField (name : String) : Validation.Path := ⟨[.field name]⟩

def invalidField (name message : String) : MultipartError :=
  .validation (ValidationReport.empty.push (atField name) ⟨"invalid", message, []⟩)

/-- A file and a text are required, and supplied once, in the same way. -/
def validatePresence (required multiple : Bool) (name : String) (count : ℕ) (report : ValidationReport) :
    ValidationReport :=
  let report :=
    if required && count = 0 then report.push (atField name) ⟨"required", "This field is required.", []⟩ else report
  if !multiple && 1 < count then
    report.push (atField name) ⟨"duplicate_field", "This field may be supplied only once.", []⟩
  else report

def FieldRule.validateValue (rule : FieldRule) (name : String) (report : ValidationReport) (value : String) :
    ValidationReport :=
  let report := match rule.maxLength with
    | some max =>
      if max < value.length then
        report.push (atField name)
          ⟨"max_length", s!"Ensure this field has at most {max} characters.", [("max", toString max)]⟩
      else report
    | none => report
  match rule.maxBytes with
  | some max =>
    if max < value.utf8ByteSize then
      report.push (atField name) ⟨"max_bytes", s!"Ensure this field has at most {max} bytes.", [("max", toString max)]⟩
    else report
  | none => report

def FieldRule.validateValues (rule : FieldRule) (name : String) (values : List String) (report : ValidationReport) :
    ValidationReport :=
  values.foldl (rule.validateValue name) (validatePresence rule.required rule.multiple name values.length report)

def SniffRule.validate (rule : SniffRule) (fieldName : String) (sniffed : Option String) : Except MultipartError Unit :=
  match sniffed with
  | none => .error (.unsupported fieldName "could not detect uploaded file type")
  | some sniffed =>
    match rule with
    | .image =>
      if "image/".isPrefixOf sniffed then .ok ()
      else .error (.unsupported fieldName s!"uploaded file content was detected as '{sniffed}'")
    | .mime allowed =>
      if allowed.contains sniffed then .ok ()
      else .error (.unsupported fieldName s!"uploaded file content was detected as '{sniffed}'")

/-- What follows the last dot of a file name. -/
def extension (fileName : String) : Option String :=
  if fileName.contains '.' then
    some (String.ofList (fileName.toList.reverse.takeWhile (· ≠ '.')).reverse)
  else none

namespace FileRule

def maxSizeOr (rule : FileRule) (fallback : ℕ) : ℕ := rule.maxSize.getD fallback

def validateContentType (rule : FileRule) (fieldName : String) (contentType : Option String) :
    Except MultipartError Unit :=
  if rule.contentTypes.isEmpty then .ok ()
  else
    match contentType.map String.toLower with
    | none => .error (.unsupported fieldName "missing file content type")
    | some contentType =>
      if rule.contentTypes.contains contentType then .ok ()
      else .error (.unsupported fieldName s!"unsupported content type '{contentType}'")

def validateExtension (rule : FileRule) (fieldName : String) (fileName : Option String) : Except MultipartError Unit :=
  if rule.extensions.isEmpty then .ok ()
  else
    match fileName.bind extension with
    | some extension =>
      if rule.extensions.contains extension.toLower then .ok ()
      else .error (.unsupported fieldName "unsupported file extension")
    | none => .error (.unsupported fieldName "unsupported file extension")

def validateHeaders (rule : FileRule) (fieldName : String) (fileName contentType : Option String) :
    Except MultipartError Unit := do
  rule.validateContentType fieldName contentType
  rule.validateExtension fieldName fileName

def validateSniff (rule : FileRule) (fieldName : String) (sniffed : Option String) : Except MultipartError Unit :=
  match rule.sniff with
  | some sniff => sniff.validate fieldName sniffed
  | none => .ok ()

end FileRule

/-! ### Finished forms -/

def sniffLimit : ℕ := 8192

/-- The type of a text of bytes, by its first 8192 bytes. -/
def Host.mime (host : Host) (bytes : Bytes) : Option String := (host.infer bytes).map String.toLower

def detectFileMime (host : Host) (file : UploadedFile) : Option String := host.mime (file.data.bytes.take sniffLimit)

def FileRule.validateFile (host : Host) (rule : FileRule) (name : String) (file : UploadedFile) :
    Except MultipartError Unit :=
  if rule.maxSize.any (· < file.size) then .error (.tooLarge name s!"file exceeds {rule.maxSize.getD 0} bytes")
  else do
    rule.validateHeaders name file.fileName file.contentType
    if rule.sniff.isSome then rule.validateSniff name (file.sniffedContentType.or (detectFileMime host file)) else .ok ()

def FileRule.validateFiles (host : Host) (rule : FileRule) (name : String) (values : List UploadedFile)
    (report : ValidationReport) : Except MultipartError ValidationReport := do
  forM values (rule.validateFile host name)
  .ok (validatePresence rule.required rule.multiple name values.length report)

def pushUnknown (declared : String → Bool) (names : List String) (report : ValidationReport) : ValidationReport :=
  (names.filter (!declared ·)).foldl
    (fun report name => report.push (atField name) ⟨"unknown_field", "Unknown multipart field.", []⟩) report

namespace MultipartSpec

def validateMap (host : Host) (spec : MultipartSpec) (map : MultipartMap) : Except MultipartError Unit := do
  let report := spec.text.foldl (fun report (name, rule) =>
    rule.validateValues name ((map.texts.get name).getD []) report) ValidationReport.empty
  let report ← spec.files.foldlM (fun report (name, rule) =>
    rule.validateFiles host name ((map.files.get name).getD []) report) report
  let report :=
    if spec.allowUnknown then report
    else pushUnknown spec.files.containsKey map.files.keys (pushUnknown spec.text.containsKey map.texts.keys report)
  if report.isEmpty then .ok () else .error (.validation report)

end MultipartSpec

/-! ### Reading fields -/

/-- A field of a form and the chunks its content arrives in. -/
structure Field where
  name : Option String
  fileName : Option String
  contentType : Option String
  chunks : List Bytes

/-- `u64::saturating_add`. -/
def saturatingAdd (a b : ℕ) : ℕ := min (a + b) (2 ^ 64 - 1)

def addBytes (total next max : ℕ) : Except MultipartError ℕ :=
  if max < saturatingAdd total next then .error (.tooLarge "body" s!"multipart request exceeds {max} bytes")
  else .ok (saturatingAdd total next)

def readTextChunk (name : String) (rule : FieldRule) (conf : UploadConf) (state : Bytes × ℕ) (chunk : Bytes) :
    Except MultipartError (Bytes × ℕ) := do
  let requestBytes ← addBytes state.2 chunk.length conf.maxRequestBytes
  if rule.maxBytes.any (· < state.1.length + chunk.length) then
    .error (.tooLarge name s!"field exceeds {rule.maxBytes.getD 0} bytes")
  else .ok (state.1 ++ chunk, requestBytes)

/-- The text of a field, and how much of the request has been read with it. -/
def readTextField (host : Host) (name : String) (rule : FieldRule) (conf : UploadConf) (requestBytes : ℕ)
    (chunks : List Bytes) : Except MultipartError (String × ℕ) := do
  let (bytes, requestBytes) ← chunks.foldlM (readTextChunk name rule conf) ([], requestBytes)
  match String.fromUTF8? ⟨bytes.toArray⟩ with
  | some text => .ok (text, requestBytes)
  | none => .error (invalidField name (host.utf8Error bytes))

/-- Where the reading of a file stands. -/
structure Reading where
  requestBytes : ℕ
  size : ℕ
  memory : Bytes
  temp : Option Bytes
  sniffPrefix : Bytes
  sniffChecked : Bool
  sniffedContentType : Option String

/-- The bytes that a file's type is looked up by grow with each chunk, until they have a type. -/
def sniffChunk (host : Host) (name : String) (rule : FileRule) (state : Reading) (chunk : Bytes) :
    Except MultipartError Reading :=
  if rule.sniff.isSome && state.sniffPrefix.length < sniffLimit then
    let remaining := sniffLimit - state.sniffPrefix.length
    let state := { state with sniffPrefix := state.sniffPrefix ++ chunk.take (min chunk.length remaining) }
    if !state.sniffChecked && !state.sniffPrefix.isEmpty then
      match host.mime state.sniffPrefix with
      | some mime => do
        rule.validateSniff name (some mime)
        .ok { state with sniffedContentType := some mime, sniffChecked := true }
      | none => .ok state
    else .ok state
  else .ok state

/-- Bytes stay in memory as long as they are few, and are written to a temporary file else. -/
def storeChunk (conf : UploadConf) (state : Reading) (chunk : Bytes) : Reading :=
  match state.temp with
  | some file => { state with temp := some (file ++ chunk) }
  | none =>
    if conf.memoryThresholdBytes < state.memory.length + chunk.length then
      { state with temp := some (state.memory ++ chunk), memory := [] }
    else { state with memory := state.memory ++ chunk }

def readFileChunk (host : Host) (name : String) (rule : FileRule) (conf : UploadConf) (state : Reading)
    (chunk : Bytes) : Except MultipartError Reading := do
  let requestBytes ← addBytes state.requestBytes chunk.length conf.maxRequestBytes
  let maxSize := rule.maxSizeOr conf.maxFileBytes
  if maxSize < state.size + chunk.length then .error (.tooLarge name s!"file exceeds {maxSize} bytes")
  else do
    let state ← sniffChunk host name rule { state with requestBytes, size := state.size + chunk.length } chunk
    .ok (storeChunk conf state chunk)

def finishSniff (host : Host) (name : String) (rule : FileRule) (state : Reading) :
    Except MultipartError (Option String) :=
  if rule.sniff.isSome && !state.sniffChecked then do
    rule.validateSniff name (host.mime state.sniffPrefix)
    .ok (host.mime state.sniffPrefix)
  else .ok state.sniffedContentType

def Reading.data (host : Host) (state : Reading) : UploadedFileData :=
  match state.temp with
  | some file => .temp host.tempPath file
  | none => .memory state.memory

/-- The file of a field, and how much of the request has been read with it. -/
def readFileField (host : Host) (name : String) (rule : FileRule) (conf : UploadConf) (requestBytes : ℕ)
    (field : Field) : Except MultipartError (UploadedFile × ℕ) := do
  rule.validateHeaders name field.fileName field.contentType
  let state ← field.chunks.foldlM (readFileChunk host name rule conf) ⟨requestBytes, 0, [], none, [], false, none⟩
  let sniffed ← finishSniff host name rule state
  .ok (⟨name, field.fileName, field.contentType, sniffed, state.size, state.data host⟩, state.requestBytes)

/-! ### Reading forms -/

def isEmptyOptionalFile (fileName : Option String) (rule : FileRule) : Bool :=
  !rule.required && fileName.any String.isEmpty

structure Progress where
  map : MultipartMap
  fileCount : ℕ
  fieldCount : ℕ
  requestBytes : ℕ

/-- `entry(name).or_default().push(value)`. -/
def pushEntry {υ : Type} (entries : BTreeMap String (List υ)) (name : String) (value : υ) : BTreeMap String (List υ) :=
  entries.insert name ((entries.get name).getD [] ++ [value])

def takeText (host : Host) (conf : UploadConf) (rule : FieldRule) (name : String) (progress : Progress)
    (field : Field) : Except MultipartError Progress := do
  let (text, requestBytes) ← readTextField host name rule conf progress.requestBytes field.chunks
  .ok { progress with map := { progress.map with texts := pushEntry progress.map.texts name text }, requestBytes }

def takeFile (host : Host) (conf : UploadConf) (rule : FileRule) (name : String) (progress : Progress)
    (field : Field) : Except MultipartError Progress :=
  if conf.maxFiles < progress.fileCount + 1 then
    .error (.tooLarge "body" s!"multipart form exceeds {conf.maxFiles} files")
  else do
    let (file, requestBytes) ← readFileField host name rule conf progress.requestBytes field
    .ok { progress with
      map := { progress.map with files := pushEntry progress.map.files name file }
      fileCount := progress.fileCount + 1, requestBytes }

def readField (host : Host) (conf : UploadConf) (spec : Option MultipartSpec) (progress : Progress) (field : Field) :
    Except MultipartError Progress :=
  let progress := { progress with fieldCount := progress.fieldCount + 1 }
  if conf.maxFields < progress.fieldCount then
    .error (.tooLarge "body" s!"multipart form exceeds {conf.maxFields} fields")
  else
    match field.name with
    | none => .error (.invalid "multipart field is missing a name")
    | some name =>
      let isFile := field.fileName.isSome
      match spec.bind (·.ruleFor name isFile) with
      | some (.text rule) => takeText host conf rule name progress field
      | some (.file rule) =>
        if isEmptyOptionalFile field.fileName rule then .ok progress else takeFile host conf rule name progress field
      | none =>
        if spec.isSome then .error (invalidField name "Unknown multipart field.")
        else if isFile then takeFile host conf FileRule.new name progress field
        else takeText host conf FieldRule.new name progress field

/-- What is read off a well-formed stream of fields. -/
def parseMultipart (host : Host) (conf : UploadConf) (spec : Option MultipartSpec) (body : List Field) :
    Except MultipartError MultipartMap := do
  let progress ← body.foldlM (readField host conf spec) ⟨⟨[], []⟩, 0, 0, 0⟩
  match spec with
  | some spec => spec.validateMap host progress.map
  | none => .ok ()
  .ok progress.map

end Vyuh.Routes
