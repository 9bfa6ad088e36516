import Vyuh.Auth.Secrets
import Vyuh.Console.Logs.Pagination
import Vyuh.Json.Bytes

/-! Sealed cursors of the log pages (`console/logs.rs`): their JSON, the codec that seals and opens it, and
    which of the cursors that pages hand out are taken back. -/

namespace Vyuh.Console.Logs

open Lib Auth
open Vyuh.Json.Value (escapedSize fieldsSize marks)

/-! ### The codec -/

def maxCursorBytes : ℕ := 16 * 1024

def FileCursor.toValue (file : FileCursor) : Vyuh.Json.Value ℤ :=
  .object [("rule", .string file.rule), ("file", .string file.file), ("offset", .number file.offset),
    ("modified", .number file.modified)]

def PageCursor.toValue (cursor : PageCursor) : Vyuh.Json.Value ℤ :=
  .object [("version", .number cursor.version), ("filter", .string cursor.filter),
    ("files", .array (cursor.files.map FileCursor.toValue))]

def EntryCursor.toValue (cursor : EntryCursor) : Vyuh.Json.Value ℤ :=
  .object [("version", .number cursor.version), ("filter", .string cursor.filter),
    ("rule", .string cursor.rule), ("file", .string cursor.file), ("start", .number cursor.start),
    ("digest", .string cursor.digest)]

def CursorValue.toValue : CursorValue → Vyuh.Json.Value ℤ
  | .page cursor => .object [("kind", .string "Page"), ("value", cursor.toValue)]
  | .entry cursor => .object [("kind", .string "Entry"), ("value", cursor.toValue)]

/-- `serde_json::from_slice` of a cursor. -/
class CursorText where
  fromSlice : List UInt8 → Option CursorValue

/-- The keys of the codec of a site. -/
structure CursorKeys (κ : Type) where
  active : κ
  verification : List κ

namespace CursorKeys

variable {κ : Type} [Crypto κ]

def keyContext : String := "console-log-cursor-v1"

def new (secrets : SecretRing) : CursorKeys κ where
  active := secrets.derivedActive keyContext
  verification := secrets.derivedVerification keyContext

/-- Seals a cursor; there is no nonce when the generator of random numbers fails. -/
def sealValue (keys : CursorKeys κ) (nonce : Option Nonce) (value : CursorValue) :
    Except LogError String :=
  match nonce with
  | none => .error .unavailable
  | some nonce =>
    match Crypto.cipher.sealText keys.active nonce.val value.toValue.toVec with
    | none => .error .invalidCursor
    | some sealedText => .ok (String.ofList (sealedToken nonce.val sealedText))

/-- Opens a token with the first key that fits. -/
def openToken [CursorText] (keys : CursorKeys κ) (token : String) : Except LogError CursorValue :=
  if token.utf8ByteSize > maxCursorBytes then .error .invalidCursor
  else
    match splitToken nonceLength tagLength token.toList with
    | none => .error .invalidCursor
    | some (nonce, sealedText) =>
      match Crypto.cipher.openWith keys.verification nonce sealedText with
      | none => .error .invalidCursor
      | some opened => (CursorText.fromSlice opened).elim (.error .invalidCursor) .ok

/-- The codec with the nonces that its values are sealed under. -/
@[reducible] def codec [CursorText] (keys : CursorKeys κ) (nonces : CursorValue → Option Nonce) :
    CursorCodec where
  sealValue value := keys.sealValue (nonces value) value
  openToken := keys.openToken

variable {keys : CursorKeys κ} {nonce : Option Nonce} {value : CursorValue} {token : String}

theorem sealValue_eq_ok : keys.sealValue nonce value = .ok token ↔ ∃ bytes sealedText, nonce = some bytes ∧
    Crypto.cipher.sealText keys.active bytes.val value.toValue.toVec = some sealedText ∧
    token = String.ofList (sealedToken bytes.val sealedText) := by
  cases nonce with
  | none => exact ⟨fun h => (nomatch h), fun ⟨_, _, h, _⟩ => nomatch h⟩
  | some bytes =>
    rw [sealValue]
    constructor
    · intro h
      cases hsealed : Crypto.cipher.sealText keys.active bytes.val value.toValue.toVec with
      | none =>
        rw [hsealed] at h
        exact nomatch h
      | some sealedText =>
        rw [hsealed] at h
        exact ⟨bytes, sealedText, rfl, hsealed, (Except.ok.inj h).symm⟩
    · rintro ⟨_, sealedText, ⟨⟩, hsealed, rfl⟩
      rw [hsealed]

/-- Every value is sealed, but only tokens up to the limit are opened. -/
theorem openToken_sealValue [CursorText] (hlawful : (Crypto.cipher (κ := κ)).Lawful tagLength)
    (hfaithful : Crypto.cipher.Faithful keys.active keys.verification)
    (hactive : keys.active ∈ keys.verification)
    (hread : CursorText.fromSlice value.toValue.toVec = some value)
    (h : keys.sealValue nonce value = .ok token) :
    keys.openToken token = if value.toValue.size ≤ 12260 then .ok value else .error .invalidCursor := by
  obtain ⟨bytes, sealedText, -, hsealed, rfl⟩ := sealValue_eq_ok.mp h
  have hbytes : bytes.val.length = 12 := bytes.property
  have hsize : (String.ofList (sealedToken bytes.val sealedText)).utf8ByteSize = _ :=
    Cipher.utf8ByteSize_token hlawful hsealed
  rw [hbytes, value.toValue.length_toVec, tagLength] at hsize
  obtain ⟨hsplit, hopen⟩ :=
    Cipher.openWith_splitToken hlawful hfaithful hactive hsealed value.toValue.toVec_ne_nil
  rw [bytes.property] at hsplit
  rw [openToken, hsize, maxCursorBytes]
  by_cases hshort : value.toValue.size ≤ 12260
  · rw [if_pos hshort, if_neg (by omega), String.toList_ofList, hsplit]
    dsimp only
    rw [hopen]
    dsimp only
    rw [hread, Option.elim_some]
  · rw [if_neg hshort, if_pos (by omega)]

/-- A page of a site with these keys. -/
def readPage [Libraries] [CursorText] (keys : CursorKeys κ) (nonces : CursorValue → Option Nonce)
    (disk : Disk) (sources : List LogSource) (query : LogQuery) (limit : ℕ) : Except LogError LogPage :=
  letI := keys.codec nonces
  Logs.readPage disk sources query limit

/-- A token stands for one value, if that is short enough to be opened. -/
theorem eq_of_token [CursorText] {nonce' : Option Nonce} {value' : CursorValue}
    (hlawful : (Crypto.cipher (κ := κ)).Lawful tagLength)
    (hfaithful : Crypto.cipher.Faithful keys.active keys.verification)
    (hactive : keys.active ∈ keys.verification)
    (hread : ∀ value : CursorValue, CursorText.fromSlice value.toValue.toVec = some value)
    (h : keys.sealValue nonce value = .ok token) (hsize : value.toValue.size ≤ 12260)
    (h' : keys.sealValue nonce' value' = .ok token) : value' = value := by
  have hopen := openToken_sealValue hlawful hfaithful hactive (hread value) h
  have hopen' := openToken_sealValue hlawful hfaithful hactive (hread value') h'
  rw [if_pos hsize] at hopen
  rw [hopen] at hopen'
  split at hopen'
  · exact (Except.ok.inj hopen').symm
  · cases hopen'

/-- The files that such a page reads. -/
def cursorFiles [Libraries] [CursorText] (keys : CursorKeys κ) (disk : Disk) (sources : List LogSource)
    (query : LogQuery) : Except LogError (List FileCursor) :=
  letI := keys.codec fun _ => none
  Logs.cursorFiles disk sources query

end CursorKeys

/-! ### Sizes -/

/-- The bytes of a file's record in a page cursor, with the comma or bracket behind it. -/
def FileCursor.weight (file : FileCursor) : ℕ :=
  45 + escapedSize file.rule + escapedSize file.file +
    (Nat.toDigits 10 file.offset).length

theorem byteSize_toDigits (n : ℕ) : Tasks.byteSize (Vyuh.Json.decimal n) = (Nat.toDigits 10 n).length := by
  refine sum_ones fun c hc => ?_
  have hdigit := Nat.isDigit_of_mem_toDigits (b := 10) (n := n) (c := c) (by decide) (by decide) hc
  rw [Char.utf8Size_eq_one_iff, UInt32.le_iff_toNat_le]
  rw [Char.isDigit, Bool.and_eq_true, decide_eq_true_eq, decide_eq_true_eq] at hdigit
  exact Nat.le_trans (UInt32.le_iff_toNat_le.mp hdigit.2) (by decide)

theorem size_string (key text : String) (fields : List (String × Vyuh.Json.Value ℤ)) :
    fieldsSize ((key, .string text) :: fields) =
      escapedSize key + 5 + escapedSize text +
        fieldsSize fields := by
  rw [fieldsSize, Vyuh.Json.Value.size]
  omega

theorem size_number (key : String) (n : ℕ) (fields : List (String × Vyuh.Json.Value ℤ)) :
    fieldsSize ((key, .number n) :: fields) =
      escapedSize key + 3 + (Nat.toDigits 10 n).length +
        fieldsSize fields := by
  rw [fieldsSize, Vyuh.Json.Value.size, byteSize_toDigits]

theorem size_file {file : FileCursor} (h : file.modified = 0) : file.toValue.size + 1 = file.weight := by
  rw [FileCursor.toValue, Vyuh.Json.Value.size, size_string, size_string, size_number, size_number,
    FileCursor.weight, h]
  have hrule : escapedSize "rule" = 4 := by decide
  have hfile : escapedSize "file" = 4 := by decide
  have hoffset : escapedSize "offset" = 6 := by decide
  have hmodified : escapedSize "modified" = 8 := by decide
  have hzero : (Nat.toDigits 10 0).length = 1 := by decide
  have hnil : fieldsSize [] = 0 := rfl
  simp only [List.length_cons, List.length_nil, marks]
  omega

theorem sum_sizes {files : List FileCursor} (h : ∀ file ∈ files, file.modified = 0) :
    ((files.map FileCursor.toValue).map Vyuh.Json.Value.size).sum + files.length =
      (files.map FileCursor.weight).sum := by
  induction files with
  | nil => rfl
  | cons file files ih =>
    obtain ⟨hfile, hfiles⟩ := List.forall_mem_cons.mp h
    simp only [List.map_cons, List.sum_cons, List.length_cons, ← size_file hfile, ← ih hfiles]
    omega

/-- The bytes of a page's cursor: what stands around the files, the filter and the files. -/
theorem size_page {cursor : PageCursor} (hversion : cursor.version = 1)
    (hfiles : ∀ file ∈ cursor.files, file.modified = 0) (hne : cursor.files ≠ []) :
    (CursorValue.page cursor).toValue.size =
      59 + escapedSize cursor.filter + (cursor.files.map FileCursor.weight).sum := by
  have hpos := List.length_pos_iff.mpr hne
  have hitems : (Vyuh.Json.Value.array (cursor.files.map FileCursor.toValue)).size =
      1 + (cursor.files.map FileCursor.weight).sum := by
    rw [Vyuh.Json.Value.size, Vyuh.Json.Value.itemsSize_eq, ← sum_sizes hfiles, List.length_map, marks]
    omega
  have hvalue : cursor.toValue.size =
      35 + escapedSize cursor.filter + (cursor.files.map FileCursor.weight).sum := by
    rw [PageCursor.toValue, Vyuh.Json.Value.size, size_number, size_string, fieldsSize, hitems, hversion]
    have hversion' : escapedSize "version" = 7 := by decide
    have hfilter : escapedSize "filter" = 6 := by decide
    have hfiles' : escapedSize "files" = 5 := by decide
    have hone : (Nat.toDigits 10 1).length = 1 := by decide
    have hnil : fieldsSize [] = 0 := rfl
    simp only [List.length_cons, List.length_nil, marks]
    omega
  rw [CursorValue.toValue, Vyuh.Json.Value.size, size_string, fieldsSize, hvalue]
  have hkind : escapedSize "kind" = 4 := by decide
  have hvalue' : escapedSize "value" = 5 := by decide
  have hpage : escapedSize "Page" = 4 := by decide
  have hnil : fieldsSize [] = 0 := rfl
  simp only [List.length_cons, List.length_nil, marks]
  omega

/-! ### What a page ends with -/

theorem set_of_getElem? {α : Type} {values : List α} {index : ℕ} {value : α}
    (h : values[index]? = some value) : values.set index value = values := by
  obtain ⟨hlt, rfl⟩ := List.getElem?_eq_some_iff.mp h
  exact List.set_getElem_self hlt

/-- Where a reader reads. -/
def FileReader.place (reader : FileReader) : String × String := (reader.source, reader.name)

section

variable [Libraries] {query : LogQuery}

omit [Libraries] in
theorem previousLineFrom_place {reader reader' : FileReader} {fuel stop length : ℕ}
    {parts : List (List UInt8)} {state state' : ScanState} {line : LineRead}
    (h : previousLineFrom reader fuel stop parts length state = .ok (line, reader', state')) :
    reader'.place = reader.place := by
  induction fuel generalizing stop parts length state with
  | zero =>
    cases h
    rfl
  | succ fuel ih =>
    rw [previousLineFrom] at h
    split at h
    · cases h
      rfl
    · obtain ⟨⟨block, state₁⟩, -, hblock⟩ := Step.except_bind_ok.mp h
      cases block with
      | none =>
        cases hblock
        rfl
      | some block =>
        dsimp only at hblock
        split at hblock
        · cases hblock
          rfl
        · exact ih hblock

theorem nextEntryFrom_place {reader reader' : FileReader} {fuel : ℕ} {state state' : ScanState}
    {found : Option FoundEntry} (h : nextEntryFrom query fuel reader state = .ok (found, reader', state')) :
    reader'.place = reader.place := by
  induction fuel generalizing reader state with
  | zero =>
    cases h
    rfl
  | succ fuel ih =>
    rw [nextEntryFrom] at h
    obtain ⟨⟨line, next, state₁⟩, hline, hrest⟩ := Step.except_bind_ok.mp h
    have hplace := previousLineFrom_place hline
    cases line with
    | skip => exact (ih hrest).trans hplace
    | finished =>
      cases hrest
      exact hplace
    | budget =>
      cases hrest
      exact hplace
    | data start bytes =>
      obtain ⟨entry, -, hentry⟩ := Step.except_bind_ok.mp hrest
      cases entry with
      | none => exact (ih hentry).trans hplace
      | some entry =>
        cases hentry
        exact hplace

theorem nextEntries_places {readers : List FileReader} {state state' : ScanState} {slots : List Slot}
    (h : nextEntries query readers state = .ok (slots, state')) :
    (slots.map fun slot => slot.reader.place) = readers.map FileReader.place := by
  induction readers generalizing state slots with
  | nil =>
    cases h
    rfl
  | cons reader readers ih =>
    obtain ⟨⟨next, reader', state₁⟩, hnext, hrest⟩ := Step.except_bind_ok.mp h
    obtain ⟨⟨others, state₂⟩, hothers, hslots⟩ := Step.except_bind_ok.mp hrest
    cases hslots
    rw [List.map_cons, List.map_cons, ih hothers]
    exact congrArg (· :: _) (nextEntryFrom_place hnext)

theorem fillFrom_places [CursorCodec] {limit fuel : ℕ} {scan scan' : PageScan}
    (h : PageScan.fillFrom query limit fuel scan = .ok scan') :
    (scan'.slots.map fun slot => slot.reader.place) = scan.slots.map fun slot => slot.reader.place := by
  induction fuel generalizing scan with
  | zero =>
    cases h
    rfl
  | succ fuel ih =>
    rw [PageScan.fillFrom] at h
    split at h
    next =>
      split at h
      next =>
        cases h
        rfl
      next index _ =>
        split at h
        next =>
          cases h
          rfl
        next slot hslot =>
          split at h
          next =>
            cases h
            rfl
          next found _ =>
            obtain ⟨kept, hkept, hrest⟩ := Step.except_bind_ok.mp h
            obtain ⟨⟨next, reader, state⟩, hnext, hfill⟩ := Step.except_bind_ok.mp hrest
            have hplaces : ((kept.slots.set index ⟨reader, next⟩).map fun slot => slot.reader.place) =
                scan.slots.map fun slot => slot.reader.place := by
              rw [(keep_slots hkept).1, List.map_set]
              refine set_of_getElem? ?_
              rw [List.getElem?_map, hslot]
              exact congrArg some (nextEntryFrom_place hnext).symm
            dsimp only at hfill
            split at hfill
            · cases hfill
              exact hplaces
            · exact (ih hfill).trans hplaces
    next =>
      cases h
      rfl

omit [Libraries] in
theorem openReader_place {disk : Disk} {sources : List LogSource} {file : FileCursor} {reader : FileReader}
    (h : openReader disk sources file = .ok reader) : reader.place = file.key := by
  rw [openReader] at h
  split at h
  next => cases h
  next =>
    split at h
    next => cases h
    next =>
      split at h
      next => cases h
      next =>
        cases h
        rfl

omit [Libraries] in
theorem openReaders_places {disk : Disk} {sources : List LogSource} {files : List FileCursor}
    {readers : List FileReader} (h : files.mapM (openReader disk sources) = .ok readers) :
    readers.map FileReader.place = files.map FileCursor.key := by
  induction files generalizing readers with
  | nil =>
    cases h
    rfl
  | cons file files ih =>
    rw [List.mapM_cons] at h
    obtain ⟨reader, hreader, hrest⟩ := Step.except_bind_ok.mp h
    obtain ⟨others, hothers, hreaders⟩ := Step.except_bind_ok.mp hrest
    cases hreaders
    rw [List.map_cons, List.map_cons, ih hothers, openReader_place hreader]

/-- The cursor of a page resumes the files that the page read, in their order. -/
theorem readPage_token [CursorCodec] {disk : Disk} {sources : List LogSource} {limit : ℕ} {page : LogPage}
    {token : String} (hpage : readPage disk sources query limit = .ok page)
    (htoken : page.nextCursor = some token) :
    ∃ files resumed, cursorFiles disk sources query = .ok files ∧
      resumed.map FileCursor.key = files.map FileCursor.key ∧
      (∀ file ∈ resumed, file.modified = 0) ∧ resumed ≠ [] ∧
      CursorCodec.sealValue (.page ⟨1, query.filterKey, resumed⟩) = .ok token := by
  rcases readPage_cases hpage with rfl | ⟨files, readers, slots, state, scan, hfiles, hreaders, hslots, hscan,
    hcursor, -, -⟩
  · exact nomatch htoken
  · rw [htoken] at hcursor
    obtain ⟨hne, hseal⟩ := nextCursor_some hcursor
    have hplaces := (fillFrom_places hscan).trans
      ((nextEntries_places hslots).trans (openReaders_places hreaders))
    refine ⟨files, scan.slots.map cursorFile, hfiles, ?_, ?_, ?_, hseal⟩
    · rw [List.map_map]
      exact hplaces
    · intro file hmem
      obtain ⟨slot, -, rfl⟩ := List.mem_map.mp hmem
      rfl
    · exact fun hnil => hne (List.map_eq_nil_iff.mp hnil)

end

/-! ### Opening a page's cursor -/

variable {κ : Type} [Crypto κ]

/-- The cursor of a page opens again, with what was sealed, exactly when its files' rules, names and offsets
    together with its filter are short enough; any page may seal a longer one. -/
theorem next_cursor_opens_iff [Libraries] [CursorText] (secrets : SecretRing)
    (hlawful : (Crypto.cipher (κ := κ)).Lawful tagLength)
    (hfaithful : Crypto.cipher.Faithful (CursorKeys.new secrets : CursorKeys κ).active
      (CursorKeys.new secrets : CursorKeys κ).verification)
    {nonces : CursorValue → Option Nonce} {disk : Disk} {sources : List LogSource} {query : LogQuery}
    {limit : ℕ} {page : LogPage} {token : String}
    (hread : ∀ value, (CursorKeys.new secrets : CursorKeys κ).sealValue (nonces value) value = .ok token →
      CursorText.fromSlice value.toValue.toVec = some value)
    (hpage : (CursorKeys.new secrets : CursorKeys κ).readPage nonces disk sources query limit = .ok page)
    (htoken : page.nextCursor = some token) :
    ∃ files resumed, (CursorKeys.new secrets : CursorKeys κ).cursorFiles disk sources query = .ok files ∧
      resumed.map FileCursor.key = files.map FileCursor.key ∧
      (CursorKeys.new secrets : CursorKeys κ).sealValue (nonces (.page ⟨1, query.filterKey, resumed⟩))
        (.page ⟨1, query.filterKey, resumed⟩) = .ok token ∧
      ((CursorKeys.new secrets : CursorKeys κ).openToken token = .ok (.page ⟨1, query.filterKey, resumed⟩) ↔
        59 + escapedSize query.filterKey + (resumed.map FileCursor.weight).sum ≤ 12260) := by
  let _ := (CursorKeys.new secrets : CursorKeys κ).codec nonces
  obtain ⟨files, resumed, hfiles, hkeys, hmodified, hne, hseal⟩ := readPage_token hpage htoken
  refine ⟨files, resumed, hfiles, hkeys, hseal, ?_⟩
  have hsize : (CursorValue.page ⟨1, query.filterKey, resumed⟩).toValue.size = _ :=
    size_page rfl hmodified hne
  rw [CursorKeys.openToken_sealValue hlawful hfaithful (secrets.derivedActive_mem _) (hread _ hseal) hseal,
    hsize]
  split
  next hshort => exact iff_of_true rfl hshort
  next hlong => exact iff_of_false (fun h => nomatch h) hlong

/-! ### A page over empty files -/

/-- A file with two lines, and an empty one for each suffix. -/
def suffixedEntries (suffixes : List String) : List DirEntry :=
  ⟨"APP.2026-08-04", true, eventLine ++ newline :: eventLine, 0⟩ ::
    suffixes.map fun suffix => ⟨"APP." ++ suffix, true, [], 0⟩

theorem nodup_suffixedEntries {suffixes : List String} (h : ("2026-08-04" :: suffixes).Nodup) :
    ((suffixedEntries suffixes).map DirEntry.name).Nodup := by
  have hnames := h.map (f := fun suffix => "APP." ++ suffix) fun _ _ => (String.append_right_inj _).mp
  rwa [suffixedEntries, List.map_cons, List.map_map]

def suffixedDisk (suffixes : List String) (h : ("2026-08-04" :: suffixes).Nodup) : Disk where
  readDir dir := if dir = "logs" then some (suffixedEntries suffixes) else none
  distinct dir entries hdir := by
    obtain ⟨-, ⟨⟩⟩ := Option.ite_none_right_eq_some.mp hdir
    exact nodup_suffixedEntries h

def DirEntry.cursor (entry : DirEntry) : FileCursor := ⟨"APP", entry.name, entry.bytes.length, 0⟩

def DirEntry.reader (entry : DirEntry) : FileReader := ⟨"APP", entry.name, entry.bytes, entry.bytes.length⟩

section

attribute [local instance] eventLibraries

variable {suffixes : List String} {h : ("2026-08-04" :: suffixes).Nodup}

theorem suffixed_matches {entry : DirEntry} (hmem : entry ∈ suffixedEntries suffixes) :
    fileMatches eventSource entry.name = true ∧ entry.isFile = true ∧ entry.modified = 0 := by
  rw [suffixedEntries, List.mem_cons, List.mem_map] at hmem
  obtain rfl | ⟨suffix, -, rfl⟩ := hmem
  · decide
  · refine ⟨?_, rfl, rfl⟩
    rw [fileMatches, Bool.or_eq_true]
    right
    show ("APP." : String).toList.isPrefixOf ("APP." ++ suffix).toList = true
    rw [String.toList_append, List.isPrefixOf_iff_prefix]
    exact List.prefix_append _ _

theorem discover_suffixed (hcount : suffixes.length < 64) :
    discoverFiles (suffixedDisk suffixes h) [eventSource] eventQuery =
      .ok ((suffixedEntries suffixes).map DirEntry.cursor) := by
  have hlisted : sourceFiles (suffixedDisk suffixes h) eventSource =
      (suffixedEntries suffixes).map DirEntry.cursor := by
    rw [sourceFiles, ← List.filterMap_eq_map]
    refine List.filterMap_congr fun entry hmem => ?_
    obtain ⟨hmatches, hregular, hmodified⟩ := suffixed_matches hmem
    rw [sourceFile, hmatches, hregular, if_pos (by decide), hmodified]
    rfl
  have hsorted : ((suffixedEntries suffixes).map DirEntry.cursor).mergeSort
      (fun left right => decide (right.modified ≤ left.modified)) =
        (suffixedEntries suffixes).map DirEntry.cursor := by
    refine List.mergeSort_of_pairwise (List.pairwise_of_forall_mem_list fun left hleft right hright => ?_)
    obtain ⟨_, -, rfl⟩ := List.mem_map.mp hleft
    obtain ⟨_, -, rfl⟩ := List.mem_map.mp hright
    rfl
  rw [discoverFiles, listedFiles]
  show Except.ok (((([eventSource].flatMap (sourceFiles (suffixedDisk suffixes h)))).mergeSort _).take maxFiles) = _
  rw [List.flatMap_singleton, hlisted, hsorted, List.take_of_length_le]
  rw [List.length_map, suffixedEntries, List.length_cons, List.length_map, maxFiles]
  omega

theorem open_suffixed {entries : List DirEntry} (hsub : ∀ entry ∈ entries, entry ∈ suffixedEntries suffixes) :
    (entries.map DirEntry.cursor).mapM (openReader (suffixedDisk suffixes h) [eventSource]) =
      .ok (entries.map DirEntry.reader) := by
  induction entries with
  | nil => rfl
  | cons entry entries ih =>
    obtain ⟨hentry, hentries⟩ := List.forall_mem_cons.mp hsub
    obtain ⟨hmatches, hregular, -⟩ := suffixed_matches hentry
    have hfind : (((suffixedDisk suffixes h).readDir eventSource.dir).getD []).find?
        (fun other => other.name = entry.name) = some entry :=
      find?_of_nodup (nodup_suffixedEntries h) hentry
    have hopen : openReader (suffixedDisk suffixes h) [eventSource] entry.cursor = .ok entry.reader := by
      have hsource : [eventSource].find? (fun source => source.name = entry.cursor.rule) = some eventSource := rfl
      rw [openReader, hsource]
      dsimp only
      rw [DirEntry.cursor, hfind]
      dsimp only
      rw [hregular, hmatches]
      exact if_neg (by simp)
    rw [List.map_cons, List.mapM_cons, hopen]
    exact Step.except_bind_ok.mpr ⟨_, rfl, Step.except_bind_ok.mpr ⟨_, ih hentries, rfl⟩⟩

/-- The reader of an empty file has nothing to read ahead. -/
def emptySlot (suffix : String) : Slot := ⟨⟨"APP", "APP." ++ suffix, [], 0⟩, none⟩

theorem nextEntries_empty (suffixes : List String) (state : ScanState) :
    nextEntries eventQuery (suffixes.map fun suffix => (emptySlot suffix).reader) state =
      .ok (suffixes.map emptySlot, state) := by
  induction suffixes with
  | nil => rfl
  | cons suffix suffixes ih =>
    rw [List.map_cons, nextEntries]
    refine Step.except_bind_ok.mpr ⟨(none, (emptySlot suffix).reader, state), rfl, ?_⟩
    exact Step.except_bind_ok.mpr ⟨_, ih, rfl⟩

/-- The two lines of the first file, from its end. -/
def lineReader (offset : ℕ) : FileReader :=
  ⟨"APP", "APP.2026-08-04", eventLine ++ newline :: eventLine, offset⟩

theorem foldl_newer_empty {slots : List (Slot × ℕ)} (h : ∀ entry ∈ slots, entry.1.next = none)
    (best : Option (ℕ × String)) : slots.foldl newer best = best := by
  induction slots with
  | nil => rfl
  | cons entry slots ih =>
    obtain ⟨hentry, hslots⟩ := List.forall_mem_cons.mp h
    rw [List.foldl_cons, newer, hentry]
    exact ih hslots

theorem newestIndex_first (reader : FileReader) (found : FoundEntry) (suffixes : List String) :
    newestIndex (⟨reader, some found⟩ :: suffixes.map emptySlot) = some 0 := by
  rw [newestIndex, List.zipIdx_cons, List.foldl_cons, foldl_newer_empty]
  · rfl
  · intro entry hmem
    obtain ⟨_, -, hslot⟩ := List.mem_map.mp (List.fst_mem_of_mem_zipIdx hmem)
    rw [← hslot]
    rfl

/-- Both lines are there, the last one read ahead. -/
def firstScan (suffixes : List String) : PageScan :=
  ⟨⟨lineReader 37, some (eventFound 37 73)⟩ :: suffixes.map emptySlot, ⟨scanBytes - 73, false⟩, [], []⟩

/-- The last line is emitted, the other one read ahead. -/
def lastScan (id : String) (suffixes : List String) : PageScan :=
  ⟨⟨lineReader 0, some (eventFound 0 37)⟩ :: suffixes.map emptySlot, ⟨scanBytes - 73 - 37, false⟩,
    [{ (eventFound 37 73).entry with id }], [(eventFound 37 73).digest]⟩

theorem fill_suffixed [CursorCodec] {id : String} (hid : entryCursor (eventFound 37 73) = .ok id)
    (suffixes : List String) :
    PageScan.fill eventQuery 1 (firstScan suffixes) = .ok (lastScan id suffixes) := by
  have hsecond : nextEntry (lineReader 37) eventQuery ⟨scanBytes - 73, false⟩ =
      .ok (some (eventFound 0 37), lineReader 0, ⟨scanBytes - 73 - 37, false⟩) := by decide +kernel
  have hturns : 0 < (firstScan suffixes).turns := turns_pos List.mem_cons_self (Option.some_ne_none _)
  obtain ⟨fuel, hfuel⟩ := Nat.exists_eq_succ_of_ne_zero (Nat.ne_of_gt hturns)
  have hroom : (firstScan suffixes).entries.length < 1 := Nat.zero_lt_one
  have hnewest : newestIndex (firstScan suffixes).slots = some 0 := newestIndex_first _ _ suffixes
  rw [PageScan.fill, hfuel, PageScan.fillFrom, if_pos hroom, hnewest]
  refine Step.except_bind_ok.mpr ⟨{ firstScan suffixes with
    entries := [{ (eventFound 37 73).entry with id }], seen := [(eventFound 37 73).digest] }, ?_, ?_⟩
  · exact Step.except_bind_ok.mpr ⟨_, hid, rfl⟩
  · refine Step.except_bind_ok.mpr ⟨_, hsecond, ?_⟩
    cases fuel <;> rfl

/-- Where the page of one line stops. -/
def stoppedAt (suffixes : List String) : List FileCursor :=
  ⟨"APP", "APP.2026-08-04", 37, 0⟩ :: suffixes.map fun suffix => ⟨"APP", "APP." ++ suffix, 0, 0⟩

/-- One line fills a page of one; the cursor resumes at the other line and at the empty files. -/
theorem readPage_suffixed [CursorCodec] (hseal : ∀ value, ∃ token, CursorCodec.sealValue value = .ok token)
    (hcount : suffixes.length < 64) :
    ∃ page token, readPage (suffixedDisk suffixes h) [eventSource] eventQuery 1 = .ok page ∧
      page.nextCursor = some token ∧
      CursorCodec.sealValue (.page ⟨1, eventQuery.filterKey, stoppedAt suffixes⟩) = .ok token := by
  have hfirst : nextEntry (lineReader 73) eventQuery ⟨scanBytes, false⟩ =
      .ok (some (eventFound 37 73), lineReader 37, ⟨scanBytes - 73, false⟩) := by decide +kernel
  obtain ⟨id, hid⟩ := hseal (.entry ⟨1, "", "APP", "APP.2026-08-04", 37, (eventFound 37 73).digest⟩)
  have hfill := fill_suffixed hid suffixes
  have hstopped : (lastScan id suffixes).slots.map cursorFile = stoppedAt suffixes := by
    rw [lastScan, List.map_cons, List.map_map]
    rfl
  obtain ⟨token, htoken⟩ := hseal (.page ⟨1, eventQuery.filterKey, stoppedAt suffixes⟩)
  have hreaders : (suffixedEntries suffixes).map DirEntry.reader =
      lineReader 73 :: suffixes.map fun suffix => (emptySlot suffix).reader := by
    rw [suffixedEntries, List.map_cons, List.map_map]
    rfl
  refine ⟨⟨[{ (eventFound 37 73).entry with id }], ["APP"], some token, false, true⟩, token, ?_, rfl, htoken⟩
  rw [readPage, if_neg (by decide)]
  refine Step.except_bind_ok.mpr ⟨_, discover_suffixed hcount, ?_⟩
  refine Step.except_bind_ok.mpr ⟨_, open_suffixed fun _ hmem => hmem, ?_⟩
  rw [hreaders]
  refine Step.except_bind_ok.mpr ⟨((firstScan suffixes).slots, (firstScan suffixes).state), ?_, ?_⟩
  · rw [nextEntries, hfirst]
    exact Step.except_bind_ok.mpr ⟨_, rfl, Step.except_bind_ok.mpr ⟨_, nextEntries_empty suffixes _, rfl⟩⟩
  refine Step.except_bind_ok.mpr ⟨_, hfill, ?_⟩
  refine Step.except_bind_ok.mpr ⟨some token, ?_, rfl⟩
  refine Step.except_bind_ok.mpr ⟨token, ?_, rfl⟩
  rw [hstopped]
  exact htoken

/-! ### Long names -/

/-- The least that a record with these names takes. -/
def nameWeight (key : String × String) : ℕ := 45 + escapedSize key.1 + escapedSize key.2

theorem nameWeight_le (files : List FileCursor) :
    ((files.map FileCursor.key).map nameWeight).sum ≤ (files.map FileCursor.weight).sum := by
  induction files with
  | nil => exact Nat.le_refl _
  | cons file files ih =>
    rw [List.map_cons, List.map_cons, List.map_cons, List.sum_cons, List.sum_cons]
    exact Nat.add_le_add (Nat.le_add_right _ _) ih

theorem escapedSize_append (text text' : String) :
    escapedSize (text ++ text') = escapedSize text + escapedSize text' := by
  rw [escapedSize, String.toList_append, List.flatMap_append, Vyuh.Json.Value.byteSize_append]
  rfl

/-- Names of up to 246 bytes. -/
def longSuffixes : List String := (List.range 63).map fun i => Vyuh.Json.longName (180 + i)

theorem length_longName (n : ℕ) : (Vyuh.Json.longName n).toList.length = n := by
  rw [Vyuh.Json.longName, String.toList_ofList, List.length_replicate]

theorem nodup_longSuffixes : ("2026-08-04" :: longSuffixes).Nodup := by
  rw [List.nodup_cons, longSuffixes]
  constructor
  · intro hmem
    obtain ⟨i, -, hi⟩ := List.mem_map.mp hmem
    have hlength := congrArg (fun name => name.toList.length) hi
    rw [length_longName] at hlength
    have hdate : "2026-08-04".toList.length = 10 := by decide
    omega
  · refine List.Nodup.map (fun i j hij => ?_) List.nodup_range
    have hlength := congrArg (fun name => name.toList.length) hij
    rw [length_longName, length_longName] at hlength
    omega

theorem sum_longSuffixes :
    12260 < ((((suffixedEntries longSuffixes).map DirEntry.cursor).map FileCursor.key).map nameWeight).sum := by
  have hrule : escapedSize "APP" = 3 := by decide
  have hstart : escapedSize "APP." = 4 := by decide
  have hweights : (((suffixedEntries longSuffixes).map DirEntry.cursor).map FileCursor.key).map nameWeight =
      nameWeight ("APP", "APP.2026-08-04") :: (List.range 63).map fun i => 232 + i := by
    rw [suffixedEntries, longSuffixes]
    simp only [List.map_cons, List.map_map]
    refine congrArg (_ :: ·) (List.map_congr_left fun i _ => ?_)
    show 45 + escapedSize "APP" + escapedSize ("APP." ++ Vyuh.Json.longName (180 + i)) = 232 + i
    rw [escapedSize_append, Vyuh.Json.escapedSize_longName, hrule, hstart]
    omega
  rw [hweights]
  decide

theorem FileCursor.toValue_injective : Function.Injective FileCursor.toValue := by
  rintro ⟨rule, file, offset, modified⟩ ⟨rule', file', offset', modified'⟩ h
  simpa [FileCursor.toValue] using h

theorem toValue_injective : Function.Injective CursorValue.toValue := by
  rintro (⟨version, filter, files⟩ | ⟨version, filter, rule, file, start, digest⟩)
    (⟨version', filter', files'⟩ | ⟨version', filter', rule', file', start', digest'⟩) h
  · have hparts : version = version' ∧ filter = filter' ∧
        files.map FileCursor.toValue = files'.map FileCursor.toValue := by
      simpa [CursorValue.toValue, PageCursor.toValue] using h
    obtain ⟨rfl, rfl, hfiles⟩ := hparts
    rw [List.map_injective_iff.mpr FileCursor.toValue_injective hfiles]
  · simp [CursorValue.toValue] at h
  · simp [CursorValue.toValue] at h
  · simpa [CursorValue.toValue, EntryCursor.toValue] using h

/-- A parser that finds the value whose JSON the bytes are. -/
@[reducible] noncomputable def inverseText : CursorText :=
  ⟨Function.partialInv fun value => value.toValue.toVec⟩

attribute [local instance] inverseText in
theorem fromSlice_toVec (value : CursorValue) : CursorText.fromSlice value.toValue.toVec = some value :=
  Function.partialInv_left (Vyuh.Json.Value.toVec_injective.comp toValue_injective) value

attribute [local instance] byteCrypto inverseText

/-- A site whose secret has one byte, and a nonce of zeros for every value. -/
def oneSecret : SecretRing := ⟨"s", []⟩
def zeroNonces : CursorValue → Option Nonce := fun _ => some ⟨List.replicate 12 0, zeros_length⟩

theorem oneSecret_seals (value : CursorValue) :
    ∃ token, (CursorKeys.new oneSecret : CursorKeys UInt8).sealValue (zeroNonces value) value = .ok token :=
  ⟨_, rfl⟩

/-- The page over two files ends with a cursor that opens again at their places. -/
theorem next_cursor_opens_iff_two_files :
    ∃ (disk : Disk) (page : LogPage) (token : String),
      (CursorKeys.new oneSecret : CursorKeys UInt8).readPage zeroNonces disk [eventSource] eventQuery 1 =
        .ok page ∧ page.nextCursor = some token ∧
      (CursorKeys.new oneSecret : CursorKeys UInt8).openToken token =
        .ok (.page ⟨1, eventQuery.filterKey,
          [⟨"APP", "APP.2026-08-04", 37, 0⟩, ⟨"APP", "APP.2026-08-05", 0, 0⟩]⟩) := by
  let _ := (CursorKeys.new oneSecret : CursorKeys UInt8).codec zeroNonces
  have hnames : ("2026-08-04" :: ["2026-08-05"]).Nodup := by decide
  obtain ⟨page, token, hpage, htoken, hsealed⟩ := readPage_suffixed (h := hnames) oneSecret_seals (by decide)
  obtain ⟨files, resumed, -, -, hseal, hopens⟩ := next_cursor_opens_iff oneSecret
    (Cipher.lawful_tagged tagLength) (Cipher.faithful_tagged tagLength _ _)
    (fun value _ => fromSlice_toVec value) hpage htoken
  have hsize : (CursorValue.page ⟨1, eventQuery.filterKey, stoppedAt ["2026-08-05"]⟩).toValue.size ≤ 12260 := by
    decide +kernel
  have hsame := CursorKeys.eq_of_token (Cipher.lawful_tagged tagLength) (Cipher.faithful_tagged tagLength _ _)
    (oneSecret.derivedActive_mem _) fromSlice_toVec hsealed hsize hseal
  obtain rfl : resumed = stoppedAt ["2026-08-05"] := by
    cases hsame
    rfl
  exact ⟨_, page, token, hpage, htoken, hopens.mpr (by decide +kernel)⟩

/-- The page over 64 files, of which 63 have long names, has a cursor that is not taken back. -/
theorem long_cursor_is_refused :
    ∃ (disk : Disk) (page : LogPage) (token : String) (files : List FileCursor),
      (CursorKeys.new oneSecret : CursorKeys UInt8).readPage zeroNonces disk [eventSource] eventQuery 1 =
        .ok page ∧
      (CursorKeys.new oneSecret : CursorKeys UInt8).cursorFiles disk [eventSource] eventQuery = .ok files ∧
      files.length = 64 ∧ page.nextCursor = some token ∧
      (CursorKeys.new oneSecret : CursorKeys UInt8).openToken token = .error .invalidCursor := by
  let _ := (CursorKeys.new oneSecret : CursorKeys UInt8).codec zeroNonces
  have hcount : longSuffixes.length < 64 := by
    rw [longSuffixes, List.length_map, List.length_range]
    decide
  obtain ⟨page, token, hpage, htoken, -⟩ := readPage_suffixed (h := nodup_longSuffixes) oneSecret_seals hcount
  obtain ⟨files, resumed, hfiles, hkeys, hmodified, hne, hseal⟩ := readPage_token hpage htoken
  obtain rfl := Except.ok.inj ((discover_suffixed hcount).symm.trans hfiles)
  have hsize : (CursorValue.page ⟨1, eventQuery.filterKey, resumed⟩).toValue.size = _ :=
    size_page rfl hmodified hne
  dsimp only at hsize
  have hlong := nameWeight_le resumed
  rw [hkeys] at hlong
  have hsum := sum_longSuffixes
  refine ⟨_, page, token, _, hpage, hfiles, ?_, htoken, ?_⟩
  · rw [List.length_map, suffixedEntries, List.length_cons, List.length_map, longSuffixes, List.length_map,
      List.length_range]
  · rw [CursorKeys.openToken_sealValue (Cipher.lawful_tagged tagLength)
      (Cipher.faithful_tagged tagLength _ _) (oneSecret.derivedActive_mem _) (fromSlice_toVec _) hseal,
      if_neg (by omega)]

end

end Vyuh.Console.Logs
