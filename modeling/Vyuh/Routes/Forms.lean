import Vyuh.Routes.Sniffed

/-! Whole forms: what is read off a body, and when it is accepted. -/

namespace Vyuh.Routes

open Lib

/-! ### What is sent -/

def Field.isFile (field : Field) : Bool := field.fileName.isSome

def Field.decoded (field : Field) : Option String := String.fromUTF8? ⟨field.content.toArray⟩

/-- The texts of a name, in order. -/
def textsSent (body : List Field) (name : String) : List String :=
  (body.filter fun field => field.name = some name && !field.isFile).map fun field => field.decoded.getD ""

namespace MultipartSpec

/-- An optional file that is left empty. -/
def skips (spec : MultipartSpec) (field : Field) : Bool :=
  match field.name.bind (spec.ruleFor · field.isFile) with
  | some (.file rule) => isEmptyOptionalFile field.fileName rule
  | _ => false

/-- What is sent, but for empty optional files. -/
def kept (spec : MultipartSpec) (body : List Field) : List Field := body.filter (!spec.skips ·)

/-- The files of a name, in order. -/
def filesSent (spec : MultipartSpec) (body : List Field) (name : String) : List Field :=
  (spec.kept body).filter fun field => field.name = some name && field.isFile

/-- A field that is declared for its kind. -/
def Declares (spec : MultipartSpec) (field : Field) : Prop :=
  ∃ name rule, field.name = some name ∧ spec.ruleFor name field.isFile = some rule

end MultipartSpec

structure WellFormed (body : List Field) : Prop where
  named : ∀ field ∈ body, field.name.isSome
  decodes : ∀ field ∈ body, field.isFile = false → field.decoded.isSome

/-- Within the limits of a request. -/
structure Within (conf : UploadConf) (spec : MultipartSpec) (body : List Field) : Prop where
  fields : body.length ≤ conf.maxFields
  files : ((spec.kept body).filter Field.isFile).length ≤ conf.maxFiles
  bytes : ((spec.kept body).map (·.content.length)).sum ≤ conf.maxRequestBytes

/-- One file of a form is as its rule says, when it has some type. -/
structure FileRule.Fits (rule : FileRule) (conf : UploadConf) (type : Option String) (field : Field) : Prop where
  size : field.content.length ≤ rule.maxSizeOr conf.maxFileBytes
  headers : rule.HeadersHold field.fileName field.contentType
  sniffs : rule.sniffs type = true

/-- Every declared rule holds of what is sent, where files have some types. -/
structure RulesHold (conf : UploadConf) (spec : MultipartSpec) (typeOf : Field → Option String) (body : List Field) :
    Prop where
  text : ∀ entry ∈ spec.text, entry.2.Holds (textsSent body entry.1)
  files : ∀ entry ∈ spec.files, (∀ field ∈ spec.filesSent body entry.1, entry.2.Fits conf (typeOf field) field) ∧
    Presence entry.2.required entry.2.multiple (spec.filesSent body entry.1).length

/-- The declared rules hold, but for the types of files. -/
structure UntypedHold (conf : UploadConf) (spec : MultipartSpec) (body : List Field) : Prop where
  text : ∀ entry ∈ spec.text, entry.2.Holds (textsSent body entry.1)
  files : ∀ entry ∈ spec.files, (∀ field ∈ spec.filesSent body entry.1,
    field.content.length ≤ entry.2.maxSizeOr conf.maxFileBytes ∧
      entry.2.HeadersHold field.fileName field.contentType) ∧
    Presence entry.2.required entry.2.multiple (spec.filesSent body entry.1).length

/-- The files of a form, each with its rule. -/
def MultipartSpec.judged (spec : MultipartSpec) (body : List Field) : List (FileRule × Field) :=
  spec.files.flatMap fun entry => (spec.filesSent body entry.1).map (entry.2, ·)

/-- The file that a field is read as. -/
def MultipartSpec.fileAs (host : Host) (conf : UploadConf) (spec : MultipartSpec) (name : String) (field : Field) :
    UploadedFile :=
  fileOf host name conf field field.content
    (detectedType host ((spec.files.get name).getD FileRule.new) field.chunks)

/-- The map has every field that is sent, in order. -/
structure Returns (host : Host) (conf : UploadConf) (spec : MultipartSpec) (body : List Field) (map : MultipartMap) :
    Prop where
  texts : ∀ name, (map.texts.get name).getD [] = textsSent body name
  files : ∀ name, (map.files.get name).getD [] = (spec.filesSent body name).map (spec.fileAs host conf name)

/-! ### Entries -/

/-- There is no entry for what has no values. -/
def entryOf {α : Type} (values : List α) : Option (List α) := if values.isEmpty then none else some values

section

variable {α : Type}

theorem entryOf_concat (values : List α) (value : α) : entryOf (values ++ [value]) = some (values ++ [value]) :=
  if_neg (by rw [List.isEmpty_iff]; exact List.append_ne_nil_of_right_ne_nil _ (List.cons_ne_nil _ _))

theorem exists_mem_of_entryOf {values values' : List α} (h : entryOf values = some values') : ∃ value, value ∈ values := by
  cases values with
  | nil => exact nomatch h
  | cons value values => exact ⟨value, List.mem_cons_self⟩

@[simp] theorem getD_entryOf (values : List α) : (entryOf values).getD [] = values := by
  cases values <;> rfl

theorem get_pushEntry {entries : BTreeMap String (List α)} (h : entries.keys.Nodup) (name key : String) (value : α) :
    (pushEntry entries name value).get key =
      if key = name then some ((entries.get name).getD [] ++ [value]) else entries.get key :=
  BTreeMap.get_insert h name key _

end

section

variable {host : Host} {name : String} {conf : UploadConf} {before total : ℕ} {spec : MultipartSpec} {field : Field}
  {body : List Field}

theorem saturatingAdd_of_le {a b : ℕ} (h : a + b ≤ conf.maxRequestBytes) : saturatingAdd a b = a + b := by
  have hfits := conf.fits
  rw [saturatingAdd]
  omega

theorem textsSent_concat (body : List Field) (field : Field) (name : String) : textsSent (body ++ [field]) name =
    textsSent body name ++ if field.name = some name && !field.isFile then [field.decoded.getD ""] else [] := by
  rw [textsSent, List.filter_append, List.map_append, List.filter_singleton]
  cases decide (field.name = some name) && !field.isFile <;> rfl

theorem kept_concat (spec : MultipartSpec) (body : List Field) (field : Field) :
    spec.kept (body ++ [field]) = spec.kept body ++ if spec.skips field then [] else [field] := by
  rw [MultipartSpec.kept, List.filter_append, List.filter_singleton]
  cases spec.skips field <;> rfl

/-! ### Reading one field -/

theorem readTextChunk_ok_iff {rule : FieldRule} {arrived chunk : Bytes} {state' : Bytes × ℕ}
    (hfits : before + (arrived ++ chunk).length ≤ conf.maxRequestBytes) :
    readTextChunk name rule conf (arrived, before + arrived.length) chunk = .ok state' ↔
      (∀ max, rule.maxBytes = some max → (arrived ++ chunk).length ≤ max) ∧
        state' = (arrived ++ chunk, before + (arrived ++ chunk).length) := by
  have hsum : before + arrived.length + chunk.length = before + (arrived ++ chunk).length := by
    rw [List.length_append, add_assoc]
  have hmax : ¬rule.maxBytes.any (· < arrived.length + chunk.length) = true ↔
      ∀ max, rule.maxBytes = some max → (arrived ++ chunk).length ≤ max := by
    rw [← List.length_append]
    cases rule.maxBytes with
    | none => exact iff_of_true Bool.false_ne_true nofun
    | some max =>
      rw [Option.any_some, decide_eq_true_eq, not_lt]
      exact ⟨fun h _ heq => Option.some.inj heq ▸ h, fun h => h max rfl⟩
  rw [readTextChunk, Step.except_bind_ok]
  constructor
  · rintro ⟨total, htotal, h⟩
    obtain ⟨-, rfl⟩ := addBytes_ok_iff.mp htotal
    obtain ⟨hbytes, hstate⟩ := Step.except_check_ok.mp h
    rw [saturatingAdd_of_le (hsum ▸ hfits), hsum] at hstate
    exact ⟨hmax.mp hbytes, (Except.ok.inj hstate).symm⟩
  · rintro ⟨hbytes, rfl⟩
    have htotal : saturatingAdd (before + arrived.length) chunk.length = before + (arrived ++ chunk).length :=
      (saturatingAdd_of_le (hsum ▸ hfits)).trans hsum
    exact ⟨_, addBytes_ok_iff.mpr ⟨htotal ▸ hfits, htotal⟩, Step.except_check_ok.mpr ⟨hmax.mpr hbytes, rfl⟩⟩

theorem readTextChunks_ok_iff {rule : FieldRule} {arrived : Bytes} {chunks : List Bytes} {state' : Bytes × ℕ}
    (hfits : before + (arrived ++ chunks.flatten).length ≤ conf.maxRequestBytes) :
    chunks.foldlM (readTextChunk name rule conf) (arrived, before + arrived.length) = .ok state' ↔
      (chunks = [] ∨ ∀ max, rule.maxBytes = some max → (arrived ++ chunks.flatten).length ≤ max) ∧
        state' = (arrived ++ chunks.flatten, before + (arrived ++ chunks.flatten).length) := by
  induction chunks generalizing arrived with
  | nil =>
    rw [List.flatten_nil, List.append_nil]
    exact ⟨fun h => ⟨.inl rfl, (Except.ok.inj h).symm⟩, fun h => congrArg _ h.2.symm⟩
  | cons chunk chunks ih =>
    rw [List.flatten_cons, ← List.append_assoc] at hfits ⊢
    have hle := (List.prefix_append (arrived ++ chunk) chunks.flatten).length_le
    rw [List.foldlM_cons, Step.except_bind_ok]
    simp only [readTextChunk_ok_iff (le_trans (Nat.add_le_add_left hle before) hfits)]
    constructor
    · rintro ⟨_, ⟨hbytes, rfl⟩, hrest⟩
      obtain ⟨hall, rfl⟩ := (ih hfits).mp hrest
      refine ⟨.inr ?_, rfl⟩
      rcases hall with rfl | hall
      · rw [List.flatten_nil, List.append_nil]
        exact hbytes
      · exact hall
    · rintro ⟨hall, rfl⟩
      have hbytes := hall.resolve_left (List.cons_ne_nil _ _)
      exact ⟨_, ⟨fun max hmax => hle.trans (hbytes max hmax), rfl⟩, (ih hfits).mpr ⟨.inr hbytes, rfl⟩⟩

/-- A text is read as long as it is not longer than its rule says. -/
theorem readTextField_ok_iff {rule : FieldRule} {text : String}
    (hfits : before + field.content.length ≤ conf.maxRequestBytes) :
    readTextField host name rule conf before field.chunks = .ok (text, total) ↔
      (∀ max, rule.maxBytes = some max → field.content.length ≤ max) ∧ field.decoded = some text ∧
        total = before + field.content.length := by
  have hread := fun (state' : Bytes × ℕ) => @readTextChunks_ok_iff name conf before rule [] field.chunks state' hfits
  have hany : (field.chunks = [] ∨ ∀ max, rule.maxBytes = some max → field.content.length ≤ max) ↔
      ∀ max, rule.maxBytes = some max → field.content.length ≤ max := by
    refine or_iff_right_of_imp fun hnil max _ => ?_
    rw [Field.content, hnil]
    exact Nat.zero_le _
  rw [readTextField, Step.except_bind_ok]
  constructor
  · rintro ⟨_, hchunks, h⟩
    obtain ⟨hbytes, rfl⟩ := (hread _).mp hchunks
    refine ⟨hany.mp hbytes, ?_⟩
    dsimp only at h
    split at h
    next text' hdecoded =>
      cases h
      exact ⟨hdecoded, rfl⟩
    next => exact nomatch h
  · rintro ⟨hbytes, hdecoded, rfl⟩
    refine ⟨_, (hread _).mpr ⟨hany.mpr hbytes, rfl⟩, ?_⟩
    dsimp only
    split
    next text' htext => rw [Option.some.inj (hdecoded.symm.trans htext)]; rfl
    next hnone => exact nomatch hdecoded.symm.trans hnone

/-- A file of a form is read when it is as its rule says, by the first type that is found. -/
theorem readFileField_within_iff {rule : FileRule} {file : UploadedFile}
    (hfits : before + field.content.length ≤ conf.maxRequestBytes) :
    readFileField host name rule conf before field = .ok (file, total) ↔
      rule.Fits conf (typeByArrival host field) field ∧
        file = fileOf host name conf field field.content (detectedType host rule field.chunks) ∧
        total = before + field.content.length := by
  have hexceeds : ¬Exceeds rule conf before field.content ↔ field.content.length ≤ rule.maxSizeOr conf.maxFileBytes := by
    rw [Exceeds, saturatingAdd_of_le hfits, not_or, not_lt, not_lt]
    exact and_iff_left hfits
  have hsniffs : rule.sniffs (detectedType host rule field.chunks) = true ↔
      rule.sniffs (typeByArrival host field) = true := by
    rw [detectedType]
    by_cases hsniff : rule.sniff.isSome = true
    · rw [if_pos hsniff]
      rfl
    · exact iff_of_true (sniffs_of_isNone hsniff _) (sniffs_of_isNone hsniff _)
  rw [readFileField_ok_iff (le_trans (Nat.le_add_right _ _) hfits), validateHeaders_ok_iff, hsniffs]
  show _ ∧ ¬Exceeds rule conf before field.content ∧ _ ↔ _
  rw [hexceeds]
  constructor
  · rintro ⟨hheaders, hsize, hsniff, rfl, rfl⟩
    exact ⟨⟨hsize, hheaders, hsniff⟩, rfl, saturatingAdd_of_le hfits⟩
  · rintro ⟨h, rfl, rfl⟩
    exact ⟨h.headers, h.size, h.sniffs, rfl, (saturatingAdd_of_le hfits).symm⟩

/-! ### Reading one field after another -/

/-- What is known of a form when a part of it has been read. -/
structure ReadTo (host : Host) (conf : UploadConf) (spec : MultipartSpec) (body : List Field) (progress : Progress) :
    Prop where
  fieldCount : progress.fieldCount = body.length
  fileCount : progress.fileCount = ((spec.kept body).filter Field.isFile).length
  requestBytes : progress.requestBytes = ((spec.kept body).map (·.content.length)).sum
  textKeys : progress.map.texts.keys.Nodup
  fileKeys : progress.map.files.keys.Nodup
  texts : ∀ name, progress.map.texts.get name = entryOf (textsSent body name)
  files : ∀ name, progress.map.files.get name = entryOf ((spec.filesSent body name).map (spec.fileAs host conf name))

/-- A field that is taken while it is read. -/
def Passes (host : Host) (conf : UploadConf) (spec : MultipartSpec) (field : Field) : Prop :=
  ∃ name rule, field.name = some name ∧ spec.ruleFor name field.isFile = some rule ∧
    match rule with
    | .text rule => ∀ max, rule.maxBytes = some max → field.content.length ≤ max
    | .file rule => isEmptyOptionalFile field.fileName rule = true ∨ rule.Fits conf (typeByArrival host field) field

theorem ReadTo.empty : ReadTo host conf spec [] ⟨⟨[], []⟩, 0, 0, 0⟩ :=
  ⟨rfl, rfl, rfl, List.nodup_nil, List.nodup_nil, fun _ => rfl, fun _ => rfl⟩

theorem ruleFor_text {isFile : Bool} {rule : FieldRule} (h : spec.ruleFor name isFile = some (.text rule)) :
    isFile = false ∧ spec.text.get name = some rule := by
  cases isFile with
  | true =>
    obtain ⟨_, -, heq⟩ := Option.map_eq_some_iff.mp h
    exact nomatch heq
  | false =>
    obtain ⟨rule', hrule, heq⟩ := Option.map_eq_some_iff.mp h
    cases heq
    exact ⟨rfl, hrule⟩

theorem ruleFor_file {isFile : Bool} {rule : FileRule} (h : spec.ruleFor name isFile = some (.file rule)) :
    isFile = true ∧ spec.files.get name = some rule := by
  cases isFile with
  | false =>
    obtain ⟨_, -, heq⟩ := Option.map_eq_some_iff.mp h
    exact nomatch heq
  | true =>
    obtain ⟨rule', hrule, heq⟩ := Option.map_eq_some_iff.mp h
    cases heq
    exact ⟨rfl, hrule⟩

theorem ruleFor_of_mem_text {entry : String × FieldRule} (h : entry ∈ spec.text) :
    spec.ruleFor entry.1 false = some (.text entry.2) :=
  congrArg (Option.map RuleRef.text) ((BTreeMap.get_eq_some_iff spec.textKeys).mpr h)

theorem ruleFor_of_mem_files {entry : String × FileRule} (h : entry ∈ spec.files) :
    spec.ruleFor entry.1 true = some (.file entry.2) :=
  congrArg (Option.map RuleRef.file) ((BTreeMap.get_eq_some_iff spec.fileKeys).mpr h)

theorem skips_text {rule : FieldRule} (hname : field.name = some name)
    (hrule : spec.ruleFor name field.isFile = some (.text rule)) : spec.skips field = false := by
  rw [MultipartSpec.skips, hname, Option.bind_some, hrule]

theorem skips_file {rule : FileRule} (hname : field.name = some name)
    (hrule : spec.ruleFor name field.isFile = some (.file rule)) :
    spec.skips field = isEmptyOptionalFile field.fileName rule := by
  rw [MultipartSpec.skips, hname, Option.bind_some, hrule]

theorem isFile_of_skips (h : spec.skips field = true) : field.isFile = true := by
  rw [MultipartSpec.skips] at h
  split at h
  next rule hrule =>
    obtain ⟨name, -, hrule⟩ := Option.bind_eq_some_iff.mp hrule
    exact (ruleFor_file hrule).1
  next => exact nomatch h

theorem filesSent_concat (spec : MultipartSpec) (body : List Field) (field : Field) (name : String) :
    spec.filesSent (body ++ [field]) name = spec.filesSent body name ++
      if !spec.skips field && (field.name = some name && field.isFile) then [field] else [] := by
  rw [MultipartSpec.filesSent, kept_concat, List.filter_append]
  cases spec.skips field with
  | true => rfl
  | false =>
    rw [if_neg Bool.false_ne_true, List.filter_singleton]
    cases decide (field.name = some name) && field.isFile <;> rfl

/-- What is still within the limits with one field more. -/
theorem Within.last (h : Within conf spec (body ++ [field])) {progress : Progress}
    (hread : ReadTo host conf spec body progress) : progress.fieldCount + 1 ≤ conf.maxFields ∧
      (spec.skips field = false → progress.requestBytes + field.content.length ≤ conf.maxRequestBytes ∧
        (field.isFile = true → progress.fileCount + 1 ≤ conf.maxFiles)) := by
  obtain ⟨hfields, hfiles, hbytes⟩ := h
  rw [List.length_append, List.length_singleton] at hfields
  refine ⟨hread.fieldCount ▸ hfields, fun hkept => ?_⟩
  rw [kept_concat, hkept, if_neg Bool.false_ne_true] at hfiles hbytes
  rw [List.map_append, List.sum_append, List.map_singleton, List.sum_singleton] at hbytes
  refine ⟨hread.requestBytes ▸ hbytes, fun hfile => ?_⟩
  rw [List.filter_append, List.filter_singleton, hfile, List.length_append] at hfiles
  rw [hread.fileCount]
  exact hfiles

theorem ReadTo.skipped {progress : Progress} (h : ReadTo host conf spec body progress) (hskips : spec.skips field = true) :
    ReadTo host conf spec (body ++ [field]) { progress with fieldCount := progress.fieldCount + 1 } := by
  have hkept : spec.kept (body ++ [field]) = spec.kept body := by
    rw [kept_concat, hskips, if_pos rfl, List.append_nil]
  refine ⟨?_, hkept ▸ h.fileCount, hkept ▸ h.requestBytes, h.textKeys, h.fileKeys, fun name => ?_, fun name => ?_⟩
  · rw [List.length_append, h.fieldCount]
    rfl
  · rw [textsSent_concat, isFile_of_skips hskips, Bool.not_true, Bool.and_false, if_neg Bool.false_ne_true,
      List.append_nil]
    exact h.texts name
  · rw [MultipartSpec.filesSent, hkept]
    exact h.files name

theorem ReadTo.text {progress : Progress} (h : ReadTo host conf spec body progress) {text : String}
    (hname : field.name = some name) (hisFile : field.isFile = false) (hskips : spec.skips field = false)
    (hdecoded : field.decoded = some text) :
    ReadTo host conf spec (body ++ [field])
      ⟨⟨pushEntry progress.map.texts name text, progress.map.files⟩, progress.fileCount, progress.fieldCount + 1,
        progress.requestBytes + field.content.length⟩ := by
  have hkept : spec.kept (body ++ [field]) = spec.kept body ++ [field] := by
    rw [kept_concat, hskips, if_neg Bool.false_ne_true]
  refine ⟨?_, ?_, ?_, BTreeMap.nodup_keys_insert h.textKeys _ _, h.fileKeys, fun key => ?_, fun key => ?_⟩
  · rw [List.length_append, h.fieldCount]
    rfl
  · rw [hkept, List.filter_append, List.filter_singleton, hisFile, h.fileCount]
    exact congrArg List.length (List.append_nil _).symm
  · rw [hkept, List.map_append, List.sum_append, List.map_singleton, List.sum_singleton, h.requestBytes]
  · show (pushEntry progress.map.texts name text).get key = _
    rw [get_pushEntry h.textKeys, h.texts, h.texts, getD_entryOf, textsSent_concat, hname, hisFile, hdecoded]
    by_cases hkey : key = name
    · rw [if_pos hkey, hkey, if_pos (by simp), entryOf_concat]
      rfl
    · rw [if_neg hkey, if_neg (by simpa using Ne.symm hkey), List.append_nil]
  · show progress.map.files.get key = _
    rw [filesSent_concat, hisFile, Bool.and_false, Bool.and_false, if_neg Bool.false_ne_true, List.append_nil]
    exact h.files key

theorem ReadTo.file {progress : Progress} (h : ReadTo host conf spec body progress) {rule : FileRule}
    (hname : field.name = some name) (hisFile : field.isFile = true) (hskips : spec.skips field = false)
    (hrule : spec.files.get name = some rule) :
    ReadTo host conf spec (body ++ [field])
      ⟨⟨progress.map.texts, pushEntry progress.map.files name
          (fileOf host name conf field field.content (detectedType host rule field.chunks))⟩,
        progress.fileCount + 1, progress.fieldCount + 1, progress.requestBytes + field.content.length⟩ := by
  have hkept : spec.kept (body ++ [field]) = spec.kept body ++ [field] := by
    rw [kept_concat, hskips, if_neg Bool.false_ne_true]
  have hfile : spec.fileAs host conf name field =
      fileOf host name conf field field.content (detectedType host rule field.chunks) := by
    rw [MultipartSpec.fileAs, hrule]
    rfl
  refine ⟨?_, ?_, ?_, h.textKeys, BTreeMap.nodup_keys_insert h.fileKeys _ _, fun key => ?_, fun key => ?_⟩
  · rw [List.length_append, h.fieldCount]
    rfl
  · rw [hkept, List.filter_append, List.filter_singleton, hisFile, List.length_append, h.fileCount]
    rfl
  · rw [hkept, List.map_append, List.sum_append, List.map_singleton, List.sum_singleton, h.requestBytes]
  · show progress.map.texts.get key = _
    rw [textsSent_concat, hisFile, Bool.not_true, Bool.and_false, if_neg Bool.false_ne_true, List.append_nil]
    exact h.texts key
  · show (pushEntry progress.map.files name _).get key = _
    rw [get_pushEntry h.fileKeys, h.files, h.files, getD_entryOf, filesSent_concat, hname, hisFile, hskips]
    by_cases hkey : key = name
    · rw [if_pos hkey, hkey, if_pos (by simp), List.map_append, List.map_singleton, entryOf_concat, hfile]
    · rw [if_neg hkey, if_neg (by simpa using Ne.symm hkey), List.append_nil]

/-- One field is read: it passes, and is put where it belongs. -/
theorem readField_ok {progress progress' : Progress} (hread : ReadTo host conf spec body progress)
    (hwithin : Within conf spec (body ++ [field]))
    (h : readField host conf (some spec) progress field = .ok progress') :
    Passes host conf spec field ∧ ReadTo host conf spec (body ++ [field]) progress' := by
  obtain ⟨-, hkeptFits⟩ := hwithin.last hread
  rw [readField] at h
  obtain ⟨-, h⟩ := Step.except_check_ok.mp h
  split at h
  next => exact nomatch h
  next name hname =>
    dsimp only [Option.bind_some] at h
    split at h
    next rule hrule =>
      obtain ⟨hisFile, -⟩ := ruleFor_text hrule
      have hskips := skips_text hname hrule
      obtain ⟨hfits, -⟩ := hkeptFits hskips
      rw [takeText] at h
      obtain ⟨⟨text, total⟩, htext, h⟩ := Step.except_bind_ok.mp h
      obtain ⟨hbytes, hdecoded, rfl⟩ := (readTextField_ok_iff hfits).mp htext
      obtain rfl := Except.ok.inj h
      exact ⟨⟨name, _, hname, hrule, hbytes⟩, hread.text hname hisFile hskips hdecoded⟩
    next rule hrule =>
      obtain ⟨hisFile, hget⟩ := ruleFor_file hrule
      have hskips := skips_file hname hrule
      split at h
      next hempty =>
        obtain rfl := Except.ok.inj h
        exact ⟨⟨name, _, hname, hrule, .inl hempty⟩, hread.skipped (hskips.trans hempty)⟩
      next hfull =>
        have hkept := hskips.trans (Bool.eq_false_of_not_eq_true hfull)
        obtain ⟨hfits, -⟩ := hkeptFits hkept
        rw [takeFile] at h
        obtain ⟨-, h⟩ := Step.except_check_ok.mp h
        obtain ⟨⟨file, total⟩, hfile, h⟩ := Step.except_bind_ok.mp h
        obtain ⟨hrules, rfl, rfl⟩ := (readFileField_within_iff hfits).mp hfile
        obtain rfl := Except.ok.inj h
        exact ⟨⟨name, _, hname, hrule, .inr hrules⟩, hread.file hname hisFile hkept hget⟩
    next => exact nomatch h

/-- A field that passes is read. -/
theorem Passes.readField_total {progress : Progress} (h : Passes host conf spec field)
    (hread : ReadTo host conf spec body progress) (hwithin : Within conf spec (body ++ [field]))
    (hdecodes : field.isFile = false → field.decoded.isSome) :
    ∃ progress', readField host conf (some spec) progress field = .ok progress' := by
  obtain ⟨hcount, hkeptFits⟩ := hwithin.last hread
  obtain ⟨name, rule, hname, hrule, hrules⟩ := h
  have hfound : spec.ruleFor name field.fileName.isSome = some rule := hrule
  rw [readField]
  dsimp only [Option.bind_some]
  rw [if_neg (not_lt.mpr hcount), hname]
  dsimp only
  rw [hfound]
  cases rule with
  | text rule =>
    obtain ⟨hisFile, -⟩ := ruleFor_text hrule
    obtain ⟨text, hdecoded⟩ := Option.isSome_iff_exists.mp (hdecodes hisFile)
    obtain ⟨hfits, -⟩ := hkeptFits (skips_text hname hrule)
    exact ⟨_, Step.except_bind_ok.mpr ⟨_, (readTextField_ok_iff hfits).mpr ⟨hrules, hdecoded, rfl⟩, rfl⟩⟩
  | file rule =>
    obtain ⟨hisFile, -⟩ := ruleFor_file hrule
    dsimp only
    by_cases hempty : isEmptyOptionalFile field.fileName rule = true
    · exact ⟨_, if_pos hempty⟩
    · obtain ⟨hfits, hfiles⟩ :=
        hkeptFits ((skips_file hname hrule).trans (Bool.eq_false_of_not_eq_true hempty))
      rw [if_neg hempty, takeFile, if_neg (not_lt.mpr (hfiles hisFile))]
      exact ⟨_, Step.except_bind_ok.mpr
        ⟨_, (readFileField_within_iff hfits).mpr ⟨hrules.resolve_left hempty, rfl, rfl⟩, rfl⟩⟩

/-- Within the limits for the whole is within the limits for a part. -/
theorem Within.front {rest : List Field} (h : Within conf spec (body ++ rest)) : Within conf spec body := by
  obtain ⟨hfields, hfiles, hbytes⟩ := h
  rw [MultipartSpec.kept, List.filter_append] at hfiles hbytes
  rw [List.length_append] at hfields
  rw [List.filter_append, List.length_append] at hfiles
  rw [List.map_append, List.sum_append] at hbytes
  exact ⟨le_trans (Nat.le_add_right _ _) hfields, le_trans (Nat.le_add_right _ _) hfiles,
    le_trans (Nat.le_add_right _ _) hbytes⟩

/-- A body is read field by field: it is read to the end exactly when every field passes. -/
theorem readFields_ok_iff {progress : Progress} {rest : List Field} (hread : ReadTo host conf spec body progress)
    (hwithin : Within conf spec (body ++ rest)) (hdecodes : ∀ field ∈ rest, field.isFile = false → field.decoded.isSome) :
    ((∃ progress', rest.foldlM (readField host conf (some spec)) progress = .ok progress') ↔
      ∀ field ∈ rest, Passes host conf spec field) ∧
    ∀ progress', rest.foldlM (readField host conf (some spec)) progress = .ok progress' →
      ReadTo host conf spec (body ++ rest) progress' := by
  induction rest generalizing body progress with
  | nil =>
    rw [List.append_nil]
    exact ⟨iff_of_true ⟨progress, rfl⟩ nofun, fun _ h => Except.ok.inj h ▸ hread⟩
  | cons field rest ih =>
    have hsplit : body ++ field :: rest = (body ++ [field]) ++ rest := by rw [List.append_assoc]; rfl
    rw [hsplit] at hwithin ⊢
    obtain ⟨hfirst, hrest⟩ := List.forall_mem_cons.mp hdecodes
    simp only [List.foldlM_cons, Step.except_bind_ok, List.forall_mem_cons]
    refine ⟨⟨?_, ?_⟩, ?_⟩
    · rintro ⟨last, next, hnext, hlast⟩
      obtain ⟨hpasses, hread'⟩ := readField_ok hread hwithin.front hnext
      exact ⟨hpasses, (ih hread' hwithin hrest).1.mp ⟨last, hlast⟩⟩
    · rintro ⟨hpasses, hall⟩
      obtain ⟨next, hnext⟩ := hpasses.readField_total hread hwithin.front hfirst
      obtain ⟨-, hread'⟩ := readField_ok hread hwithin.front hnext
      obtain ⟨last, hlast⟩ := (ih hread' hwithin hrest).1.mpr hall
      exact ⟨last, next, hnext, hlast⟩
    · rintro last ⟨next, hnext, hlast⟩
      obtain ⟨-, hread'⟩ := readField_ok hread hwithin.front hnext
      exact (ih hread' hwithin hrest).2 last hlast

/-! ### Whole forms -/

theorem ReadTo.returns {progress : Progress} (h : ReadTo host conf spec body progress) :
    Returns host conf spec body progress.map := by
  refine ⟨fun name => ?_, fun name => ?_⟩
  · rw [h.texts, getD_entryOf]
  · rw [h.files, getD_entryOf]

theorem utf8ByteSize_decoded {text : String} (h : field.decoded = some text) :
    text.utf8ByteSize = field.content.length := by
  rw [Field.decoded, String.fromUTF8?] at h
  split at h
  next =>
    cases h
    rfl
  next => exact nomatch h

/-- A file that passed while it was read passes when the form is finished. -/
theorem FileRule.Fits.accepts {rule : FileRule} (h : rule.Fits conf (typeByArrival host field) field) :
    rule.Accepts host (fileOf host name conf field field.content (detectedType host rule field.chunks)) := by
  have hbytes : (fileOf host name conf field field.content (detectedType host rule field.chunks)).data.bytes =
      field.content := by
    rw [fileOf]
    dsimp only
    split <;> rfl
  refine ⟨fun max hmax => ?_, h.headers, ?_⟩
  · have hsize := h.size
    rw [FileRule.maxSizeOr, hmax] at hsize
    exact hsize
  · by_cases hsniff : rule.sniff.isSome = true
    · have htype : detectedType host rule field.chunks = typeByArrival host field := if_pos hsniff
      have hor : (typeByArrival host field).or (wholeType host field.content) = typeByArrival host field := by
        rw [typeByArrival, Option.or_assoc, Option.or_self]
      rw [detectFileMime, hbytes]
      show rule.sniffs ((detectedType host rule field.chunks).or (wholeType host field.content)) = true
      rw [htype, hor]
      exact h.sniffs
    · exact sniffs_of_isNone hsniff _

theorem mem_filesSent : field ∈ spec.filesSent body name ↔
    field ∈ body ∧ spec.skips field = false ∧ field.name = some name ∧ field.isFile = true := by
  rw [MultipartSpec.filesSent, MultipartSpec.kept, List.mem_filter, List.mem_filter, Bool.not_eq_true', Bool.and_eq_true,
    decide_eq_true_eq, and_assoc]

theorem mem_textsSent {text : String} : text ∈ textsSent body name ↔
    ∃ field ∈ body, field.name = some name ∧ field.isFile = false ∧ field.decoded.getD "" = text := by
  rw [textsSent, List.mem_map]
  simp only [List.mem_filter, Bool.and_eq_true, Bool.not_eq_true', decide_eq_true_eq, and_assoc]

/-- A body in which every field passes has only declared fields, and its files are as their rules say. -/
theorem forall_passes_iff (hbody : WellFormed body) :
    (∀ field ∈ body, Passes host conf spec field) ↔ (∀ field ∈ body, spec.Declares field) ∧
      (∀ entry ∈ spec.text, ∀ max, entry.2.maxBytes = some max → ∀ text ∈ textsSent body entry.1,
        text.utf8ByteSize ≤ max) ∧
      ∀ entry ∈ spec.files, ∀ field ∈ spec.filesSent body entry.1, entry.2.Fits conf (typeByArrival host field) field := by
  constructor
  · intro h
    refine ⟨fun field hmem => ?_, fun entry hentry max hmax text htext => ?_, fun entry hentry field hfield => ?_⟩
    · obtain ⟨name, rule, hname, hrule, -⟩ := h field hmem
      exact ⟨name, rule, hname, hrule⟩
    · obtain ⟨field, hmem, hname, hisFile, rfl⟩ := mem_textsSent.mp htext
      obtain ⟨name, rule, hname', hrule, hrules⟩ := h field hmem
      obtain rfl := Option.some.inj (hname.symm.trans hname')
      rw [hisFile, ruleFor_of_mem_text hentry] at hrule
      obtain rfl := Option.some.inj hrule
      obtain ⟨text, hdecoded⟩ := Option.isSome_iff_exists.mp (hbody.decodes field hmem hisFile)
      rw [hdecoded, Option.getD_some, utf8ByteSize_decoded hdecoded]
      exact hrules max hmax
    · obtain ⟨hmem, hkept, hname, hisFile⟩ := mem_filesSent.mp hfield
      obtain ⟨name, rule, hname', hrule, hrules⟩ := h field hmem
      obtain rfl := Option.some.inj (hname.symm.trans hname')
      have hfile := hisFile ▸ ruleFor_of_mem_files hentry
      obtain rfl := Option.some.inj (hrule.symm.trans hfile)
      refine hrules.resolve_left fun hempty => ?_
      rw [skips_file hname hrule, hempty] at hkept
      exact nomatch hkept
  · rintro ⟨hdeclares, htexts, hfiles⟩ field hmem
    obtain ⟨name, rule, hname, hrule⟩ := hdeclares field hmem
    refine ⟨name, rule, hname, hrule, ?_⟩
    cases rule with
    | text rule =>
      intro max hmax
      obtain ⟨hisFile, hget⟩ := ruleFor_text hrule
      have hentry := (BTreeMap.get_eq_some_iff spec.textKeys).mp hget
      obtain ⟨text, hdecoded⟩ := Option.isSome_iff_exists.mp (hbody.decodes field hmem hisFile)
      have htext := htexts _ hentry max hmax text (mem_textsSent.mpr ⟨field, hmem, hname, hisFile, by rw [hdecoded]; rfl⟩)
      rwa [utf8ByteSize_decoded hdecoded] at htext
    | file rule =>
      obtain ⟨hisFile, hget⟩ := ruleFor_file hrule
      have hentry := (BTreeMap.get_eq_some_iff spec.fileKeys).mp hget
      by_cases hempty : isEmptyOptionalFile field.fileName rule = true
      · exact .inl hempty
      · exact .inr (hfiles _ hentry field (mem_filesSent.mpr
          ⟨hmem, (skips_file hname hrule).trans (Bool.eq_false_of_not_eq_true hempty), hname, hisFile⟩))

/-- What is in the map is declared when every field is. -/
theorem ReadTo.declared {progress : Progress} (h : ReadTo host conf spec body progress)
    (hdeclares : ∀ field ∈ body, spec.Declares field) :
    (∀ name ∈ progress.map.texts.keys, spec.text.containsKey name = true) ∧
      ∀ name ∈ progress.map.files.keys, spec.files.containsKey name = true := by
  refine ⟨fun name hmem => ?_, fun name hmem => ?_⟩
  · obtain ⟨entry, hentry, rfl⟩ := List.mem_map.mp hmem
    have hget := (BTreeMap.get_eq_some_iff h.textKeys).mpr hentry
    rw [h.texts] at hget
    obtain ⟨text, htext⟩ := exists_mem_of_entryOf hget
    obtain ⟨field, hfield, hname, hisFile, -⟩ := mem_textsSent.mp htext
    obtain ⟨name, rule, hname', hrule⟩ := hdeclares field hfield
    obtain rfl := Option.some.inj (hname.symm.trans hname')
    rw [hisFile] at hrule
    obtain ⟨rule, hrule, -⟩ := Option.map_eq_some_iff.mp hrule
    exact BTreeMap.containsKey_iff.mpr ⟨rule, (BTreeMap.get_eq_some_iff spec.textKeys).mp hrule⟩
  · obtain ⟨entry, hentry, rfl⟩ := List.mem_map.mp hmem
    have hget := (BTreeMap.get_eq_some_iff h.fileKeys).mpr hentry
    rw [h.files] at hget
    obtain ⟨file, hfile⟩ := exists_mem_of_entryOf hget
    obtain ⟨field, hsent, -⟩ := List.mem_map.mp hfile
    obtain ⟨hfield, -, hname, hisFile⟩ := mem_filesSent.mp hsent
    obtain ⟨name, rule, hname', hrule⟩ := hdeclares field hfield
    obtain rfl := Option.some.inj (hname.symm.trans hname')
    rw [hisFile] at hrule
    obtain ⟨rule, hrule, -⟩ := Option.map_eq_some_iff.mp hrule
    exact BTreeMap.containsKey_iff.mpr ⟨rule, (BTreeMap.get_eq_some_iff spec.fileKeys).mp hrule⟩

/-- The forms that are accepted: every field is declared, and every rule holds by the types found on arrival. -/
theorem parseMultipart_ok_iff (hbody : WellFormed body) (hwithin : Within conf spec body) :
    ((∃ map, parseMultipart host conf (some spec) body = .ok map) ↔
      (∀ field ∈ body, spec.Declares field) ∧ RulesHold conf spec (typeByArrival host) body) ∧
    ∀ map, parseMultipart host conf (some spec) body = .ok map → Returns host conf spec body map := by
  obtain ⟨hiff, hreadTo⟩ := @readFields_ok_iff host conf spec [] _ body ReadTo.empty hwithin hbody.decodes
  have hparse : ∀ map, parseMultipart host conf (some spec) body = .ok map ↔ ∃ progress,
      body.foldlM (readField host conf (some spec)) ⟨⟨[], []⟩, 0, 0, 0⟩ = .ok progress ∧
        spec.validateMap host progress.map = .ok () ∧ progress.map = map := by
    intro map
    rw [parseMultipart, Step.except_bind_ok]
    refine exists_congr fun progress => and_congr_right fun _ => ?_
    dsimp only
    rw [Step.except_bind_ok]
    exact ⟨fun ⟨_, hvalid, hmap⟩ => ⟨hvalid, Except.ok.inj hmap⟩, fun ⟨hvalid, hmap⟩ => ⟨(), hvalid, congrArg _ hmap⟩⟩
  refine ⟨⟨?_, ?_⟩, ?_⟩
  · rintro ⟨map, h⟩
    obtain ⟨progress, hprogress, hvalid, -⟩ := (hparse map).mp h
    have hreturns := (hreadTo progress hprogress).returns
    obtain ⟨htexts, hfiles, -⟩ := validateMap_ok_iff.mp hvalid
    obtain ⟨hdeclares, -, hfits⟩ := (forall_passes_iff hbody).mp (hiff.mp ⟨progress, hprogress⟩)
    refine ⟨hdeclares, fun entry hentry => hreturns.texts entry.1 ▸ htexts entry hentry, fun entry hentry =>
      ⟨hfits entry hentry, ?_⟩⟩
    have hpresence := (hfiles entry hentry).2
    rw [hreturns.files, List.length_map] at hpresence
    exact hpresence
  · rintro ⟨hdeclares, hrules⟩
    obtain ⟨progress, hprogress⟩ := hiff.mpr ((forall_passes_iff hbody).mpr ⟨hdeclares, fun entry hentry max hmax text hmem =>
      ((hrules.text entry hentry).fits text hmem).bytes max hmax, fun entry hentry => (hrules.files entry hentry).1⟩)
    have hread := hreadTo progress hprogress
    have hreturns := hread.returns
    refine ⟨progress.map, (hparse _).mpr ⟨progress, hprogress, validateMap_ok_iff.mpr ⟨fun entry hentry => ?_,
      fun entry hentry => ?_, .inr (hread.declared hdeclares)⟩, rfl⟩⟩
    · rw [hreturns.texts]
      exact hrules.text entry hentry
    · obtain ⟨hfits, hpresence⟩ := hrules.files entry hentry
      rw [hreturns.files, List.length_map]
      refine ⟨fun file hfile => ?_, hpresence⟩
      obtain ⟨field, hfield, rfl⟩ := List.mem_map.mp hfile
      rw [MultipartSpec.fileAs, (BTreeMap.get_eq_some_iff spec.fileKeys).mpr hentry]
      exact (hfits field hfield).accepts
  · intro map h
    obtain ⟨progress, hprogress, -, rfl⟩ := (hparse map).mp h
    exact (hreadTo progress hprogress).returns

theorem forall_judged {P : FileRule → Field → Prop} : (∀ file ∈ spec.judged body, P file.1 file.2) ↔
    ∀ entry ∈ spec.files, ∀ field ∈ spec.filesSent body entry.1, P entry.2 field := by
  simp only [MultipartSpec.judged, List.mem_flatMap, List.mem_map]
  constructor
  · exact fun h entry hentry field hfield => h (entry.2, field) ⟨entry, hentry, field, hfield, rfl⟩
  · rintro h _ ⟨entry, hentry, field, hfield, rfl⟩
    exact h entry hentry field hfield

theorem rulesHold_iff {typeOf : Field → Option String} : RulesHold conf spec typeOf body ↔
    UntypedHold conf spec body ∧ ∀ file ∈ spec.judged body, file.1.sniffs (typeOf file.2) = true := by
  rw [forall_judged (P := fun rule field => rule.sniffs (typeOf field) = true)]
  constructor
  · intro h
    refine ⟨⟨h.text, fun entry hentry => ⟨fun field hfield => ?_, (h.files entry hentry).2⟩⟩, fun entry hentry field hfield => ?_⟩
    · have hfits := (h.files entry hentry).1 field hfield
      exact ⟨hfits.size, hfits.headers⟩
    · exact ((h.files entry hentry).1 field hfield).sniffs
  · rintro ⟨huntyped, hsniffs⟩
    refine ⟨huntyped.text, fun entry hentry => ⟨fun field hfield => ?_, (huntyped.files entry hentry).2⟩⟩
    obtain ⟨hsize, hheaders⟩ := (huntyped.files entry hentry).1 field hfield
    exact ⟨hsize, hheaders, hsniffs entry hentry field hfield⟩

/-- The rules hold by the types found on arrival as they do by the contents, if it comes to the types at all. -/
theorem rulesHold_alike_iff : (RulesHold conf spec (typeByArrival host) body ↔
      RulesHold conf spec (typeByContent host) body) ↔
    (UntypedHold conf spec body → SniffedAlike host (spec.judged body)) := by
  rw [rulesHold_iff, rulesHold_iff, sniffedAlike_iff]
  exact and_congr_right_iff

/-- A form with a spec is accepted as its rules say exactly when undeclared fields that are allowed do not come with
    rules that hold, and no file is misread whose type decides. -/
theorem form_enforces_spec_iff (host : Host) (conf : UploadConf) (spec : MultipartSpec) (body : List Field)
    (hbody : WellFormed body) (hwithin : Within conf spec body) :
    (((∃ map, parseMultipart host conf (some spec) body = .ok map) ↔
        RulesHold conf spec (typeByContent host) body ∧
          (spec.allowUnknown = true ∨ ∀ field ∈ body, spec.Declares field)) ∧
      ∀ map, parseMultipart host conf (some spec) body = .ok map → Returns host conf spec body map) ↔
    ((∀ field ∈ body, spec.Declares field) → UntypedHold conf spec body → SniffedAlike host (spec.judged body)) ∧
      (spec.allowUnknown = true → (∃ field ∈ body, ¬spec.Declares field) →
        ¬RulesHold conf spec (typeByContent host) body) := by
  obtain ⟨hiff, hreturns⟩ := @parseMultipart_ok_iff host conf spec body hbody hwithin
  rw [and_iff_left hreturns, hiff, ← rulesHold_alike_iff]
  constructor
  · intro h
    refine ⟨fun hdeclares => ⟨fun hrules => (h.mp ⟨hdeclares, hrules⟩).1, fun hrules => (h.mpr ⟨hrules, .inr hdeclares⟩).2⟩,
      fun hallow ⟨field, hmem, hunknown⟩ hrules => hunknown ((h.mpr ⟨hrules, .inl hallow⟩).1 field hmem)⟩
  · rintro ⟨hsame, hrefused⟩
    constructor
    · rintro ⟨hdeclares, hrules⟩
      exact ⟨(hsame hdeclares).mp hrules, .inr hdeclares⟩
    · rintro ⟨hrules, hallowed⟩
      have hdeclares : ∀ field ∈ body, spec.Declares field := by
        rcases hallowed with hallow | hdeclares
        · by_contra hnot
          push Not at hnot
          exact hrefused hallow hnot hrules
        · exact hdeclares
      exact ⟨hdeclares, (hsame hdeclares).mpr hrules⟩

end

/-! ### A form with a title -/

def scanRule : FileRule := { FileRule.new with sniff := some (.mime ["application/zip"]) }

def noteSpec (allowUnknown : Bool) : MultipartSpec :=
  ⟨[("title", { FieldRule.new with required := true })], [("scan", scanRule)], allowUnknown, by decide, by decide⟩

def titleField : Field := ⟨some "title", none, none, [[72, 105]]⟩

/-- An archive whose signature arrives in two chunks. -/
def scanField : Field := ⟨some "scan", some "scan.zip", none, [[0x50, 0x4B], [0x03, 0x04, 0x05]]⟩

def extraField : Field := ⟨some "extra", none, none, [[120]]⟩

theorem noteConf_fits : 1000 < 2 ^ 64 := by decide

def noteConf : UploadConf := ⟨1000, 1000, 1, 2, 16, noteConf_fits⟩

theorem noteFields_wellFormed {body : List Field}
    (h : ∀ field ∈ body, field = titleField ∨ field = scanField ∨ field = extraField) : WellFormed body := by
  refine ⟨fun field hmem => ?_, fun field hmem htext => ?_⟩
  · rcases h field hmem with rfl | rfl | rfl <;> rfl
  · rcases h field hmem with rfl | rfl | rfl
    · decide +kernel
    · exact nomatch htext
    · decide +kernel

/-- The title is there, and the scans are archives. -/
theorem note_rulesHold (allowUnknown : Bool) {body scans : List Field} (htexts : textsSent body "title" = ["Hi"])
    (hscans : (noteSpec allowUnknown).filesSent body "scan" = scans) (hcount : scans.length ≤ 1)
    (hall : ∀ field ∈ scans, field = scanField) :
    RulesHold noteConf (noteSpec allowUnknown) (typeByContent officeHost) body := by
  refine ⟨List.forall_mem_singleton.mpr ?_, List.forall_mem_singleton.mpr ⟨?_, ?_⟩⟩
  · rw [htexts]
    exact ⟨⟨fun _ => by decide, .inr (by decide)⟩, fun value _ => ⟨nofun, nofun⟩⟩
  · rw [hscans]
    intro field hfield
    obtain rfl := hall field hfield
    exact ⟨by decide, ⟨.inl rfl, .inl rfl⟩, by decide +kernel⟩
  · rw [hscans]
    exact ⟨fun h => (nomatch h), .inr hcount⟩

theorem note_is_accepted :
    (∃ map, parseMultipart officeHost noteConf (some (noteSpec false)) [titleField, scanField] = .ok map) ∧
      ∀ map, parseMultipart officeHost noteConf (some (noteSpec false)) [titleField, scanField] = .ok map →
        Returns officeHost noteConf (noteSpec false) [titleField, scanField] map := by
  have hscans : (noteSpec false).filesSent [titleField, scanField] "scan" = [scanField] := rfl
  have hrules := note_rulesHold false (by decide +kernel) hscans le_rfl (List.forall_mem_singleton.mpr rfl)
  have hdeclares : ∀ field ∈ [titleField, scanField], (noteSpec false).Declares field :=
    List.forall_mem_cons.mpr ⟨⟨"title", _, rfl, rfl⟩, List.forall_mem_singleton.mpr ⟨"scan", _, rfl, rfl⟩⟩
  have hjudged : (noteSpec false).judged [titleField, scanField] = [(scanRule, scanField)] := rfl
  have halike : SniffedAlike officeHost ((noteSpec false).judged [titleField, scanField]) := by
    refine .inl fun file hfile => ?_
    rw [hjudged, List.mem_singleton] at hfile
    rw [hfile, misread_iff, not_not]
    decide +kernel
  obtain ⟨hiff, hreturns⟩ := (form_enforces_spec_iff officeHost noteConf (noteSpec false) [titleField, scanField]
    (noteFields_wellFormed (by simp)) ⟨by decide, by decide, by decide⟩).mpr ⟨fun _ _ => halike, nofun⟩
  exact ⟨hiff.mpr ⟨hrules, .inr hdeclares⟩, hreturns⟩

/-- A field that is not declared is refused, though the spec allows unknown fields and its rules hold. -/
theorem allowed_field_is_refused : (noteSpec true).allowUnknown = true ∧ WellFormed [titleField, extraField] ∧
    Within noteConf (noteSpec true) [titleField, extraField] ∧
    RulesHold noteConf (noteSpec true) (typeByContent officeHost) [titleField, extraField] ∧
    parseMultipart officeHost noteConf (some (noteSpec true)) [titleField, extraField] =
      .error (invalidField "extra" "Unknown multipart field.") := by
  have hscans : (noteSpec true).filesSent [titleField, extraField] "scan" = [] := rfl
  exact ⟨rfl, noteFields_wellFormed (by simp), ⟨by decide, by decide, by decide⟩,
    note_rulesHold true (by decide +kernel) hscans (Nat.zero_le _) nofun, by decide +kernel⟩

end Vyuh.Routes
