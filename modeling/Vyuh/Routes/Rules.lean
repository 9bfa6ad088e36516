import Vyuh.Routes.Chunks

/-! What the rules of a form say, and that the finished form is checked for just that. -/

namespace Vyuh.Routes

open Lib Validation

/-! ### What rules say -/

/-- How often a field may be there. -/
def Presence (required multiple : Bool) (count : ℕ) : Prop := (required = true → count ≠ 0) ∧ (multiple = true ∨ count ≤ 1)

structure FieldRule.Fits (rule : FieldRule) (value : String) : Prop where
  length : ∀ max, rule.maxLength = some max → value.length ≤ max
  bytes : ∀ max, rule.maxBytes = some max → value.utf8ByteSize ≤ max

structure FieldRule.Holds (rule : FieldRule) (values : List String) : Prop where
  presence : Presence rule.required rule.multiple values.length
  fits : ∀ value ∈ values, rule.Fits value

structure FileRule.HeadersHold (rule : FileRule) (fileName contentType : Option String) : Prop where
  contentType : rule.contentTypes = [] ∨ ∃ type, contentType = some type ∧ type.toLower ∈ rule.contentTypes
  extension : rule.extensions = [] ∨ ∃ name ext, fileName = some name ∧ extension name = some ext ∧
    ext.toLower ∈ rule.extensions

/-! ### Checks of a finished form -/

theorem isEmpty_push {path : Validation.Path} {error : ValidationError} {report : ValidationReport} :
    ¬(report.push path error).isEmpty = true := by
  rw [ValidationReport.push, ValidationReport.isEmpty, List.isEmpty_iff]
  exact List.append_ne_nil_of_right_ne_nil _ (List.cons_ne_nil _ _)

/-- A report stays empty when each thing that is checked is as it should be. -/
theorem foldl_isEmpty_iff {α : Type} {f : ValidationReport → α → ValidationReport} {P : α → Prop}
    (hf : ∀ report a, (f report a).isEmpty = true ↔ report.isEmpty = true ∧ P a) (as : List α)
    (report : ValidationReport) :
    (as.foldl f report).isEmpty = true ↔ report.isEmpty = true ∧ ∀ a ∈ as, P a := by
  induction as generalizing report with
  | nil => exact (and_iff_left nofun).symm
  | cons a as ih => rw [List.foldl_cons, ih, hf, List.forall_mem_cons, and_assoc]

theorem validatePresence_isEmpty_iff {required multiple : Bool} {name : String} {count : ℕ}
    {report : ValidationReport} : (validatePresence required multiple name count report).isEmpty = true ↔
      report.isEmpty = true ∧ Presence required multiple count := by
  have hrequired : (if required && count = 0 then report.push (atField name) ⟨"required", "This field is required.", []⟩
      else report).isEmpty = true ↔ report.isEmpty = true ∧ (required = true → count ≠ 0) := by
    by_cases hmissing : (required && count = 0) = true
    · rw [if_pos hmissing]
      rw [Bool.and_eq_true, decide_eq_true_eq] at hmissing
      exact iff_of_false isEmpty_push fun h => h.2 hmissing.1 hmissing.2
    · rw [if_neg hmissing]
      rw [Bool.and_eq_true, decide_eq_true_eq, not_and] at hmissing
      exact (and_iff_left hmissing).symm
  rw [validatePresence, Presence, ← and_assoc, ← hrequired]
  by_cases htwice : (!multiple && 1 < count) = true
  · rw [if_pos htwice]
    rw [Bool.and_eq_true, Bool.not_eq_true', decide_eq_true_eq] at htwice
    refine iff_of_false isEmpty_push fun h => ?_
    rw [htwice.1] at h
    exact absurd htwice.2 (not_lt.mpr (h.2.resolve_left Bool.false_ne_true))
  · rw [if_neg htwice]
    refine (and_iff_left ?_).symm
    cases multiple with
    | true => exact .inl rfl
    | false =>
      rw [Bool.not_false, Bool.true_and, decide_eq_true_eq] at htwice
      exact .inr (not_lt.mp htwice)

section

variable {host : Host} {name : String} {report : ValidationReport}

/-- A limit adds an error for what is over it. -/
theorem limit_isEmpty_iff (report : ValidationReport) (limit : Option ℕ) (size : ℕ)
    (error : ℕ → ValidationError) :
    (match limit with
      | some max => if max < size then report.push (atField name) (error max) else report
      | none => report).isEmpty = true ↔ report.isEmpty = true ∧ ∀ max, limit = some max → size ≤ max := by
  cases limit with
  | none => exact (and_iff_left (fun _ h => by cases h)).symm
  | some max =>
    dsimp only
    by_cases hlarge : max < size
    · rw [if_pos hlarge]
      exact iff_of_false isEmpty_push fun h => absurd (h.2 max rfl) (not_le.mpr hlarge)
    · rw [if_neg hlarge]
      exact (and_iff_left fun _ h => Option.some.inj h ▸ not_lt.mp hlarge).symm

theorem validateValue_isEmpty_iff (rule : FieldRule) (report : ValidationReport) (value : String) :
    (rule.validateValue name report value).isEmpty = true ↔ report.isEmpty = true ∧ rule.Fits value := by
  have hfits : rule.Fits value ↔ (∀ max, rule.maxLength = some max → value.length ≤ max) ∧
      ∀ max, rule.maxBytes = some max → value.utf8ByteSize ≤ max := ⟨fun h => ⟨h.1, h.2⟩, fun h => ⟨h.1, h.2⟩⟩
  rw [hfits, ← and_assoc]
  exact (limit_isEmpty_iff _ rule.maxBytes _ _).trans (and_congr_left' (limit_isEmpty_iff report rule.maxLength _ _))

theorem validateValues_isEmpty_iff (rule : FieldRule) (values : List String) (report : ValidationReport) :
    (rule.validateValues name values report).isEmpty = true ↔ report.isEmpty = true ∧ rule.Holds values := by
  rw [FieldRule.validateValues, foldl_isEmpty_iff (validateValue_isEmpty_iff rule), validatePresence_isEmpty_iff,
    and_assoc]
  exact and_congr_right fun _ => ⟨fun h => ⟨h.1, h.2⟩, fun h => ⟨h.1, h.2⟩⟩

theorem pushUnknown_isEmpty_iff (declared : String → Bool) (names : List String) (report : ValidationReport) :
    (pushUnknown declared names report).isEmpty = true ↔
      report.isEmpty = true ∧ ∀ name ∈ names, declared name = true := by
  rw [pushUnknown, foldl_isEmpty_iff (P := fun _ => False) fun _ _ => iff_of_false isEmpty_push And.right]
  refine and_congr_right fun _ => ⟨fun h name hmem => ?_, fun h name hmem => ?_⟩
  · by_contra hnot
    exact h name (List.mem_filter.mpr ⟨hmem, by rw [Bool.eq_false_of_not_eq_true hnot]; rfl⟩)
  · obtain ⟨hin, hunknown⟩ := List.mem_filter.mp hmem
    rw [h name hin] at hunknown
    exact nomatch hunknown

theorem validateContentType_ok_iff {rule : FileRule} {contentType : Option String} :
    rule.validateContentType name contentType = .ok () ↔
      rule.contentTypes = [] ∨ ∃ type, contentType = some type ∧ type.toLower ∈ rule.contentTypes := by
  rw [FileRule.validateContentType]
  constructor
  · intro h
    split at h
    next hempty => exact .inl (List.isEmpty_iff.mp hempty)
    next =>
      split at h
      next => exact nomatch h
      next type htype =>
        obtain ⟨given, rfl, rfl⟩ := Option.map_eq_some_iff.mp htype
        split at h
        next hmem => exact .inr ⟨given, rfl, List.contains_iff_mem.mp hmem⟩
        next => exact nomatch h
  · rintro (hempty | ⟨type, rfl, hmem⟩)
    · exact if_pos (List.isEmpty_iff.mpr hempty)
    · split
      next => rfl
      next => exact if_pos (List.contains_iff_mem.mpr hmem)

theorem validateExtension_ok_iff {rule : FileRule} {fileName : Option String} :
    rule.validateExtension name fileName = .ok () ↔ rule.extensions = [] ∨
      ∃ name ext, fileName = some name ∧ extension name = some ext ∧ ext.toLower ∈ rule.extensions := by
  rw [FileRule.validateExtension]
  constructor
  · intro h
    split at h
    next hempty => exact .inl (List.isEmpty_iff.mp hempty)
    next =>
      split at h
      next ext hext =>
        obtain ⟨name, rfl, hname⟩ := Option.bind_eq_some_iff.mp hext
        split at h
        next hmem => exact .inr ⟨name, ext, rfl, hname, List.contains_iff_mem.mp hmem⟩
        next => exact nomatch h
      next => exact nomatch h
  · rintro (hempty | ⟨name, ext, rfl, hname, hmem⟩)
    · exact if_pos (List.isEmpty_iff.mpr hempty)
    · rw [Option.bind_some, hname]
      split
      next => rfl
      next => exact if_pos (List.contains_iff_mem.mpr hmem)

theorem validateHeaders_ok_iff {rule : FileRule} {fileName contentType : Option String} :
    rule.validateHeaders name fileName contentType = .ok () ↔ rule.HeadersHold fileName contentType := by
  rw [FileRule.validateHeaders, Step.except_bind_ok]
  constructor
  · rintro ⟨_, htype, hext⟩
    exact ⟨validateContentType_ok_iff.mp htype, validateExtension_ok_iff.mp hext⟩
  · intro h
    exact ⟨(), validateContentType_ok_iff.mpr h.contentType, validateExtension_ok_iff.mpr h.extension⟩

/-- A file that is as its rule says; the type is the one it was found to have, or has by its content. -/
structure FileRule.Accepts (rule : FileRule) (host : Host) (file : UploadedFile) : Prop where
  size : ∀ max, rule.maxSize = some max → file.size ≤ max
  headers : rule.HeadersHold file.fileName file.contentType
  sniffs : rule.sniffs (file.sniffedContentType.or (detectFileMime host file)) = true

theorem validateFile_ok_iff {rule : FileRule} {file : UploadedFile} :
    rule.validateFile host name file = .ok () ↔ rule.Accepts host file := by
  have hsniff : (if rule.sniff.isSome then
      rule.validateSniff name (file.sniffedContentType.or (detectFileMime host file)) else .ok ()) = .ok () ↔
      rule.sniffs (file.sniffedContentType.or (detectFileMime host file)) = true := by
    by_cases hsome : rule.sniff.isSome = true
    · rw [if_pos hsome, validateSniff_ok_iff]
    · rw [if_neg hsome]
      exact iff_of_true rfl (sniffs_of_isNone hsome _)
  have hsize : ¬rule.maxSize.any (· < file.size) = true ↔ ∀ max, rule.maxSize = some max → file.size ≤ max := by
    cases rule.maxSize with
    | none => exact iff_of_true Bool.false_ne_true nofun
    | some max =>
      rw [Option.any_some, decide_eq_true_eq, not_lt]
      exact ⟨fun h _ heq => Option.some.inj heq ▸ h, fun h => h max rfl⟩
  rw [FileRule.validateFile, Step.except_check_ok, hsize, Step.except_bind_ok]
  constructor
  · rintro ⟨hfits, _, hheaders, hsniffs⟩
    exact ⟨hfits, validateHeaders_ok_iff.mp hheaders, hsniff.mp hsniffs⟩
  · intro h
    exact ⟨h.size, (), validateHeaders_ok_iff.mpr h.headers, hsniff.mpr h.sniffs⟩

theorem validateFiles_ok_iff {rule : FileRule} {files : List UploadedFile} {report' : ValidationReport} :
    rule.validateFiles host name files report = .ok report' ↔ (∀ file ∈ files, rule.Accepts host file) ∧
      validatePresence rule.required rule.multiple name files.length report = report' := by
  have hall : forM files (rule.validateFile host name) = .ok () ↔ ∀ file ∈ files, rule.Accepts host file := by
    induction files with
    | nil => exact iff_of_true rfl nofun
    | cons file files ih =>
      rw [List.forM_cons, Step.except_bind_ok, List.forall_mem_cons, ← ih]
      exact ⟨fun ⟨_, hfile, hfiles⟩ => ⟨validateFile_ok_iff.mp hfile, hfiles⟩,
        fun ⟨hfile, hfiles⟩ => ⟨(), validateFile_ok_iff.mpr hfile, hfiles⟩⟩
  rw [FileRule.validateFiles, Step.except_bind_ok]
  exact ⟨fun ⟨_, hfiles, h⟩ => ⟨hall.mp hfiles, Except.ok.inj h⟩, fun ⟨hfiles, h⟩ => ⟨(), hall.mpr hfiles, congrArg _ h⟩⟩

/-- A fold of checks, each of which gives a report of its own. -/
theorem foldlM_ok_iff {α : Type} {f : ValidationReport → α → Except MultipartError ValidationReport}
    {g : ValidationReport → α → ValidationReport} {P : α → Prop}
    (hf : ∀ report a report', f report a = .ok report' ↔ P a ∧ g report a = report') (as : List α)
    (report report' : ValidationReport) :
    as.foldlM f report = .ok report' ↔ (∀ a ∈ as, P a) ∧ as.foldl g report = report' := by
  induction as generalizing report with
  | nil => exact ⟨fun h => ⟨nofun, Except.ok.inj h⟩, fun h => congrArg _ h.2⟩
  | cons a as ih =>
    rw [List.foldlM_cons, List.foldl_cons, Step.except_bind_ok, List.forall_mem_cons]
    constructor
    · rintro ⟨next, hnext, hrest⟩
      obtain ⟨hP, rfl⟩ := (hf _ _ _).mp hnext
      obtain ⟨hall, hfold⟩ := (ih _).mp hrest
      exact ⟨⟨hP, hall⟩, hfold⟩
    · rintro ⟨⟨hP, hall⟩, hfold⟩
      exact ⟨_, (hf _ _ _).mpr ⟨hP, rfl⟩, (ih _).mpr ⟨hall, hfold⟩⟩

/-- A finished form passes exactly when every declared rule holds of it, and what is not declared may be there. -/
theorem validateMap_ok_iff {spec : MultipartSpec} {map : MultipartMap} :
    spec.validateMap host map = .ok () ↔
      (∀ entry ∈ spec.text, entry.2.Holds ((map.texts.get entry.1).getD [])) ∧
      (∀ entry ∈ spec.files, (∀ file ∈ (map.files.get entry.1).getD [], entry.2.Accepts host file) ∧
        Presence entry.2.required entry.2.multiple ((map.files.get entry.1).getD []).length) ∧
      (spec.allowUnknown = true ∨ (∀ name ∈ map.texts.keys, spec.text.containsKey name = true) ∧
        ∀ name ∈ map.files.keys, spec.files.containsKey name = true) := by
  have htexts := foldl_isEmpty_iff (f := fun report (entry : String × FieldRule) =>
      entry.2.validateValues entry.1 ((map.texts.get entry.1).getD []) report)
    (fun report entry => validateValues_isEmpty_iff entry.2 _ report) spec.text ValidationReport.empty
  have hfiles := foldlM_ok_iff (f := fun report (entry : String × FileRule) =>
      entry.2.validateFiles host entry.1 ((map.files.get entry.1).getD []) report)
    (fun report entry report' => validateFiles_ok_iff) spec.files
  have hpresence := foldl_isEmpty_iff (f := fun report (entry : String × FileRule) =>
      validatePresence entry.2.required entry.2.multiple entry.1 ((map.files.get entry.1).getD []).length report)
    (fun report entry => validatePresence_isEmpty_iff) spec.files
  have hunknown : ∀ report, (if spec.allowUnknown then report else
      pushUnknown spec.files.containsKey map.files.keys (pushUnknown spec.text.containsKey map.texts.keys report)).isEmpty =
        true ↔ report.isEmpty = true ∧ (spec.allowUnknown = true ∨
          (∀ name ∈ map.texts.keys, spec.text.containsKey name = true) ∧
          ∀ name ∈ map.files.keys, spec.files.containsKey name = true) := by
    intro report
    by_cases hallow : spec.allowUnknown = true
    · rw [if_pos hallow]
      exact (and_iff_left (.inl hallow)).symm
    · rw [if_neg hallow, pushUnknown_isEmpty_iff, pushUnknown_isEmpty_iff, or_iff_right hallow, and_assoc]
  have hend : ∀ report : ValidationReport,
      (if report.isEmpty then Except.ok () else Except.error (MultipartError.validation report)) = .ok () ↔
        report.isEmpty = true := by
    intro report
    by_cases hempty : report.isEmpty = true
    · exact iff_of_true (if_pos hempty) hempty
    · exact iff_of_false (by rw [if_neg hempty]; exact nofun) hempty
  rw [MultipartSpec.validateMap, Step.except_bind_ok]
  constructor
  · rintro ⟨report, hreport, h⟩
    obtain ⟨haccepts, rfl⟩ := (hfiles _ _).mp hreport
    obtain ⟨hempty, hallowed⟩ := (hunknown _).mp ((hend _).mp h)
    obtain ⟨hempty, hpresent⟩ := (hpresence _).mp hempty
    exact ⟨(htexts.mp hempty).2, fun entry hmem => ⟨haccepts entry hmem, hpresent entry hmem⟩, hallowed⟩
  · rintro ⟨hholds, haccepts, hallowed⟩
    refine ⟨_, (hfiles _ _).mpr ⟨fun entry hmem => (haccepts entry hmem).1, rfl⟩, (hend _).mpr ((hunknown _).mpr ⟨?_, hallowed⟩)⟩
    exact (hpresence _).mpr ⟨htexts.mpr ⟨rfl, hholds⟩, fun entry hmem => (haccepts entry hmem).2⟩

end

end Vyuh.Routes
