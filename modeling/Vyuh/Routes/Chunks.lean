import Vyuh.Routes.Multipart

/-! Files of a form and the chunks they arrive in: only the type that is found for a file can depend on where the
    chunks end. -/

namespace Vyuh.Routes

open Lib

/-! ### Types -/

/-- A type that a rule accepts. -/
def FileRule.sniffs (rule : FileRule) (sniffed : Option String) : Bool :=
  match rule.sniff with
  | none => true
  | some .image => sniffed.any fun sniffed => "image/".isPrefixOf sniffed
  | some (.mime allowed) => sniffed.any allowed.contains

/-- The type that a file is accepted with. -/
def FileRule.verdict (rule : FileRule) (sniffed : Option String) : Option String :=
  if rule.sniffs sniffed then sniffed else none

/-- The first type that is found for what has arrived of a file. -/
def firstType (host : Host) (arrived : Bytes) : List Bytes → Option String
  | [] => none
  | chunk :: chunks =>
    let seen := (arrived ++ chunk).take sniffLimit
    (if arrived.length < sniffLimit ∧ seen ≠ [] then host.mime seen else none).or
      (firstType host (arrived ++ chunk) chunks)

/-- The type that the whole file has. -/
def wholeType (host : Host) (content : Bytes) : Option String := host.mime (content.take sniffLimit)

section

variable {host : Host} {name : String} {rule : FileRule} {conf : UploadConf} {before : ℕ} {arrived chunk : Bytes}

theorem validateSniff_ok_iff {sniffed : Option String} :
    rule.validateSniff name sniffed = .ok () ↔ rule.sniffs sniffed = true := by
  rw [FileRule.validateSniff, FileRule.sniffs]
  cases rule.sniff with
  | none => exact iff_of_true rfl rfl
  | some sniff =>
    cases sniffed with
    | none => cases sniff <;> exact iff_of_false nofun Bool.false_ne_true
    | some sniffed =>
      cases sniff with
      | image =>
        show (if _ then _ else _) = _ ↔ _
        by_cases h : "image/".isPrefixOf sniffed = true
        · exact iff_of_true (if_pos h) h
        · exact iff_of_false (by rw [if_neg h]; exact nofun) h
      | mime allowed =>
        show (if _ then _ else _) = _ ↔ _
        by_cases h : allowed.contains sniffed = true
        · exact iff_of_true (if_pos h) h
        · exact iff_of_false (by rw [if_neg h]; exact nofun) h

/-- A type that is found is the type of some bytes that the file begins with. -/
theorem firstType_prefix {chunks : List Bytes} {mime : String} (h : firstType host arrived chunks = some mime) :
    ∃ n, 0 < n ∧ n ≤ (arrived ++ chunks.flatten).length ∧ n ≤ sniffLimit ∧
      host.mime ((arrived ++ chunks.flatten).take n) = some mime := by
  induction chunks generalizing arrived with
  | nil => exact nomatch h
  | cons chunk chunks ih =>
    rw [List.flatten_cons, ← List.append_assoc]
    rcases Option.or_eq_some_iff.mp h with hseen | ⟨-, hlater⟩
    · split at hseen
      next hcond =>
        have hlength : 0 < (arrived ++ chunk).length := by
          by_contra hzero
          rw [Nat.not_lt, Nat.le_zero, List.length_eq_zero_iff] at hzero
          rw [hzero] at hcond
          exact hcond.2 rfl
        refine ⟨min sniffLimit (arrived ++ chunk).length, lt_min (by decide) hlength, ?_, min_le_left _ _, ?_⟩
        · exact (min_le_right _ _).trans (List.prefix_append _ _).length_le
        · rw [List.take_append_of_le_length (min_le_right _ _), ← List.take_eq_take_min]
          exact hseen
      next => exact nomatch hseen
    · exact ih hlater

/-! ### Reading -/

/-- Where the reading stands when some bytes have arrived. -/
def readingAt (rule : FileRule) (conf : UploadConf) (before : ℕ) (arrived : Bytes) (sniffed : Option String) : Reading where
  requestBytes := saturatingAdd before arrived.length
  size := arrived.length
  memory := if conf.memoryThresholdBytes < arrived.length then [] else arrived
  temp := if conf.memoryThresholdBytes < arrived.length then some arrived else none
  sniffPrefix := if rule.sniff.isSome then arrived.take sniffLimit else []
  sniffChecked := sniffed.isSome
  sniffedContentType := sniffed

/-- Too much for a file, or for the request. -/
def Exceeds (rule : FileRule) (conf : UploadConf) (before : ℕ) (content : Bytes) : Prop :=
  rule.maxSizeOr conf.maxFileBytes < content.length ∨
    conf.maxRequestBytes < saturatingAdd before content.length

theorem saturatingAdd_add (a b c : ℕ) : saturatingAdd (saturatingAdd a b) c = saturatingAdd a (b + c) := by
  rw [saturatingAdd, saturatingAdd, saturatingAdd]
  omega

theorem Exceeds.append (h : Exceeds rule conf before arrived) (chunk : Bytes) :
    Exceeds rule conf before (arrived ++ chunk) := by
  rw [Exceeds, saturatingAdd] at h ⊢
  rw [List.length_append]
  omega

theorem addBytes_ok_iff {total next max total' : ℕ} :
    addBytes total next max = .ok total' ↔ saturatingAdd total next ≤ max ∧ saturatingAdd total next = total' := by
  rw [addBytes, Step.except_check_ok, not_lt]
  exact and_congr_right fun _ => ⟨Except.ok.inj, congrArg _⟩

theorem storeChunk_readingAt {state : Reading} {sniffed : Option String}
    (hmemory : state.memory = if conf.memoryThresholdBytes < arrived.length then [] else arrived)
    (htemp : state.temp = if conf.memoryThresholdBytes < arrived.length then some arrived else none)
    (hrest : { state with memory := [], temp := none } =
      { readingAt rule conf before (arrived ++ chunk) sniffed with memory := [], temp := none }) :
    storeChunk conf state chunk = readingAt rule conf before (arrived ++ chunk) sniffed := by
  obtain ⟨requestBytes, size, memory, temp, sniffPrefix, sniffChecked, sniffedContentType⟩ := state
  rw [readingAt] at hrest ⊢
  simp only [Reading.mk.injEq, true_and] at hmemory htemp hrest
  obtain ⟨rfl, rfl, rfl, rfl, rfl⟩ := hrest
  subst hmemory htemp
  rw [storeChunk]
  by_cases hspilled : conf.memoryThresholdBytes < arrived.length
  · have hstill : conf.memoryThresholdBytes < (arrived ++ chunk).length := by
      rw [List.length_append]
      omega
    rw [if_pos hspilled, if_pos hspilled, if_pos hstill, if_pos hstill]
  · rw [if_neg hspilled, if_neg hspilled]
    dsimp only
    rw [List.length_append]
    by_cases hspills : conf.memoryThresholdBytes < arrived.length + chunk.length
    · rw [if_pos hspills, if_pos hspills, if_pos hspills]
    · rw [if_neg hspills, if_neg hspills, if_neg hspills]

/-- The type of a file when more of it has arrived. -/
def nextType (host : Host) (rule : FileRule) (arrived : Bytes) (sniffed : Option String) (chunks : List Bytes) :
    Option String :=
  if rule.sniff.isSome then sniffed.or (firstType host arrived chunks) else sniffed

/-- A type that is found only now is one that the rule accepts. -/
def Admits (rule : FileRule) (sniffed sniffed' : Option String) : Prop :=
  sniffed = none → sniffed' ≠ none → rule.sniffs sniffed' = true

theorem nextType_some (host : Host) (rule : FileRule) (arrived : Bytes) (mime : String) (chunks : List Bytes) :
    nextType host rule arrived (some mime) chunks = some mime := ite_self _

theorem nextType_cons (host : Host) (rule : FileRule) (arrived chunk : Bytes) (sniffed : Option String)
    (chunks : List Bytes) : nextType host rule arrived sniffed (chunk :: chunks) =
      nextType host rule (arrived ++ chunk) (nextType host rule arrived sniffed [chunk]) chunks := by
  rw [nextType, nextType, nextType]
  split
  next => rw [firstType, firstType, firstType, Option.or_none, Option.or_assoc]
  next => rfl

theorem sniffChunk_ok_iff {state state' : Reading} {sniffed : Option String}
    (hheld : state.sniffPrefix = if rule.sniff.isSome then arrived.take sniffLimit else [])
    (hchecked : state.sniffChecked = sniffed.isSome) (hsniffed : state.sniffedContentType = sniffed) :
    sniffChunk host name rule state chunk = .ok state' ↔
      Admits rule sniffed (nextType host rule arrived sniffed [chunk]) ∧
        state' = { state with
          sniffPrefix := if rule.sniff.isSome then (arrived ++ chunk).take sniffLimit else []
          sniffChecked := (nextType host rule arrived sniffed [chunk]).isSome
          sniffedContentType := nextType host rule arrived sniffed [chunk] } := by
  obtain ⟨requestBytes, size, memory, temp, sniffPrefix, sniffChecked, sniffedContentType⟩ := state
  dsimp only at hheld hchecked hsniffed
  subst hheld hchecked hsniffed
  rw [sniffChunk, nextType]
  by_cases hsniff : rule.sniff.isSome = true
  · rw [if_pos hsniff, if_pos hsniff, if_pos hsniff, firstType, firstType, Option.or_none]
    by_cases hmore : arrived.length < sniffLimit
    · have hgrown : arrived.take sniffLimit ++
          chunk.take (min chunk.length (sniffLimit - (arrived.take sniffLimit).length)) =
            (arrived ++ chunk).take sniffLimit := by
        rw [List.take_of_length_le hmore.le, List.take_append, List.take_of_length_le hmore.le, min_comm,
          ← List.take_eq_take_min]
      have hshort : (arrived.take sniffLimit).length < sniffLimit := by
        rw [List.take_of_length_le hmore.le]
        exact hmore
      rw [if_pos (by rw [hsniff, decide_eq_true hshort]; rfl)]
      dsimp only
      rw [hgrown]
      cases sniffedContentType with
      | some mime =>
        rw [if_neg (by rw [Option.isSome_some]; exact Bool.false_ne_true)]
        exact ⟨fun h => ⟨nofun, (Except.ok.inj h).symm⟩, fun h => congrArg _ h.2.symm⟩
      | none =>
        by_cases hempty : (arrived ++ chunk).take sniffLimit = []
        · rw [hempty, if_neg (by simp), if_neg (by simp)]
          exact ⟨fun h => ⟨fun _ h => absurd rfl h, (Except.ok.inj h).symm⟩, fun h => congrArg _ h.2.symm⟩
        · rw [if_pos (by simp [hempty]), if_pos ⟨hmore, hempty⟩, Option.none_or]
          cases hmime : host.mime ((arrived ++ chunk).take sniffLimit) with
          | none => exact ⟨fun h => ⟨fun _ h => absurd rfl h, (Except.ok.inj h).symm⟩, fun h => congrArg _ h.2.symm⟩
          | some mime =>
            dsimp only
            rw [Step.except_bind_ok]
            constructor
            · rintro ⟨_, hvalid, hstate⟩
              exact ⟨fun _ _ => validateSniff_ok_iff.mp hvalid, (Except.ok.inj hstate).symm⟩
            · rintro ⟨hadmits, rfl⟩
              exact ⟨(), validateSniff_ok_iff.mpr (hadmits rfl nofun), rfl⟩
    · rw [if_neg (by
          rw [List.length_take_of_le (not_lt.mp hmore), hsniff, Bool.true_and, decide_eq_true_eq]
          exact lt_irrefl _), if_neg fun h => hmore h.1, Option.or_none,
        List.take_append_of_le_length (not_lt.mp hmore)]
      refine ⟨fun h => ⟨fun hnone hsome => absurd hnone hsome, (Except.ok.inj h).symm⟩, fun h => congrArg _ h.2.symm⟩
  · rw [if_neg hsniff, if_neg hsniff, if_neg hsniff, if_neg (by simp [hsniff])]
    exact ⟨fun h => ⟨fun hnone hsome => absurd hnone hsome, (Except.ok.inj h).symm⟩, fun h => congrArg _ h.2.symm⟩

/-- A chunk is read as long as there is not too much, and the type is accepted. -/
theorem readFileChunk_ok_iff {state' : Reading} {sniffed : Option String} :
    readFileChunk host name rule conf (readingAt rule conf before arrived sniffed) chunk = .ok state' ↔
      ¬Exceeds rule conf before (arrived ++ chunk) ∧
        Admits rule sniffed (nextType host rule arrived sniffed [chunk]) ∧
        state' = readingAt rule conf before (arrived ++ chunk) (nextType host rule arrived sniffed [chunk]) := by
  have hlength : (readingAt rule conf before arrived sniffed).size + chunk.length = (arrived ++ chunk).length :=
    List.length_append.symm
  have htotal : saturatingAdd (readingAt rule conf before arrived sniffed).requestBytes chunk.length =
      saturatingAdd before (arrived ++ chunk).length := by
    rw [List.length_append]
    exact saturatingAdd_add _ _ _
  have hsniff := fun (total size : ℕ) (state' : Reading) => @sniffChunk_ok_iff host name rule arrived chunk
    { readingAt rule conf before arrived sniffed with requestBytes := total, size } state' sniffed rfl rfl rfl
  rw [readFileChunk, Step.except_bind_ok, hlength]
  simp only [addBytes_ok_iff, htotal, Exceeds, not_or]
  constructor
  · rintro ⟨total, ⟨hle, rfl⟩, hrun⟩
    obtain ⟨hsize, hrun⟩ := Step.except_check_ok.mp hrun
    obtain ⟨sniffedState, hsniffed, hstate⟩ := Step.except_bind_ok.mp hrun
    obtain ⟨hadmits, rfl⟩ := (hsniff _ _ _).mp hsniffed
    obtain rfl := Except.ok.inj hstate
    exact ⟨⟨hsize, not_lt.mpr hle⟩, hadmits, storeChunk_readingAt rfl rfl rfl⟩
  · rintro ⟨⟨hsize, hle⟩, hadmits, rfl⟩
    refine ⟨_, ⟨not_lt.mp hle, rfl⟩, Step.except_check_ok.mpr ⟨hsize, ?_⟩⟩
    refine Step.except_bind_ok.mpr ⟨_, (hsniff _ _ _).mpr ⟨hadmits, rfl⟩, congrArg _ ?_⟩
    exact storeChunk_readingAt rfl rfl rfl

/-- Chunks are read one after the other as long as they are not too much in all, and the type is accepted. -/
theorem readFileChunks_ok_iff {chunks : List Bytes} {state' : Reading} {sniffed : Option String} :
    chunks.foldlM (readFileChunk host name rule conf) (readingAt rule conf before arrived sniffed) = .ok state' ↔
      (chunks = [] ∨ ¬Exceeds rule conf before (arrived ++ chunks.flatten)) ∧
        Admits rule sniffed (nextType host rule arrived sniffed chunks) ∧
        state' = readingAt rule conf before (arrived ++ chunks.flatten) (nextType host rule arrived sniffed chunks) := by
  induction chunks generalizing arrived sniffed with
  | nil =>
    have hnone : nextType host rule arrived sniffed [] = sniffed := by
      rw [nextType, firstType, Option.or_none, ite_self]
    rw [hnone, List.flatten_nil, List.append_nil]
    exact ⟨fun h => ⟨.inl rfl, fun hnone hsome => absurd hnone hsome, (Except.ok.inj h).symm⟩,
      fun h => congrArg _ h.2.2.symm⟩
  | cons chunk chunks ih =>
    rw [List.foldlM_cons, List.flatten_cons, ← List.append_assoc, nextType_cons, Step.except_bind_ok]
    simp only [readFileChunk_ok_iff]
    have hkept : ∀ {mime}, nextType host rule arrived sniffed [chunk] = some mime →
        nextType host rule (arrived ++ chunk) (nextType host rule arrived sniffed [chunk]) chunks =
          nextType host rule arrived sniffed [chunk] := by
      intro mime hfirst
      rw [hfirst, nextType_some]
    constructor
    · rintro ⟨between, ⟨hfits, hadmits, rfl⟩, hrun⟩
      obtain ⟨hall, hadmits', rfl⟩ := ih.mp hrun
      refine ⟨.inr ?_, fun hnone hsome => ?_, rfl⟩
      · rcases hall with rfl | hall
        · rw [List.flatten_nil, List.append_nil]
          exact hfits
        · exact hall
      · cases hfirst : nextType host rule arrived sniffed [chunk] with
        | none =>
          rw [hfirst] at hadmits' hsome
          exact hadmits' rfl hsome
        | some mime =>
          rw [← hfirst, hkept hfirst]
          exact hadmits hnone (hfirst ▸ nofun)
    · rintro ⟨hall, hadmits, rfl⟩
      have hfits := hall.resolve_left (List.cons_ne_nil _ _)
      refine ⟨_, ⟨fun h => hfits (h.append _), fun hnone hsome => ?_, rfl⟩,
        ih.mpr ⟨.inr hfits, fun hnone hsome => hadmits ?_ hsome, rfl⟩⟩
      · obtain ⟨mime, hfirst⟩ := Option.ne_none_iff_exists'.mp hsome
        have hall := hadmits hnone
        rw [hkept hfirst] at hall
        exact hall hsome
      · cases sniffed with
        | none => rfl
        | some mime =>
          rw [nextType_some] at hnone
          exact nomatch hnone

end

/-! ### Files -/

/-- The type that a file is read with. -/
def detectedType (host : Host) (rule : FileRule) (chunks : List Bytes) : Option String :=
  if rule.sniff.isSome then (firstType host [] chunks).or (wholeType host chunks.flatten) else none

/-- The file with some content. -/
def fileOf (host : Host) (name : String) (conf : UploadConf) (field : Field) (content : Bytes)
    (sniffed : Option String) : UploadedFile :=
  ⟨name, field.fileName, field.contentType, sniffed, content.length,
    if conf.memoryThresholdBytes < content.length then .temp host.tempPath content else .memory content⟩

section

variable {host : Host} {name : String} {rule : FileRule} {conf : UploadConf} {before : ℕ}

theorem sniffs_of_isNone (h : ¬rule.sniff.isSome = true) (sniffed : Option String) : rule.sniffs sniffed = true := by
  rw [FileRule.sniffs, Option.not_isSome_iff_eq_none.mp h]

theorem saturatingAdd_zero (hbefore : before ≤ conf.maxRequestBytes) : saturatingAdd before 0 = before := by
  have hfits := conf.fits
  rw [saturatingAdd]
  omega

theorem finishSniff_ok_iff {content : Bytes} {sniffed sniffed' : Option String} :
    finishSniff host name rule (readingAt rule conf before content sniffed) = .ok sniffed' ↔
      (rule.sniff.isSome → sniffed = none → rule.sniffs (wholeType host content) = true) ∧
        sniffed' = if rule.sniff.isSome then sniffed.or (wholeType host content) else sniffed := by
  have hwhole : rule.sniff.isSome = true →
      host.mime (readingAt rule conf before content sniffed).sniffPrefix = wholeType host content := by
    intro hsniff
    rw [readingAt, wholeType]
    dsimp only
    rw [if_pos hsniff]
  rw [finishSniff]
  by_cases hsniff : rule.sniff.isSome = true
  · rw [hwhole hsniff, if_pos hsniff]
    cases sniffed with
    | some mime =>
      rw [if_neg (by rw [hsniff]; exact Bool.false_ne_true)]
      exact ⟨fun h => ⟨fun _ => nofun, (Except.ok.inj h).symm⟩, fun h => congrArg _ h.2.symm⟩
    | none =>
      rw [if_pos (by rw [hsniff]; rfl), Step.except_bind_ok, Option.none_or]
      constructor
      · rintro ⟨_, hvalid, heq⟩
        exact ⟨fun _ _ => validateSniff_ok_iff.mp hvalid, (Except.ok.inj heq).symm⟩
      · rintro ⟨hsniffs, rfl⟩
        exact ⟨(), validateSniff_ok_iff.mpr (hsniffs hsniff rfl), rfl⟩
  · rw [if_neg hsniff, if_neg (by simp [hsniff])]
    exact ⟨fun h => ⟨fun h => absurd h hsniff, (Except.ok.inj h).symm⟩, fun h => congrArg _ h.2.symm⟩

theorem data_readingAt (content : Bytes) (sniffed : Option String) :
    (readingAt rule conf before content sniffed).data host =
      if conf.memoryThresholdBytes < content.length then .temp host.tempPath content else .memory content := by
  rw [Reading.data, readingAt]
  dsimp only
  by_cases h : conf.memoryThresholdBytes < content.length
  · rw [if_pos h, if_pos h, if_pos h]
  · rw [if_neg h, if_neg h, if_neg h]

theorem detectedType_eq (chunks : List Bytes) : detectedType host rule chunks =
    if rule.sniff.isSome then (nextType host rule [] none chunks).or (wholeType host chunks.flatten)
    else nextType host rule [] none chunks := by
  rw [detectedType, nextType]
  split
  next => rw [Option.none_or]
  next => rfl

/-- What is accepted while the file arrives, or at its end, is the type that it is read with. -/
theorem sniffs_detectedType_iff (chunks : List Bytes) : rule.sniffs (detectedType host rule chunks) = true ↔
    Admits rule none (nextType host rule [] none chunks) ∧ (rule.sniff.isSome →
      nextType host rule [] none chunks = none → rule.sniffs (wholeType host chunks.flatten) = true) := by
  rw [Admits, nextType, detectedType]
  by_cases hsniff : rule.sniff.isSome = true
  · rw [if_pos hsniff, if_pos hsniff, Option.none_or]
    cases firstType host [] chunks with
    | none => exact ⟨fun h => ⟨fun _ hne => absurd rfl hne, fun _ _ => h⟩, fun h => h.2 hsniff rfl⟩
    | some mime => exact ⟨fun h => ⟨fun _ _ => h, fun _ => nofun⟩, fun h => h.1 rfl nofun⟩
  · rw [if_neg hsniff, if_neg hsniff]
    exact iff_of_true (sniffs_of_isNone hsniff _) ⟨fun _ hne => absurd rfl hne, fun h => absurd h hsniff⟩

/-- A file is read exactly when its headers are right, it is not too much, and its type is accepted. -/
theorem readFileField_ok_iff {field : Field} {file : UploadedFile} {total : ℕ} (hbefore : before ≤ conf.maxRequestBytes) :
    readFileField host name rule conf before field = .ok (file, total) ↔
      rule.validateHeaders name field.fileName field.contentType = .ok () ∧
        ¬Exceeds rule conf before field.chunks.flatten ∧ rule.sniffs (detectedType host rule field.chunks) = true ∧
        file = fileOf host name conf field field.chunks.flatten (detectedType host rule field.chunks) ∧
        total = saturatingAdd before field.chunks.flatten.length := by
  have hstart : (⟨before, 0, [], none, [], false, none⟩ : Reading) = readingAt rule conf before [] none := by
    rw [readingAt, List.length_nil, saturatingAdd_zero hbefore, if_neg (Nat.not_lt_zero _), if_neg (Nat.not_lt_zero _),
      List.take_nil, ite_self]
    rfl
  have hexceeds : field.chunks = [] ∨ ¬Exceeds rule conf before field.chunks.flatten ↔
      ¬Exceeds rule conf before field.chunks.flatten := by
    refine or_iff_right_of_imp fun hnil => ?_
    rw [hnil, List.flatten_nil, Exceeds, List.length_nil, saturatingAdd_zero hbefore]
    exact not_or.mpr ⟨Nat.not_lt_zero _, not_lt.mpr hbefore⟩
  rw [readFileField, hstart]
  simp only [Step.except_bind_ok, readFileChunks_ok_iff, List.nil_append, hexceeds, sniffs_detectedType_iff]
  constructor
  · rintro ⟨_, hheaders, _, ⟨hfits, hadmits, rfl⟩, sniffed, hsniffed, hfile⟩
    obtain ⟨hsniffs, hsniffed⟩ := finishSniff_ok_iff.mp hsniffed
    rw [← detectedType_eq] at hsniffed
    rw [data_readingAt, hsniffed] at hfile
    obtain ⟨rfl, rfl⟩ := Prod.mk.inj (Except.ok.inj hfile)
    exact ⟨hheaders, hfits, ⟨hadmits, hsniffs⟩, rfl, rfl⟩
  · rintro ⟨hheaders, hfits, ⟨hadmits, hsniffs⟩, rfl, rfl⟩
    refine ⟨(), hheaders, _, ⟨hfits, hadmits, rfl⟩, detectedType host rule field.chunks,
      finishSniff_ok_iff.mpr ⟨hsniffs, detectedType_eq _⟩, ?_⟩
    rw [data_readingAt]
    rfl

/-- Every part of a file that has a type has one that the rule takes for the type of the whole. -/
def SettledEarly (host : Host) (rule : FileRule) (content : Bytes) : Prop :=
  ∀ n, 0 < n → n ≤ content.length → n ≤ sniffLimit → ∀ mime, host.mime (content.take n) = some mime →
    rule.verdict (some mime) = rule.verdict (wholeType host content)

theorem verdict_eq_some_iff {sniffed : Option String} {mime : String} :
    rule.verdict sniffed = some mime ↔ rule.sniffs sniffed = true ∧ sniffed = some mime := by
  rw [FileRule.verdict]
  split
  next h => exact ⟨fun heq => ⟨h, heq⟩, And.right⟩
  next h => exact ⟨nofun, fun heq => absurd heq.1 h⟩

theorem sniffs_iff_verdict {sniffed : Option String} (hsniff : rule.sniff.isSome = true) :
    rule.sniffs sniffed = true ↔ ∃ mime, rule.verdict sniffed = some mime := by
  constructor
  · intro h
    cases sniffed with
    | some mime => exact ⟨mime, verdict_eq_some_iff.mpr ⟨h, rfl⟩⟩
    | none =>
      rw [FileRule.sniffs] at h
      obtain ⟨sniff, hrule⟩ := Option.isSome_iff_exists.mp hsniff
      rw [hrule] at h
      cases sniff <;> exact nomatch h
  · rintro ⟨mime, h⟩
    exact (verdict_eq_some_iff.mp h).1

/-- What a file is read as, when its type is what the verdict says. -/
theorem readFileField_of_verdict {field field' : Field} {file : UploadedFile} {total : ℕ}
    (hbefore : before ≤ conf.maxRequestBytes) (h : readFileField host name rule conf before field = .ok (file, total))
    (hfileName : field.fileName = field'.fileName) (hcontentType : field.contentType = field'.contentType)
    (hcontent : field.chunks.flatten = field'.chunks.flatten)
    (hverdict : rule.sniff.isSome → rule.verdict (detectedType host rule field.chunks) =
      rule.verdict (detectedType host rule field'.chunks)) :
    readFileField host name rule conf before field' = .ok (file, total) := by
  obtain ⟨hheaders, hfits, hsniffs, rfl, rfl⟩ := (readFileField_ok_iff hbefore).mp h
  have hdetected : rule.sniffs (detectedType host rule field'.chunks) = true ∧
      detectedType host rule field'.chunks = detectedType host rule field.chunks := by
    by_cases hsniff : rule.sniff.isSome = true
    · obtain ⟨mime, hmime⟩ := (sniffs_iff_verdict hsniff).mp hsniffs
      obtain ⟨hsniffs', hmime'⟩ := verdict_eq_some_iff.mp ((hverdict hsniff).symm.trans hmime)
      exact ⟨hsniffs', hmime'.trans (verdict_eq_some_iff.mp hmime).2.symm⟩
    · refine ⟨sniffs_of_isNone hsniff _, ?_⟩
      rw [detectedType, detectedType, if_neg hsniff, if_neg hsniff]
  refine (readFileField_ok_iff hbefore).mpr
    ⟨hfileName ▸ hcontentType ▸ hheaders, hcontent ▸ hfits, hdetected.1, ?_, by rw [hcontent]⟩
  rw [hdetected.2, fileOf, fileOf, hfileName, hcontentType, hcontent]

theorem verdict_detectedType {content : Bytes} (h : SettledEarly host rule content) {chunks : List Bytes}
    (hchunks : chunks.flatten = content) (hsniff : rule.sniff.isSome = true) :
    rule.verdict (detectedType host rule chunks) = rule.verdict (wholeType host content) := by
  rw [detectedType, if_pos hsniff, hchunks]
  cases hfirst : firstType host [] chunks with
  | none => rfl
  | some mime =>
    obtain ⟨n, hpos, hlength, hlimit, hmime⟩ := firstType_prefix hfirst
    rw [List.nil_append, hchunks] at hlength hmime
    exact h n hpos hlength hlimit mime hmime

/-- What is read off any chunks is the whole content, within the limits. -/
theorem readFileField_limits {field : Field} {file : UploadedFile} {total : ℕ} (hbefore : before ≤ conf.maxRequestBytes)
    (h : readFileField host name rule conf before field = .ok (file, total)) :
    file.size = field.chunks.flatten.length ∧ file.data.bytes = field.chunks.flatten ∧
      field.chunks.flatten.length ≤ rule.maxSizeOr conf.maxFileBytes ∧ total ≤ conf.maxRequestBytes ∧
      (total = before + field.chunks.flatten.length ∨ conf.maxRequestBytes = 2 ^ 64 - 1) := by
  obtain ⟨-, hfits, -, rfl, rfl⟩ := (readFileField_ok_iff hbefore).mp h
  obtain ⟨hsize, htotal⟩ := not_or.mp hfits
  have hmax := conf.fits
  refine ⟨rfl, ?_, not_lt.mp hsize, not_lt.mp htotal, ?_⟩
  · rw [fileOf]
    dsimp only
    split <;> rfl
  · rw [saturatingAdd] at htotal ⊢
    omega

/-- Chunks of one content that are read as the same give types with one verdict. -/
theorem verdict_of_read {fileName contentType : Option String} {chunks chunks' : List Bytes} {mime : String}
    (hbefore : before ≤ conf.maxRequestBytes)
    (hsniff : rule.sniff.isSome = true) (hheaders : rule.validateHeaders name fileName contentType = .ok ())
    (hfits : ¬Exceeds rule conf before chunks.flatten)
    (hread : ∀ read, readFileField host name rule conf before ⟨some name, fileName, contentType, chunks⟩ = .ok read →
      readFileField host name rule conf before ⟨some name, fileName, contentType, chunks'⟩ = .ok read)
    (h : rule.verdict (detectedType host rule chunks) = some mime) :
    rule.verdict (detectedType host rule chunks') = some mime := by
  have hsniffs := (sniffs_iff_verdict hsniff).mpr ⟨mime, h⟩
  have hother := hread _ ((readFileField_ok_iff hbefore).mpr ⟨hheaders, hfits, hsniffs, rfl, rfl⟩)
  obtain ⟨-, -, -, hfile, -⟩ := (readFileField_ok_iff hbefore).mp hother
  have htype := congrArg UploadedFile.sniffedContentType hfile
  dsimp only [fileOf] at htype
  rw [← htype]
  exact h

/-- A file is read as the same whatever chunks it arrives in exactly when its type is settled early, is not asked
    for, or the file is refused anyway; and what is read never goes beyond the limits. -/
theorem reading_ignores_chunks_iff (host : Host) (name : String) (rule : FileRule) (conf : UploadConf) (before : ℕ)
    (fileName contentType : Option String) (content : Bytes) (hbefore : before ≤ conf.maxRequestBytes) :
    ((∀ chunks chunks' : List Bytes, chunks.flatten = content → chunks'.flatten = content →
        (readFileField host name rule conf before ⟨some name, fileName, contentType, chunks⟩).toOption =
          (readFileField host name rule conf before ⟨some name, fileName, contentType, chunks'⟩).toOption) ∧
      ∀ (chunks : List Bytes) (file : UploadedFile) (total : ℕ), chunks.flatten = content →
        readFileField host name rule conf before ⟨some name, fileName, contentType, chunks⟩ = .ok (file, total) →
          file.size = content.length ∧ file.data.bytes = content ∧
          content.length ≤ rule.maxSizeOr conf.maxFileBytes ∧ total ≤ conf.maxRequestBytes ∧
          (total = before + content.length ∨ conf.maxRequestBytes = 2 ^ 64 - 1)) ↔
      rule.sniff = none ∨ rule.validateHeaders name fileName contentType ≠ .ok () ∨
        Exceeds rule conf before content ∨ SettledEarly host rule content := by
  constructor
  · rintro ⟨hsame, -⟩
    by_contra hnone
    obtain ⟨hsniff, hheaders, hfits, hsettled⟩ : rule.sniff ≠ none ∧
        rule.validateHeaders name fileName contentType = .ok () ∧ ¬Exceeds rule conf before content ∧
        ¬SettledEarly host rule content := by
      rw [not_or, not_or, not_or, not_not] at hnone
      exact hnone
    rw [← Option.isSome_iff_ne_none] at hsniff
    refine hsettled fun n hpos hlength hlimit mime hmime => ?_
    -- The bytes that have the type arrive first, or all at once.
    have hparts : [content.take n, content.drop n].flatten = content := by
      rw [List.flatten_cons, List.flatten_singleton, List.take_append_drop]
    have hwhole : [content].flatten = content := List.flatten_singleton
    have htaken : (content.take n).take sniffLimit = content.take n := by
      rw [List.take_take, min_eq_right hlimit]
    have hne : content.take n ≠ [] := by
      rw [Ne, List.take_eq_nil_iff]
      rintro (rfl | rfl)
      · exact absurd hpos (lt_irrefl _)
      · exact absurd hpos (not_lt.mpr hlength)
    have hfirst : detectedType host rule [content.take n, content.drop n] = some mime := by
      rw [detectedType, if_pos hsniff, firstType, List.nil_append, htaken, if_pos ⟨by decide, hne⟩, hmime]
      rfl
    have hlast : detectedType host rule [content] = wholeType host content := by
      rw [detectedType, if_pos hsniff, firstType, firstType, Option.or_none, List.nil_append, hwhole]
      split
      next => exact Option.or_self
      next => rfl
    have hread : ∀ chunks chunks' : List Bytes, chunks.flatten = content → chunks'.flatten = content → ∀ mime,
        rule.verdict (detectedType host rule chunks) = some mime →
        rule.verdict (detectedType host rule chunks') = some mime := by
      intro chunks chunks' hchunks hchunks' mime
      refine verdict_of_read hbefore hsniff hheaders (hchunks ▸ hfits) fun read hok => ?_
      rw [← Step.except_toOption_eq_some] at hok ⊢
      exact (hsame chunks chunks' hchunks hchunks').symm.trans hok
    rw [← hfirst, ← hlast]
    exact Option.ext fun mime => ⟨hread _ _ hparts hwhole mime, hread _ _ hwhole hparts mime⟩
  · intro hcond
    refine ⟨fun chunks chunks' hchunks hchunks' => ?_, fun chunks file total hchunks h => ?_⟩
    · have hread : ∀ chunks chunks' : List Bytes, chunks.flatten = content → chunks'.flatten = content → ∀ read,
          readFileField host name rule conf before ⟨some name, fileName, contentType, chunks⟩ = .ok read →
          readFileField host name rule conf before ⟨some name, fileName, contentType, chunks'⟩ = .ok read := by
        rintro chunks chunks' hchunks hchunks' ⟨file, total⟩ hok
        refine readFileField_of_verdict hbefore hok rfl rfl (hchunks.trans hchunks'.symm) fun hsniff => ?_
        obtain ⟨hheaders, hfits, -, -, -⟩ := (readFileField_ok_iff hbefore).mp hok
        rcases hcond with hnone | hrefused | hexceeds | hsettled
        · rw [hnone] at hsniff
          exact nomatch hsniff
        · exact absurd hheaders hrefused
        · exact absurd (hchunks ▸ hexceeds) hfits
        · rw [verdict_detectedType hsettled hchunks hsniff, verdict_detectedType hsettled hchunks' hsniff]
      refine Option.ext fun read => ?_
      rw [Step.except_toOption_eq_some, Step.except_toOption_eq_some]
      exact ⟨hread _ _ hchunks hchunks' read, hread _ _ hchunks' hchunks read⟩
    · have hlimits := readFileField_limits hbefore h
      rw [hchunks] at hlimits
      exact hlimits

end

/-! ### A document that begins like an archive -/

def documentType : String := "application/vnd.openxmlformats-officedocument.wordprocessingml.document"

/-- Archives, and the documents among them, are told by their first bytes. -/
def officeHost : Host where
  infer bytes :=
    if bytes.take 4 ≠ [0x50, 0x4B, 0x03, 0x04] then none
    else if (bytes.drop 30).take 5 = [0x77, 0x6F, 0x72, 0x64, 0x2F] then some documentType
    else some "application/zip"
  tempPath := "/tmp/vyuh-upload"
  utf8Error _ := "invalid utf-8 sequence"

def documentRule : FileRule := { FileRule.new with sniff := some (.mime [documentType]) }

def officeConf : UploadConf := ⟨1000, 1000, 1, 1, 16, by decide⟩

def document : Bytes := [0x50, 0x4B, 0x03, 0x04] ++ List.replicate 26 0 ++ [0x77, 0x6F, 0x72, 0x64, 0x2F]

/-- An archive that is no document, and a rule that takes archives. -/
def archive : Bytes := [0x50, 0x4B, 0x03, 0x04, 0x05, 0x06]

def archiveRule : FileRule := { FileRule.new with sniff := some (.mime ["application/zip"]) }

def archiveFile : UploadedFile := ⟨"file", none, none, some "application/zip", 6, .memory archive⟩

/-- Cut inside its signature, or come byte by byte, it is read as the same file. -/
theorem archive_ignores_chunks :
    (readFileField officeHost "file" archiveRule officeConf 0
        ⟨some "file", none, none, [archive.take 2, archive.drop 2]⟩).toOption = some (archiveFile, 6) ∧
      (readFileField officeHost "file" archiveRule officeConf 0
        ⟨some "file", none, none, archive.map fun byte => [byte]⟩).toOption = some (archiveFile, 6) := by
  have hsettled : SettledEarly officeHost archiveRule archive := by
    intro n hpos hlength hlimit mime hmime
    have hlength : n ≤ 6 := hlength
    have htypes : ∀ n ∈ List.range 7, officeHost.mime (archive.take n) = none ∨
        officeHost.mime (archive.take n) = some "application/zip" := by decide +kernel
    rcases htypes n (List.mem_range.mpr (by omega)) with hnone | hzip
    · exact nomatch hnone.symm.trans hmime
    · obtain rfl := Option.some.inj (hzip.symm.trans hmime)
      decide +kernel
  have hone : (readFileField officeHost "file" archiveRule officeConf 0
      ⟨some "file", none, none, [archive]⟩).toOption = some (archiveFile, 6) := by decide +kernel
  have hsame := ((reading_ignores_chunks_iff officeHost "file" archiveRule officeConf 0 none none archive
    (Nat.zero_le _)).mpr (.inr (.inr (.inr hsettled)))).1
  exact ⟨(hsame _ [archive] rfl rfl).trans hone, (hsame _ [archive] rfl rfl).trans hone⟩

theorem document_depends_on_chunks :
    (readFileField officeHost "file" documentRule officeConf 0 ⟨some "file", none, none, [document]⟩).toOption =
      some (⟨"file", none, none, some documentType, 35, .temp "/tmp/vyuh-upload" document⟩, 35) ∧
    [document.take 4, document.drop 4].flatten = document ∧
    readFileField officeHost "file" documentRule officeConf 0
        ⟨some "file", none, none, [document.take 4, document.drop 4]⟩ =
      .error (.unsupported "file" "uploaded file content was detected as 'application/zip'") := by
  decide +kernel

end Vyuh.Routes
