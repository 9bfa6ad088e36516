import Mathlib
import Vyuh.Console.Logs.Entry
import Vyuh.Lib.Coding
import Vyuh.Lib.Step

/-! The displayed entry of a log line (`console/logs.rs`): what is shown of its texts, and when cutting one
    of them off panics. The cut of the mailed samples (`logging/mail_admins.rs`) steps back to a character's
    boundary first. -/

namespace Vyuh.Console.Logs

open Lib

/-- The bytes of a text. -/
def bytesOf (text : List Char) : ℕ := (text.map Char.utf8Size).sum

/-! ### One text -/

/-- A text is shown in full, or its front part up to the limit and a mark. -/
def Shows (limit : ℕ) (text shown : String) : Prop :=
  (text.utf8ByteSize ≤ limit ∧ shown = text) ∨
    (limit < text.utf8ByteSize ∧ ∃ kept, kept <+: text.toList ∧ bytesOf kept ≤ limit ∧
      shown = String.ofList kept ++ "…")

/-- No character stands across the limit of a text that is longer. -/
def Cuts (limit : ℕ) (text : String) : Prop :=
  limit < text.utf8ByteSize → ∃ kept, kept <+: text.toList ∧ bytesOf kept = limit

theorem bytesOf_cons (c : Char) (text : List Char) : bytesOf (c :: text) = c.utf8Size + bytesOf text := by
  rw [bytesOf, List.map_cons, List.sum_cons, bytesOf]

theorem utf8ByteSize_eq (text : String) : text.utf8ByteSize = bytesOf text.toList := by
  rw [bytesOf, ← utf8ByteSize_ofList, String.ofList_toList]

/-- What is kept is a front part, and reaches the limit unless the text ends before. -/
theorem truncateChars_eq_some {limit : ℕ} {text kept : List Char} (h : truncateChars limit text = some kept) :
    kept <+: text ∧ bytesOf kept ≤ limit ∧ (limit < bytesOf text → bytesOf kept = limit) := by
  fun_induction truncateChars limit text generalizing kept with
  | case1 text =>
    cases h
    exact ⟨List.nil_prefix, Nat.le_refl _, fun _ => rfl⟩
  | case2 limit hpos =>
    cases h
    exact ⟨List.nil_prefix, Nat.zero_le _, fun hlt => absurd hlt (Nat.not_lt_zero _)⟩
  | case3 limit c rest hfits ih =>
    obtain ⟨tail, htail, rfl⟩ := Option.map_eq_some_iff.mp h
    obtain ⟨hstarts, hle, hreach⟩ := ih htail
    rw [bytesOf_cons, bytesOf_cons]
    exact ⟨List.cons_prefix_cons.mpr ⟨rfl, hstarts⟩, by omega, fun hlt => by have := hreach (by omega); omega⟩
  | case4 limit c rest hwide => exact nomatch h

/-- A text that has a character's boundary at the limit is cut there. -/
theorem truncateChars_of_prefix {kept rest : List Char} :
    truncateChars (bytesOf kept) (kept ++ rest) = some kept := by
  induction kept with
  | nil => rw [bytesOf, List.map_nil, List.sum_nil, truncateChars]
  | cons c kept ih =>
    have hpos := c.utf8Size_pos
    obtain ⟨n, hn⟩ := Nat.exists_eq_succ_of_ne_zero (show bytesOf (c :: kept) ≠ 0 by rw [bytesOf_cons]; omega)
    have hrest : n + 1 - c.utf8Size = bytesOf kept := by rw [bytesOf_cons] at hn; omega
    rw [hn, List.cons_append, truncateChars, if_pos (by rw [bytesOf_cons] at hn; omega), hrest, ih]
    rfl

theorem truncate_shows {text shown : String} {limit : ℕ} (h : truncate text limit = .ok shown) :
    Shows limit text shown := by
  rw [truncate] at h
  split at h
  next hlong =>
    cases hkept : truncateChars limit text.toList with
    | none =>
      rw [hkept] at h
      exact nomatch h
    | some kept =>
      rw [hkept] at h
      cases h
      obtain ⟨hstarts, hle, -⟩ := truncateChars_eq_some hkept
      exact .inr ⟨hlong, kept, hstarts, hle, rfl⟩
  next hshort =>
    cases h
    exact .inl ⟨Nat.not_lt.mp hshort, rfl⟩

theorem truncate_ok_iff {text : String} {limit : ℕ} :
    (∃ shown, truncate text limit = .ok shown) ↔ Cuts limit text := by
  rw [truncate, Cuts]
  split
  next hlong =>
    constructor
    · rintro ⟨shown, h⟩ -
      cases hkept : truncateChars limit text.toList with
      | none =>
        rw [hkept] at h
        exact nomatch h
      | some kept =>
        obtain ⟨hstarts, -, hreach⟩ := truncateChars_eq_some hkept
        exact ⟨kept, hstarts, hreach (by rwa [← utf8ByteSize_eq])⟩
    · intro h
      obtain ⟨kept, ⟨rest, hrest⟩, rfl⟩ := h hlong
      rw [← hrest, truncateChars_of_prefix]
      exact ⟨_, rfl⟩
  next hshort => exact ⟨fun _ hlt => absurd hlt hshort, fun _ => ⟨text, rfl⟩⟩

/-! ### Fields -/

/-- The texts of the scalars among the entries of an object. -/
def scalars (entries : List (String × Json)) : List (String × String) :=
  entries.filterMap fun (key, value) => (scalarText value).map (key, ·)

/-- The scalars of an event or a span that are shown. -/
def shownScalars (value : Json) : List (String × String) :=
  ((value.get "fields").bind Json.asObject).elim [] fun entries => (scalars entries).take fieldLimit

/-- Each of the scalars is cut between characters. -/
def AllCut (fields : List (String × String)) : Prop := ∀ field ∈ fields, Cuts (valueLimitOf field.1) field.2

/-- What is shown under a key is one of the scalars. -/
def AllShown (fields : List (String × String)) (shown : BTreeMap String String) : Prop :=
  ∀ key text, (key, text) ∈ shown → ∃ original, (key, original) ∈ fields ∧ Shows (valueLimitOf key) original text

/-- One field of the result. -/
def shownField (field : String × String) : Except LogError (String × String) := do
  .ok (field.1, ← truncate field.2 (valueLimitOf field.1))

theorem takeFields_eq (count : ℕ) (entries : List (String × Json)) :
    takeFields count entries = ((scalars entries).take count).mapM shownField := by
  induction entries generalizing count with
  | nil => cases count <;> rfl
  | cons entry entries ih =>
    obtain ⟨key, value⟩ := entry
    cases count with
    | zero => rfl
    | succ count =>
      rw [takeFields, scalar]
      cases htext : scalarText value with
      | none =>
        have hscalars : scalars ((key, value) :: entries) = scalars entries := by
          rw [scalars, List.filterMap_cons_none (by dsimp only; rw [htext]; rfl)]
          rfl
        rw [hscalars]
        exact ih (count + 1)
      | some text =>
        have hscalars : scalars ((key, value) :: entries) = (key, text) :: scalars entries := by
          rw [scalars, List.filterMap_cons_some (by dsimp only; rw [htext]; rfl)]
          rfl
        rw [hscalars, List.take_succ_cons, List.mapM_cons, shownField, ← ih count]
        dsimp only
        cases truncate text (valueLimitOf key) <;> rfl

theorem mapM_shownField_ok {fields : List (String × String)} :
    (∃ shown, fields.mapM shownField = .ok shown) ↔ AllCut fields := by
  induction fields with
  | nil => exact ⟨fun _ _ hmem => (nomatch hmem), fun _ => ⟨[], rfl⟩⟩
  | cons field fields ih =>
    rw [AllCut, List.forall_mem_cons, List.mapM_cons, ← truncate_ok_iff]
    constructor
    · rintro ⟨shown, h⟩
      obtain ⟨first, hfirst, hrest⟩ := Step.except_bind_ok.mp h
      obtain ⟨text, htext, -⟩ := Step.except_bind_ok.mp hfirst
      obtain ⟨others, hothers, -⟩ := Step.except_bind_ok.mp hrest
      exact ⟨⟨text, htext⟩, ih.mp ⟨others, hothers⟩⟩
    · rintro ⟨⟨text, htext⟩, hfields⟩
      obtain ⟨others, hothers⟩ := ih.mpr hfields
      exact ⟨_, Step.except_bind_ok.mpr ⟨_, Step.except_bind_ok.mpr ⟨text, htext, rfl⟩,
        Step.except_bind_ok.mpr ⟨others, hothers, rfl⟩⟩⟩

theorem mapM_shownField_shown {fields shown : List (String × String)} (h : fields.mapM shownField = .ok shown) :
    ∀ field ∈ shown, ∃ original, (field.1, original) ∈ fields ∧ Shows (valueLimitOf field.1) original field.2 := by
  induction fields generalizing shown with
  | nil =>
    cases h
    exact fun _ hmem => nomatch hmem
  | cons field fields ih =>
    rw [List.mapM_cons] at h
    obtain ⟨first, hfirst, hrest⟩ := Step.except_bind_ok.mp h
    obtain ⟨text, htext, hpair⟩ := Step.except_bind_ok.mp hfirst
    obtain ⟨others, hothers, hshown⟩ := Step.except_bind_ok.mp hrest
    cases hpair
    cases hshown
    refine List.forall_mem_cons.mpr ⟨⟨field.2, List.mem_cons_self, truncate_shows htext⟩, fun field' hmem => ?_⟩
    obtain ⟨original, horiginal, hshows⟩ := ih hothers field' hmem
    exact ⟨original, List.mem_cons_of_mem _ horiginal, hshows⟩

theorem mem_foldl_insert {fields : List (String × String)} {map : BTreeMap String String}
    {entry : String × String}
    (h : entry ∈ fields.foldl (fun map (key, text) => map.insert key text) map) :
    entry ∈ map ∨ entry ∈ fields := by
  induction fields generalizing map with
  | nil => exact .inl h
  | cons field fields ih =>
    obtain hmap | hfields := ih h
    · obtain rfl | ⟨hold, -⟩ := BTreeMap.mem_insert.mp hmap
      · exact .inr List.mem_cons_self
      · exact .inl hold
    · exact .inr (List.mem_cons_of_mem _ hfields)

theorem fieldsOf_eq (value : Json) :
    fieldsOf value = (do
      .ok ((← (shownScalars value).mapM shownField).foldl (fun map (key, text) => map.insert key text) [])) := by
  rw [fieldsOf, shownScalars]
  cases (value.get "fields").bind Json.asObject with
  | none => rfl
  | some entries =>
    rw [Option.elim_some, Option.elim_some, fieldsOut, takeFields_eq]

theorem fieldsOf_ok {value : Json} :
    (∃ fields, fieldsOf value = .ok fields) ↔ AllCut (shownScalars value) := by
  rw [fieldsOf_eq, ← mapM_shownField_ok]
  constructor
  · rintro ⟨fields, h⟩
    obtain ⟨shown, hshown, -⟩ := Step.except_bind_ok.mp h
    exact ⟨shown, hshown⟩
  · rintro ⟨shown, hshown⟩
    exact ⟨_, Step.except_bind_ok.mpr ⟨shown, hshown, rfl⟩⟩

theorem fieldsOf_shown {value : Json} {fields : BTreeMap String String} (h : fieldsOf value = .ok fields) :
    AllShown (shownScalars value) fields := by
  rw [fieldsOf_eq] at h
  obtain ⟨shown, hshown, hfields⟩ := Step.except_bind_ok.mp h
  cases hfields
  intro key text hmem
  exact mapM_shownField_shown hshown (key, text) ((mem_foldl_insert hmem).resolve_left List.not_mem_nil)

/-! ### Spans -/

def spanName (span : Json) : Option String := (span.get "name").bind Json.asStr

/-- The spans of an event that are shown: the first ones, as far as they have a name. -/
def shownSpans (value : Json) : List Json :=
  ((value.get "spans").bind Json.asArray).elim [] fun spans =>
    (spans.take spanLimit).filter fun span => (spanName span).isSome

/-- The shown span of a span that has a name. -/
def SpanShown (span : Json) (shown : LogSpan) : Prop :=
  spanName span = some shown.name ∧ AllShown (shownScalars span) shown.fields

theorem spanOut_ok {span : Json} :
    (∃ shown, spanOut span = .ok shown) ↔ ((spanName span).isSome = true → AllCut (shownScalars span)) := by
  rw [spanOut, spanName, ← fieldsOf_ok]
  cases (span.get "name").bind Json.asStr with
  | none => exact ⟨fun _ h => (nomatch h), fun _ => ⟨none, rfl⟩⟩
  | some name =>
    constructor
    · rintro ⟨shown, h⟩ -
      obtain ⟨fields, hfields, -⟩ := Step.except_bind_ok.mp h
      exact ⟨fields, hfields⟩
    · intro h
      obtain ⟨fields, hfields⟩ := h rfl
      exact ⟨_, Step.except_bind_ok.mpr ⟨fields, hfields, rfl⟩⟩

theorem spanOut_shown {span : Json} {shown : LogSpan} (h : spanOut span = .ok (some shown)) :
    SpanShown span shown := by
  rw [spanOut] at h
  cases hname : (span.get "name").bind Json.asStr with
  | none =>
    rw [hname] at h
    exact nomatch h
  | some name =>
    rw [hname] at h
    obtain ⟨fields, hfields, hspan⟩ := Step.except_bind_ok.mp h
    cases hspan
    exact ⟨hname, fieldsOf_shown hfields⟩

theorem mapM_spanOut_ok {spans : List Json} :
    (∃ shown, spans.mapM spanOut = .ok shown) ↔
      ∀ span ∈ spans, (spanName span).isSome = true → AllCut (shownScalars span) := by
  induction spans with
  | nil => exact ⟨fun _ _ hmem => (nomatch hmem), fun _ => ⟨[], rfl⟩⟩
  | cons span spans ih =>
    rw [List.forall_mem_cons, List.mapM_cons, ← spanOut_ok, ← ih]
    constructor
    · rintro ⟨shown, h⟩
      obtain ⟨first, hfirst, hrest⟩ := Step.except_bind_ok.mp h
      obtain ⟨others, hothers, -⟩ := Step.except_bind_ok.mp hrest
      exact ⟨⟨first, hfirst⟩, ⟨others, hothers⟩⟩
    · rintro ⟨⟨first, hfirst⟩, ⟨others, hothers⟩⟩
      exact ⟨_, Step.except_bind_ok.mpr ⟨first, hfirst, Step.except_bind_ok.mpr ⟨others, hothers, rfl⟩⟩⟩

theorem mapM_spanOut_shown {spans : List Json} {shown : List (Option LogSpan)}
    (h : spans.mapM spanOut = .ok shown) : ∀ out, some out ∈ shown → ∃ span ∈ spans, SpanShown span out := by
  induction spans generalizing shown with
  | nil =>
    cases h
    exact fun _ hmem => nomatch hmem
  | cons span spans ih =>
    rw [List.mapM_cons] at h
    obtain ⟨first, hfirst, hrest⟩ := Step.except_bind_ok.mp h
    obtain ⟨others, hothers, hshown⟩ := Step.except_bind_ok.mp hrest
    cases hshown
    intro out hmem
    obtain rfl | hlater := List.mem_cons.mp hmem
    · exact ⟨span, List.mem_cons_self, spanOut_shown hfirst⟩
    · obtain ⟨span', hspan, hout⟩ := ih hothers out hlater
      exact ⟨span', List.mem_cons_of_mem _ hspan, hout⟩

/-! ### Entries -/

/-- Every text that is shown of an event is cut between characters. -/
def Displayable (value : Json) : Prop :=
  AllCut (shownScalars value) ∧ ∀ span ∈ shownSpans value, AllCut (shownScalars span)

/-- An entry shows texts of the event only. -/
structure Displays (value : Json) (entry : LogEntry) : Prop where
  fields : AllShown (shownScalars value) entry.fields
  message : entry.message = "" ∨ ∃ original, ("message", original) ∈ shownScalars value ∧
    Shows (valueLimitOf "message") original entry.message
  spans : ∀ shown ∈ entry.spans, ∃ span ∈ shownSpans value, SpanShown span shown

theorem spans_ok {value : Json} :
    (∃ spans, ((value.get "spans").bind Json.asArray).elim (.ok []) spansOut = .ok spans) ↔
      ∀ span ∈ shownSpans value, AllCut (shownScalars span) := by
  rw [shownSpans]
  cases (value.get "spans").bind Json.asArray with
  | none => exact ⟨fun _ _ hmem => (nomatch hmem), fun _ => ⟨[], rfl⟩⟩
  | some spans =>
    rw [Option.elim_some, Option.elim_some, spansOut]
    simp only [List.mem_filter, and_imp]
    rw [← mapM_spanOut_ok]
    constructor
    · rintro ⟨out, h⟩
      obtain ⟨shown, hshown, -⟩ := Step.except_bind_ok.mp h
      exact ⟨shown, hshown⟩
    · rintro ⟨shown, hshown⟩
      exact ⟨_, Step.except_bind_ok.mpr ⟨shown, hshown, rfl⟩⟩

theorem spans_shown {value : Json} {out : List LogSpan}
    (h : ((value.get "spans").bind Json.asArray).elim (.ok []) spansOut = .ok out) :
    ∀ shown ∈ out, ∃ span ∈ shownSpans value, SpanShown span shown := by
  rw [shownSpans]
  cases hspans : (value.get "spans").bind Json.asArray with
  | none =>
    rw [hspans] at h
    cases h
    exact fun _ hmem => nomatch hmem
  | some spans =>
    rw [hspans, Option.elim_some, spansOut] at h
    obtain ⟨outs, houts, hout⟩ := Step.except_bind_ok.mp h
    cases hout
    intro shown hmem
    obtain ⟨span, hspan, hshown⟩ := mapM_spanOut_shown houts shown (List.reduceOption_mem_iff.mp hmem)
    refine ⟨span, List.mem_filter.mpr ⟨hspan, ?_⟩, hshown⟩
    rw [hshown.1]
    rfl

theorem message_shown {value : Json} {fields : BTreeMap String String}
    (h : AllShown (shownScalars value) fields) :
    (fields.get "message").getD "" = "" ∨ ∃ original, ("message", original) ∈ shownScalars value ∧
      Shows (valueLimitOf "message") original ((fields.get "message").getD "") := by
  rw [BTreeMap.get]
  cases hfind : fields.find? fun entry => entry.1 = "message" with
  | none => exact .inl rfl
  | some entry =>
    obtain ⟨key, text⟩ := entry
    obtain rfl : key = "message" := by simpa using List.find?_some hfind
    exact .inr (h "message" text (List.mem_of_find?_eq_some hfind))

/-- An event is displayed, faithfully, exactly when all its shown texts are cut between characters. -/
theorem normalizeEntry_iff (rule timestamp level target : String) (value : Json) :
    (∃ entry, normalizeEntry rule timestamp level target value = .ok entry ∧ Displays value entry) ↔
      Displayable value := by
  rw [Displayable, ← fieldsOf_ok, ← spans_ok]
  constructor
  · rintro ⟨entry, h, -⟩
    obtain ⟨fields, hfields, hrest⟩ := Step.except_bind_ok.mp h
    obtain ⟨spans, hspans, -⟩ := Step.except_bind_ok.mp hrest
    exact ⟨⟨fields, hfields⟩, ⟨spans, hspans⟩⟩
  · rintro ⟨⟨fields, hfields⟩, ⟨spans, hspans⟩⟩
    exact ⟨_, Step.except_bind_ok.mpr ⟨fields, hfields, Step.except_bind_ok.mpr ⟨spans, hspans, rfl⟩⟩,
      ⟨fieldsOf_shown hfields, message_shown (fieldsOf_shown hfields), spans_shown hspans⟩⟩

/-! ### Mailed samples -/

/-- `str::is_char_boundary`, within the text. -/
def isCharBoundary (text : List Char) (index : ℕ) : Bool := (truncateChars index text).isSome

/-- The boundary loop of `bounded_to`. -/
def stepBack (text : List Char) : ℕ → ℕ
  | 0 => 0
  | index + 1 => if isCharBoundary text (index + 1) then index + 1 else stepBack text index

/-- `bounded_to`: the cut of the texts that are mailed. -/
def boundedTo (value : String) (limit : ℕ) : Except LogError String :=
  if value.utf8ByteSize ≤ limit then .ok value
  else
    match truncateChars (stepBack value.toList (limit - 3)) value.toList with
    | some kept => .ok (String.ofList kept ++ "...")
    | none => .error .panicked

/-- A text is mailed in full, or a front part with a mark; both are within the limit, as far as it has room
    for the mark. -/
def Mailed (limit : ℕ) (text shown : String) : Prop :=
  (text.utf8ByteSize ≤ limit ∧ shown = text) ∨
    (limit < text.utf8ByteSize ∧ shown.utf8ByteSize ≤ max limit 3 ∧
      ∃ kept, kept <+: text.toList ∧ shown = String.ofList kept ++ "...")

theorem stepBack_boundary (text : List Char) (index : ℕ) :
    stepBack text index ≤ index ∧ ∃ kept, truncateChars (stepBack text index) text = some kept := by
  induction index with
  | zero => exact ⟨Nat.le_refl _, [], by rw [stepBack, truncateChars]⟩
  | succ index ih =>
    rw [stepBack]
    split
    next hboundary => exact ⟨Nat.le_refl _, Option.isSome_iff_exists.mp hboundary⟩
    next => exact ⟨Nat.le_succ_of_le ih.1, ih.2⟩

theorem boundedTo_ok (text : String) (limit : ℕ) :
    ∃ shown, boundedTo text limit = .ok shown ∧ Mailed limit text shown := by
  obtain ⟨hle, kept, hkept⟩ := stepBack_boundary text.toList (limit - 3)
  obtain ⟨hstarts, hsize, -⟩ := truncateChars_eq_some hkept
  rw [boundedTo]
  split
  next hshort => exact ⟨text, rfl, .inl ⟨hshort, rfl⟩⟩
  next hlong =>
    rw [hkept]
    refine ⟨_, rfl, .inr ⟨Nat.not_le.mp hlong, ?_, kept, hstarts, rfl⟩⟩
    have hmark : "...".utf8ByteSize = 3 := by decide
    rw [String.utf8ByteSize_append, hmark, utf8ByteSize_ofList]
    rw [bytesOf] at hsize
    omega

/-! ### Lines -/

section

variable [Libraries]

/-- A line is an event that a query asks for. -/
def Asked (line : List UInt8) (query : LogQuery) (value : Json) : Prop :=
  Libraries.fromSlice line = some value ∧ ∃ timestamp time,
    (value.get "timestamp").bind Json.asStr = some timestamp ∧
    Libraries.parseFromRfc3339 timestamp = some time ∧
    matchesQuery value (((value.get "level").bind Json.asStr).getD "INFO")
      (((value.get "target").bind Json.asStr).getD "") time query = true

theorem parseEntry_iff (rule : String) (line : List UInt8) (query : LogQuery) :
    (∃ out, parseEntry rule line query = .ok out ∧
      ∀ entry, out = some entry → ∃ value, Asked line query value ∧ Displays value entry) ↔
      ∀ value, Asked line query value → Displayable value := by
  by_cases hasked : ∃ value, Asked line query value
  · obtain ⟨value, hslice, timestamp, time, htimestamp, htime, hmatches⟩ := hasked
    have hall : (∀ value, Asked line query value → Displayable value) ↔ Displayable value := by
      refine ⟨fun h => h value ⟨hslice, timestamp, time, htimestamp, htime, hmatches⟩, fun h value' hasked' => ?_⟩
      rwa [Option.some.inj (hasked'.1.symm.trans hslice)]
    rw [hall, ← normalizeEntry_iff rule timestamp (((value.get "level").bind Json.asStr).getD "INFO")
      (((value.get "target").bind Json.asStr).getD "") value, parseEntry]
    simp only [hslice, htimestamp, htime, hmatches, if_true]
    constructor
    · rintro ⟨out, hout, hshown⟩
      obtain ⟨entry, hentry, hsome⟩ := Step.except_bind_ok.mp hout
      cases hsome
      obtain ⟨value', hasked', hdisplays⟩ := hshown entry rfl
      obtain rfl := Option.some.inj (hasked'.1.symm.trans hslice)
      exact ⟨entry, hentry, hdisplays⟩
    · rintro ⟨entry, hentry, hdisplays⟩
      refine ⟨some entry, Step.except_bind_ok.mpr ⟨entry, hentry, rfl⟩, fun entry' hsome => ?_⟩
      obtain rfl := Option.some.inj hsome
      exact ⟨value, ⟨hslice, timestamp, time, htimestamp, htime, hmatches⟩, hdisplays⟩
  · -- A line that is no event, or one that is not asked for, is passed over.
    have hnone : parseEntry rule line query = .ok none := by
      rw [parseEntry]
      split
      next => rfl
      next value hslice =>
        split
        next => rfl
        next timestamp htimestamp =>
          split
          next => rfl
          next time htime =>
            dsimp only
            split
            next hmatches => exact absurd ⟨value, hslice, timestamp, time, htimestamp, htime, hmatches⟩ hasked
            next => rfl
    refine iff_of_true ⟨none, hnone, fun _ h => nomatch h⟩ fun value hvalue => absurd ⟨value, hvalue⟩ hasked

/-- Any line is rendered without a panic, and shows front parts of its texts within their limits, exactly
    when no character of a text that is shown stands across the text's limit; what is mailed is always cut
    between characters. -/
theorem log_lines_are_rendered_iff (rule : String) (line : List UInt8) (query : LogQuery) :
    ((∃ out, parseEntry rule line query = .ok out ∧
        ∀ entry, out = some entry → ∃ value, Asked line query value ∧ Displays value entry) ∧
      ∀ text limit, ∃ shown, boundedTo text limit = .ok shown ∧ Mailed limit text shown) ↔
      ∀ value, Asked line query value → Displayable value := by
  rw [and_iff_left boundedTo_ok, parseEntry_iff]

end

/-- A message whose last character takes the bytes 128 and 129. -/
def straddling : List Char := List.replicate 127 'a' ++ ['é']

def straddlingLine : List UInt8 :=
  utf8 ("\x7b\"timestamp\":\"2026-08-04T12:00:00Z\",\"fields\":\x7b\"message\":\"".toList ++ straddling ++
    "\"\x7d\x7d".toList)

def straddlingEvent : Json :=
  .object [("timestamp", .string "2026-08-04T12:00:00Z"),
    ("fields", .object [("message", .string (String.ofList straddling))])]

/-- The libraries on this line. -/
@[reducible] def straddlingLibraries : Libraries where
  fromSlice line := if line = straddlingLine then some straddlingEvent else none
  toText _ := []
  parseFromRfc3339 text := if text = "2026-08-04T12:00:00Z" then some 1785844800000000000 else none
  parseFromStr _ := none
  hash _ := ""
  toLowercase := String.toLower

attribute [local instance] straddlingLibraries in
/-- The rendering of the line panics. -/
theorem straddling_message_panics :
    parseEntry "APP" straddlingLine ⟨none, none, none, none, none, none, none⟩ = .error .panicked := by
  decide +kernel

end Vyuh.Console.Logs
