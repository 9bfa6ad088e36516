import Vyuh.Json.Schema

/-! Schemas of parse-only input (`callables/specs.rs`): `strip_validation_keywords` takes the keywords that constrain
    a value out of every object it meets. -/

namespace Vyuh.Callables

open Json

variable {ν : Type}

/-- The keywords removed whatever they hold. -/
def validationKeywords : List String :=
  ["minLength", "maxLength", "pattern", "minimum", "maximum", "exclusiveMinimum", "exclusiveMaximum", "multipleOf",
    "minItems", "maxItems", "uniqueItems"]

def isBinary : Value ν → Bool
  | .string text => text = "binary"
  | _ => false

/-- Whether a member is removed: a keyword above, or a `format` other than `binary`. -/
def isStripped (key : String) (value : Value ν) : Bool :=
  key ∈ validationKeywords || (key = "format" && !isBinary value)

mutual

def stripValidationKeywords : Value ν → Value ν
  | .object fields => .object (stripFields fields)
  | .array items => .array (stripItems items)
  | .null => .null
  | .bool b => .bool b
  | .number n => .number n
  | .string s => .string s

def stripItems : List (Value ν) → List (Value ν)
  | [] => []
  | item :: rest => stripValidationKeywords item :: stripItems rest

/-- Members are removed first and the values of the others are stripped then. -/
def stripFields : List (String × Value ν) → List (String × Value ν)
  | [] => []
  | (key, value) :: rest =>
    if isStripped key value then stripFields rest
    else (key, stripValidationKeywords value) :: stripFields rest

end

theorem stripItems_eq (items : List (Value ν)) : stripItems items = items.map stripValidationKeywords := by
  induction items with
  | nil => rfl
  | cons item rest ih => rw [stripItems, ih, List.map_cons]

theorem stripFields_eq (fields : List (String × Value ν)) :
    stripFields fields = (fields.filter fun entry => !isStripped entry.1 entry.2).map
      fun entry => (entry.1, stripValidationKeywords entry.2) := by
  induction fields with
  | nil => rfl
  | cons entry rest ih =>
    rw [stripFields, ih]
    by_cases h : isStripped entry.1 entry.2 <;> simp [h]

theorem mem_stripFields {fields : List (String × Value ν)} {entry : String × Value ν} :
    entry ∈ stripFields fields ↔ ∃ value, (entry.1, value) ∈ fields ∧ isStripped entry.1 value = false ∧
      entry.2 = stripValidationKeywords value := by
  rw [stripFields_eq, List.mem_map]
  constructor
  · rintro ⟨⟨key, value⟩, hmem, rfl⟩
    obtain ⟨hmem, hkept⟩ := List.mem_filter.mp hmem
    exact ⟨value, hmem, by simpa using hkept, rfl⟩
  · rintro ⟨value, hmem, hkept, hvalue⟩
    exact ⟨(entry.1, value), List.mem_filter.mpr ⟨hmem, by simp [hkept]⟩, Prod.ext rfl hvalue.symm⟩

theorem nodup_stripFields {fields : List (String × Value ν)} (h : (fields.map (·.1)).Nodup) :
    ((stripFields fields).map (·.1)).Nodup := by
  rw [stripFields_eq, List.map_map]
  exact h.sublist (List.filter_sublist.map _)

/-- A member is found again unless it is removed. -/
theorem lookup_stripFields {fields : List (String × Value ν)} (hnodup : (fields.map (·.1)).Nodup) (key : String)
    (value : Value ν) : (stripFields fields).lookup key = some value ↔
      ∃ part, fields.lookup key = some part ∧ isStripped key part = false ∧
        value = stripValidationKeywords part := by
  constructor
  · intro h
    obtain ⟨part, hmem, hkept, hvalue⟩ := mem_stripFields.mp (mem_of_lookup h)
    exact ⟨part, lookup_of_mem hnodup hmem, hkept, hvalue⟩
  · rintro ⟨part, hpart, hkept, hvalue⟩
    exact lookup_of_mem (nodup_stripFields hnodup) (mem_stripFields.mpr ⟨part, mem_of_lookup hpart, hkept, hvalue⟩)

theorem isBinary_strip (value : Value ν) : isBinary (stripValidationKeywords value) = isBinary value := by
  cases value <;> simp [stripValidationKeywords, isBinary]

theorem isStripped_strip (key : String) (value : Value ν) :
    isStripped key (stripValidationKeywords value) = isStripped key value := by
  rw [isStripped, isBinary_strip, isStripped]

/-- A second pass finds nothing to remove. -/
theorem strip_strip (value : Value ν) :
    stripValidationKeywords (stripValidationKeywords value) = stripValidationKeywords value := by
  induction value using Value.induct with
  | array items ih =>
    rw [stripValidationKeywords, stripValidationKeywords, stripItems_eq, stripItems_eq, List.map_map]
    exact congrArg Value.array (List.map_congr_left ih)
  | object fields ih =>
    rw [stripValidationKeywords, stripValidationKeywords, stripFields_eq, stripFields_eq, List.filter_map,
      List.map_map, List.filter_filter]
    simp only [Function.comp_def, isStripped_strip, Bool.and_self]
    exact congrArg Value.object (List.map_congr_left fun entry hmem =>
      Prod.ext rfl (ih entry (List.mem_filter.mp hmem).1))
  | _ => simp only [stripValidationKeywords]

/-! ### What is left as it was -/

/-- No object inside has a member that is removed. -/
def Untouched (value : Value ν) : Prop :=
  ∀ location fields, value.locate location = some (.object fields) →
    ∀ entry ∈ fields, isStripped entry.1 entry.2 = false

theorem untouched_array {items : List (Value ν)} :
    Untouched (.array items) ↔ ∀ item ∈ items, Untouched item := by
  constructor
  · intro h item hitem location fields hfields
    obtain ⟨index, hindex⟩ := List.getElem?_of_mem hitem
    refine h (.element index :: location) fields ?_
    rw [Value.locate_cons, Value.child, hindex, Option.bind_some, hfields]
  · intro h location fields hfields
    cases location with
    | nil => cases hfields
    | cons step rest =>
      obtain ⟨item, hitem, hrest⟩ := Option.bind_eq_some_iff.mp hfields
      cases step with
      | member name => cases hitem
      | element index => exact h item (List.mem_of_getElem? hitem) rest fields hrest

theorem untouched_object {fields : List (String × Value ν)} (hnodup : (fields.map (·.1)).Nodup) :
    Untouched (.object fields) ↔
      (∀ entry ∈ fields, isStripped entry.1 entry.2 = false) ∧ ∀ entry ∈ fields, Untouched entry.2 := by
  constructor
  · intro h
    refine ⟨h [] fields rfl, fun entry hentry location inner hinner => ?_⟩
    refine h (.member entry.1 :: location) inner ?_
    rw [Value.locate_cons, Value.child, lookup_of_mem hnodup (show (entry.1, entry.2) ∈ fields from hentry),
      Option.bind_some, hinner]
  · rintro ⟨hself, hparts⟩ location inner hinner
    cases location with
    | nil =>
      obtain rfl := Value.object.inj (Option.some.inj hinner)
      exact hself
    | cons step rest =>
      obtain ⟨part, hpart, hrest⟩ := Option.bind_eq_some_iff.mp hinner
      cases step with
      | member name => exact hparts (name, part) (mem_of_lookup hpart) rest inner hrest
      | element index => cases hpart

theorem untouched_scalar {value : Value ν} (harray : ∀ items, value ≠ .array items)
    (hobject : ∀ fields, value ≠ .object fields) : Untouched value := by
  intro location fields hfields
  cases location with
  | nil => exact absurd (Option.some.inj hfields) (hobject fields)
  | cons step rest =>
    cases value with
    | array items => exact absurd rfl (harray items)
    | object members => exact absurd rfl (hobject members)
    | _ => cases step <;> cases hfields

theorem stripFields_eq_self {fields : List (String × Value ν)} :
    stripFields fields = fields ↔
      (∀ entry ∈ fields, isStripped entry.1 entry.2 = false) ∧
        ∀ entry ∈ fields, stripValidationKeywords entry.2 = entry.2 := by
  induction fields with
  | nil => simp [stripFields]
  | cons entry rest ih =>
    obtain ⟨key, value⟩ := entry
    rw [stripFields]
    cases hkept : isStripped key value with
    | true =>
      have hshort : (stripFields rest).length ≤ rest.length := by
        rw [stripFields_eq, List.length_map]
        exact List.length_filter_le _ _
      refine ⟨fun h => ?_, fun h => absurd (h.1 _ (List.mem_cons_self ..)) (by simp [hkept])⟩
      rw [if_pos rfl] at h
      rw [h, List.length_cons] at hshort
      omega
    | false =>
      rw [if_neg (by simp)]
      simp only [List.cons.injEq, Prod.mk.injEq, true_and, ih, List.forall_mem_cons, hkept]
      exact and_left_comm

theorem strip_eq_self_iff (value : Value ν) (h : value.Distinct) :
    stripValidationKeywords value = value ↔ Untouched value := by
  induction value using Value.induct with
  | array items ih =>
    cases h with
    | array inner =>
      rw [stripValidationKeywords, Value.array.injEq, stripItems_eq, untouched_array, map_eq_self_iff]
      exact forall₂_congr fun item hitem => ih item hitem (inner item hitem)
  | object fields ih =>
    cases h with
    | object names inner =>
      rw [stripValidationKeywords, Value.object.injEq, stripFields_eq_self, untouched_object names]
      exact and_congr_right fun _ => forall₂_congr fun entry hentry => ih entry hentry (inner entry hentry)
  | _ => exact ⟨fun _ => untouched_scalar (by simp) (by simp), fun _ => by simp only [stripValidationKeywords]⟩

/-! ### Locations -/

theorem child_strip {value part : Value ν} (h : value.Distinct) {step : Step} :
    (stripValidationKeywords value).child step = some part ↔
      ∃ inner, value.child step = some inner ∧ part = stripValidationKeywords inner ∧
        ∀ key, step = .member key → isStripped key inner = false := by
  cases h with
  | array inner =>
    cases step with
    | member name => simp [stripValidationKeywords, Value.child]
    | element index =>
      rw [stripValidationKeywords, Value.child, Value.child, stripItems_eq, List.getElem?_map, Option.map_eq_some_iff]
      refine exists_congr fun inner => and_congr_right fun _ => ?_
      exact ⟨fun heq => ⟨heq.symm, fun key hkey => (by cases hkey)⟩, fun hboth => hboth.1.symm⟩
  | object names inner =>
    cases step with
    | member name =>
      rw [stripValidationKeywords, Value.child, Value.child, lookup_stripFields names]
      refine exists_congr fun part => and_congr_right fun _ => ?_
      simp [and_comm]
    | element index => simp [stripValidationKeywords, Value.child]
  | _ => cases step <;> simp [stripValidationKeywords, Value.child]

/-- What is found in a stripped value is the stripped part found there before. -/
theorem locate_strip_some {location : Location} : ∀ {value part : Value ν}, value.Distinct →
    (stripValidationKeywords value).locate location = some part →
    ∃ inner, value.locate location = some inner ∧ part = stripValidationKeywords inner := by
  induction location with
  | nil =>
    intro value part _ hpart
    exact ⟨value, rfl, (Option.some.inj hpart).symm⟩
  | cons step rest ih =>
    intro value part h hpart
    obtain ⟨middle, hmiddle, hrest⟩ := Option.bind_eq_some_iff.mp hpart
    obtain ⟨inner, hinner, rfl, -⟩ := (child_strip h).mp hmiddle
    obtain ⟨found, hfound, hpart⟩ := ih (h.child hinner) hrest
    exact ⟨found, by rw [Value.locate_cons, hinner, Option.bind_some, hfound], hpart⟩

/-- What a part must be for stripping to leave alone what is no schema: a map declares no name that is removed,
    and no data of a schema changes. -/
def Harmless (position : Position) (part : Value ν) : Prop :=
  ∀ fields, part = .object fields →
    (position = .named → ∀ entry ∈ fields, isStripped entry.1 entry.2 = false) ∧
    (position.holdsSchema = true → ∀ entry ∈ fields, Position.ofKeyword entry.1 = .data →
      isStripped entry.1 entry.2 = false → Untouched entry.2)

/-- No name or data of the author looks like a validation keyword. -/
def NamesNoKeyword (value : Value ν) : Prop := Everywhere Position.next Harmless .schema value

theorem not_stripped_of_ofKeyword {key : String} (h : Position.ofKeyword key ≠ .data) (value : Value ν) :
    isStripped key value = false := by
  by_contra hstripped
  rw [Bool.not_eq_false, isStripped, Bool.or_eq_true, decide_eq_true_eq, Bool.and_eq_true, decide_eq_true_eq] at hstripped
  refine h ?_
  rcases hstripped with hkey | ⟨rfl, -⟩
  · simp only [validationKeywords, List.mem_cons, List.not_mem_nil, or_false] at hkey
    rcases hkey with rfl | rfl | rfl | rfl | rfl | rfl | rfl | rfl | rfl | rfl | rfl <;> decide
  · decide

/-- Down to a schema, or to a map of them, nothing is removed. -/
theorem locate_strip {location : Location} : ∀ {position : Position} {value : Value ν}, value.Distinct →
    Everywhere Position.next Harmless position value → position.along location ≠ .data →
    (stripValidationKeywords value).locate location = (value.locate location).map stripValidationKeywords := by
  induction location with
  | nil => exact fun _ _ _ => rfl
  | cons step rest ih =>
    intro position value h hsafe hposition
    rw [Position.along_cons] at hposition
    have hnext : position.next step ≠ .data := fun hdata => hposition (by rw [hdata, Position.along_data])
    rw [Value.locate_cons, Value.locate_cons]
    cases hchild : value.child step with
    | none =>
      have hnone : (stripValidationKeywords value).child step = none := by
        rw [Option.eq_none_iff_forall_ne_some]
        intro part hpart
        obtain ⟨inner, hinner, -⟩ := (child_strip h).mp hpart
        rw [hchild] at hinner
        cases hinner
      rw [hnone]
      rfl
    | some inner =>
      have hkept : ∀ key, step = .member key → isStripped key inner = false := by
        rintro key rfl
        cases value with
        | object fields =>
          cases position with
          | named => exact (hsafe.self fields rfl).1 rfl (key, inner) (mem_of_lookup hchild)
          | schema => exact not_stripped_of_ofKeyword hnext inner
          | either => exact not_stripped_of_ofKeyword hnext inner
          | _ => exact absurd rfl hnext
        | _ => cases hchild
      rw [(child_strip h).mpr ⟨inner, hchild, rfl, hkept⟩, Option.bind_some, Option.bind_some]
      exact ih (h.child hchild) (hsafe.child hchild) hposition

/-! ### Keywords of schemas only -/

/-- Keywords are removed from schemas only: every name of a map of schemas is declared as before, every data
    keyword that stays (`const`, `enum`, `default` and the like) has the value it had, and stripping again changes
    nothing. -/
structure StripsSchemasOnly (before after : Value ν) : Prop where
  declared : ∀ location fields name, Position.schema.along location = .named →
    before.locate location = some (.object fields) → name ∈ fields.map (·.1) →
    ∃ fields', after.locate location = some (.object fields') ∧ name ∈ fields'.map (·.1)
  data : ∀ location fields keyword value, (Position.schema.along location).holdsSchema = true →
    before.locate location = some (.object fields) → fields.lookup keyword = some value →
    Position.ofKeyword keyword = .data → isStripped keyword value = false →
    after.locate (location ++ [.member keyword]) = some value
  idempotent : stripValidationKeywords after = after

theorem StripsSchemasOnly.namesNoKeyword {value : Value ν} (h : value.Distinct)
    (hstrips : StripsSchemasOnly value (stripValidationKeywords value)) : NamesNoKeyword value := by
  rintro location part hpart fields rfl
  have hdistinct := h.locate hpart
  cases hdistinct with
  | object names inner =>
    refine ⟨fun hnamed entry hentry => ?_, fun hschema entry hentry hdata hkept => ?_⟩
    · obtain ⟨fields', hfields', hname⟩ := hstrips.declared location fields entry.1 hnamed hpart
        (List.mem_map_of_mem hentry)
      obtain ⟨found, hfound, hstripped⟩ := locate_strip_some h hfields'
      obtain rfl := Option.some.inj (hpart.symm.trans hfound)
      rw [stripValidationKeywords, Value.object.injEq] at hstripped
      subst hstripped
      obtain ⟨⟨key, stripped⟩, hmem, rfl⟩ := List.mem_map.mp hname
      obtain ⟨value', hvalue', hkept, -⟩ := mem_stripFields.mp hmem
      have hsame : value' = entry.2 := Option.some.inj
        ((lookup_of_mem names hvalue').symm.trans (lookup_of_mem names (show (entry.1, entry.2) ∈ fields from hentry)))
      exact hsame ▸ hkept
    · have hlookup := lookup_of_mem names (show (entry.1, entry.2) ∈ fields from hentry)
      have hafter := hstrips.data location fields entry.1 entry.2 hschema hpart hlookup hdata hkept
      obtain ⟨found, hfound, hstripped⟩ := locate_strip_some h hafter
      rw [Value.locate_append, hpart, Option.bind_some, Value.locate_cons, Value.child, hlookup, Option.bind_some,
        Value.locate_nil] at hfound
      obtain rfl := Option.some.inj hfound
      exact (strip_eq_self_iff _ (inner entry hentry)).mp hstripped.symm

/-- Stripping removes keywords from schemas only exactly when no name and no data of the author looks like one. -/
theorem strips_schemas_only_iff (value : Value ν) (h : value.Distinct) :
    StripsSchemasOnly value (stripValidationKeywords value) ↔ NamesNoKeyword value := by
  refine ⟨StripsSchemasOnly.namesNoKeyword h, fun hsafe => ⟨?_, ?_, strip_strip value⟩⟩
  · intro location fields name hnamed hfields hname
    have hafter : (stripValidationKeywords value).locate location = _ :=
      locate_strip h hsafe (by rw [hnamed]; decide)
    rw [hfields, Option.map_some, stripValidationKeywords] at hafter
    obtain ⟨⟨key, part⟩, hmem, rfl⟩ := List.mem_map.mp hname
    have hkept := (hsafe location _ hfields fields rfl).1 hnamed _ hmem
    refine ⟨_, hafter, List.mem_map.mpr ⟨(key, stripValidationKeywords part), ?_, rfl⟩⟩
    exact mem_stripFields.mpr ⟨part, hmem, hkept, rfl⟩
  · intro location fields keyword part hschema hfields hlookup hdata hkept
    have hposition : Position.schema.along location ≠ .data := fun hdata => by rw [hdata] at hschema; cases hschema
    have hafter : (stripValidationKeywords value).locate location = _ := locate_strip h hsafe hposition
    have huntouched := (hsafe location _ hfields fields rfl).2 hschema _ (mem_of_lookup hlookup) hdata hkept
    have hdistinct := h.locate hfields
    cases hdistinct with
    | object names inner =>
      rw [Value.locate_append, hafter, hfields, Option.map_some, Option.bind_some, stripValidationKeywords,
        Value.locate_cons, Value.child, (lookup_stripFields names keyword _).mpr ⟨part, hlookup, hkept, rfl⟩,
        Option.bind_some, Value.locate_nil,
        (strip_eq_self_iff part (inner _ (mem_of_lookup hlookup))).mpr huntouched]

/-! ### A field named after a keyword -/

/-- A schema with one field. -/
def fieldSchema (name : String) (field : Value ℕ) : Value ℕ :=
  .object [("type", .string "object"), ("properties", .object [(name, field)])]

/-- A text of at least one character. -/
def someText : Value ℕ := .object [("type", .string "string"), ("minLength", .number 1)]

theorem fieldSchema_distinct (name : String) {field : Value ℕ} (h : field.Distinct) :
    (fieldSchema name field).Distinct := by
  refine .object (by simp) ?_
  rw [List.forall_mem_cons, List.forall_mem_singleton]
  exact ⟨.string _, .object (List.nodup_singleton _) (List.forall_mem_singleton.mpr h)⟩

theorem someText_distinct : someText.Distinct := by
  refine .object (by decide) ?_
  rw [List.forall_mem_cons, List.forall_mem_singleton]
  exact ⟨.string _, .number _⟩

theorem strips_schemas_only_title :
    StripsSchemasOnly (fieldSchema "title" someText) (stripValidationKeywords (fieldSchema "title" someText)) := by
  refine (strips_schemas_only_iff _ (fieldSchema_distinct "title" someText_distinct)).mpr ?_
  have hleaf : ∀ (position : Position) (value : Value ℕ), (∀ step, value.child step = none) →
      (∀ fields, value ≠ .object fields) → Everywhere Position.next Harmless position value :=
    fun _ _ hleaf hnot => .leaf (fun fields heq => absurd heq (hnot fields)) hleaf
  have htype : ∀ (text : String) (position : Position),
      Everywhere Position.next Harmless position (.string text : Value ℕ) :=
    fun _ position => hleaf position _ (fun step => by cases step <;> rfl) (by simp)
  have htext : Everywhere Position.next Harmless .schema someText := by
    refine .object ?_ ?_
    · rintro _ ⟨⟩
      refine ⟨fun h => (by cases h), fun _ => ?_⟩
      rw [List.forall_mem_cons, List.forall_mem_singleton]
      exact ⟨fun _ _ => untouched_scalar (by simp) (by simp), fun _ h => by cases h⟩
    · rw [List.forall_mem_cons, List.forall_mem_singleton]
      exact ⟨htype _ _, hleaf _ _ (fun step => by cases step <;> rfl) (by simp)⟩
  refine .object ?_ ?_
  · rintro _ ⟨⟩
    refine ⟨fun h => (by cases h), fun _ => ?_⟩
    rw [List.forall_mem_cons, List.forall_mem_singleton]
    exact ⟨fun _ _ => untouched_scalar (by simp) (by simp), fun h => by cases h⟩
  · rw [List.forall_mem_cons, List.forall_mem_singleton]
    refine ⟨htype _ _, .object ?_ (List.forall_mem_singleton.mpr htext)⟩
    rintro _ ⟨⟩
    exact ⟨fun _ => List.forall_mem_singleton.mpr (by decide), fun h => by cases h⟩

/-- A field named `format` is no longer declared. -/
theorem format_field_is_dropped :
    ¬ StripsSchemasOnly (fieldSchema "format" someText)
        (stripValidationKeywords (fieldSchema "format" someText)) := by
  intro h
  obtain ⟨fields, hfields, hname⟩ := h.declared [.member "properties"] _ "format" rfl rfl (by decide)
  obtain rfl := Value.object.inj (Option.some.inj hfields)
  cases hname

end Vyuh.Callables
