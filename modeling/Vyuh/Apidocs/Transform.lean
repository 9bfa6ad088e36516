import Vyuh.Json.Schema
import Vyuh.Lib.Replace

/-! OpenAPI 3.0 schemas from JSON Schemas (`transform_for_openapi`, twice in the source: `apidocs/apidoc.rs` and
    `apidocs/schema.rs`). -/

namespace Vyuh.Apidocs

open Lib Json

variable {ν : Type}

/-! ### References -/

def defsPrefix : String := "#/$defs/"

def definitionsPrefix : String := "#/definitions/"

def schemasPrefix : String := "#/components/schemas/"

/-- Every occurrence of either prefix becomes the one of OpenAPI. -/
def rewriteRef (reference : String) : String :=
  String.ofList (replace definitionsPrefix.toList schemasPrefix.toList
    (replace defsPrefix.toList schemasPrefix.toList reference.toList))

/-- `Map::insert`. -/
def insertMember (key : String) (value : Value ν) (fields : List (String × Value ν)) : List (String × Value ν) :=
  updateEntry key value (fun _ => value) fields

/-- `Map::remove`. -/
def removeMember (key : String) (fields : List (String × Value ν)) : List (String × Value ν) :=
  fields.filter fun entry => entry.1 ≠ key

def rewriteSchemaRef (fields : List (String × Value ν)) : List (String × Value ν) :=
  match fields.lookup "$ref" with
  | some (.string reference) => insertMember "$ref" (.string (rewriteRef reference)) fields
  | _ => fields

/-! ### Type arrays -/

def isNullType : Value ν → Bool
  | .string name => name = "null"
  | _ => false

def nonNull (types : List (Value ν)) : List (Value ν) := types.filter fun type => !isNullType type

def setNullable (types : List (Value ν)) (fields : List (String × Value ν)) : List (String × Value ν) :=
  if types.any isNullType then insertMember "nullable" (.bool true) fields else fields

/-- `transform_type_array`, with the alternatives that several types become. -/
def transformTypeArray (types alternatives : List (Value ν)) (fields : List (String × Value ν)) :
    List (String × Value ν) :=
  match nonNull types with
  | [] => fields
  | [type] => setNullable types (insertMember "type" type fields)
  | _ :: _ :: _ => setNullable types (insertMember "anyOf" (.array alternatives) (removeMember "type" fields))

def typed (type : Value ν) : Value ν := .object [("type", type)]

mutual

/-- What becomes of `typed type` in turn; a type is a string, and nothing becomes of it then. -/
def alternative : Value ν → Value ν
  | .array types => .object (transformTypeArray types (alternatives types) [("type", .array types)])
  | .null => typed .null
  | .bool b => typed (.bool b)
  | .number n => typed (.number n)
  | .string s => typed (.string s)
  | .object fields => typed (.object fields)

def alternatives : List (Value ν) → List (Value ν)
  | [] => []
  | type :: rest => if isNullType type then alternatives rest else alternative type :: alternatives rest

end

/-! ### The transformation -/

def ofBool : Bool → Value ν
  | true => .object []
  | false => .object [("not", .object [])]

def typesOf (fields : List (String × Value ν)) : Option (List (Value ν)) :=
  match fields.lookup "type" with
  | some (.array types) => some types
  | _ => none

/-- The reference and the type of a schema, rewritten in place. -/
def rewriteSelf (fields members : List (String × Value ν)) : List (String × Value ν) :=
  match typesOf fields with
  | some types => transformTypeArray types (alternatives types) (rewriteSchemaRef members)
  | none => rewriteSchemaRef members

/-- The keywords whose value is transformed as if it were a schema, the maps of definitions among them. -/
def nestedKeywords : List String := ["items", "additionalProperties", "not", "$defs", "definitions"]

def compositionKeywords : List String := ["allOf", "anyOf", "oneOf"]

mutual

/-- Transforms a schema. What it holds is transformed here before its own type and reference are rewritten, and in
    the source after: see `transformForOpenapi_object`. -/
def transformForOpenapi : Value ν → Value ν
  | .bool b => ofBool b
  | .object fields => .object (rewriteSelf fields (transformMembers fields))
  | .array items => .array (transformItems items)
  | .null => .null
  | .number n => .number n
  | .string s => .string s

def transformItems : List (Value ν) → List (Value ν)
  | [] => []
  | item :: rest => transformForOpenapi item :: transformItems rest

def transformEntries : List (String × Value ν) → List (String × Value ν)
  | [] => []
  | (key, value) :: rest => (key, transformForOpenapi value) :: transformEntries rest

/-- What `properties` holds: a schema for every name. -/
def transformProperties : Value ν → Value ν
  | .object entries => .object (transformEntries entries)
  | .null => .null
  | .bool b => .bool b
  | .number n => .number n
  | .string s => .string s
  | .array items => .array items

/-- What a composition holds: a list of schemas. -/
def transformComposition : Value ν → Value ν
  | .array items => .array (transformItems items)
  | .null => .null
  | .bool b => .bool b
  | .number n => .number n
  | .string s => .string s
  | .object fields => .object fields

def transformMembers : List (String × Value ν) → List (String × Value ν)
  | [] => []
  | (key, value) :: rest =>
    (key, if key = "properties" then transformProperties value
      else if key ∈ nestedKeywords then transformForOpenapi value
      else if key ∈ compositionKeywords then transformComposition value
      else value) :: transformMembers rest

end

/-- What becomes of the member of a schema. -/
def transformMember (key : String) (value : Value ν) : Value ν :=
  if key = "properties" then transformProperties value
  else if key ∈ nestedKeywords then transformForOpenapi value
  else if key ∈ compositionKeywords then transformComposition value
  else value

theorem transformItems_eq (items : List (Value ν)) : transformItems items = items.map transformForOpenapi := by
  induction items with
  | nil => rfl
  | cons item rest ih => rw [transformItems, ih, List.map_cons]

theorem transformEntries_eq (entries : List (String × Value ν)) :
    transformEntries entries = entries.map fun entry => (entry.1, transformForOpenapi entry.2) := by
  induction entries with
  | nil => rfl
  | cons entry rest ih => rw [transformEntries, ih, List.map_cons]

theorem transformMembers_eq (fields : List (String × Value ν)) :
    transformMembers fields = fields.map fun entry => (entry.1, transformMember entry.1 entry.2) := by
  induction fields with
  | nil => rfl
  | cons entry rest ih =>
    rw [transformMembers, ih, List.map_cons]
    rfl

/-! ### Members by name -/

theorem lookup_mapMembers {α β : Type} (f : String → α → β) (name : String) (fields : List (String × α)) :
    (fields.map fun entry => (entry.1, f entry.1 entry.2)).lookup name = (fields.lookup name).map (f name) := by
  induction fields with
  | nil => rfl
  | cons entry rest ih =>
    obtain ⟨key, value⟩ := entry
    rw [List.map_cons, lookup_cons, lookup_cons, ih]
    by_cases hname : name = key
    · rw [if_pos hname, if_pos hname, hname, Option.map_some]
    · rw [if_neg hname, if_neg hname]

theorem lookup_insertMember (key : String) (value : Value ν) (fields : List (String × Value ν)) (name : String) :
    (insertMember key value fields).lookup name = if name = key then some value else fields.lookup name :=
  lookup_updateEntry key value (fun _ => value) fields name

theorem lookup_removeMember (key : String) (fields : List (String × Value ν)) (name : String) :
    (removeMember key fields).lookup name = if name = key then none else fields.lookup name := by
  induction fields with
  | nil => simp [removeMember]
  | cons entry rest ih =>
    obtain ⟨other, value⟩ := entry
    rw [removeMember, List.filter_cons]
    by_cases hother : other = key
    · subst hother
      rw [if_neg (by simp), lookup_cons]
      by_cases hname : name = other
      · rw [if_pos hname]
        exact ih.trans (if_pos hname)
      · rw [if_neg hname, if_neg hname]
        exact ih.trans (if_neg hname)
    · rw [if_pos (by simpa using hother), lookup_cons, lookup_cons]
      by_cases hname : name = other
      · rw [if_pos hname, if_pos hname, if_neg (hname ▸ hother)]
      · rw [if_neg hname, if_neg hname]
        exact ih

theorem insertMember_self {key : String} {value : Value ν} {fields : List (String × Value ν)}
    (h : fields.lookup key = some value) : insertMember key value fields = fields := by
  induction fields with
  | nil => cases h
  | cons entry rest ih =>
    obtain ⟨other, held⟩ := entry
    rw [lookup_cons] at h
    rw [insertMember, updateEntry]
    by_cases hother : other = key
    · rw [if_pos hother.symm] at h
      rw [if_pos hother, Option.some.inj h]
    · rw [if_neg (Ne.symm hother)] at h
      rw [if_neg hother]
      exact congrArg _ (ih h)

theorem map_insertMember (f : String → Value ν → Value ν) (key : String) (value : Value ν)
    (fields : List (String × Value ν)) :
    ((insertMember key value fields).map fun entry => (entry.1, f entry.1 entry.2)) =
      insertMember key (f key value) (fields.map fun entry => (entry.1, f entry.1 entry.2)) := by
  induction fields with
  | nil => rfl
  | cons entry rest ih =>
    obtain ⟨other, held⟩ := entry
    rw [insertMember, updateEntry, List.map_cons, insertMember, updateEntry]
    by_cases hother : other = key
    · rw [if_pos hother, if_pos hother, List.map_cons, hother]
    · rw [if_neg hother, if_neg hother, List.map_cons]
      exact congrArg _ ih

theorem map_removeMember (f : String → Value ν → Value ν) (key : String) (fields : List (String × Value ν)) :
    ((removeMember key fields).map fun entry => (entry.1, f entry.1 entry.2)) =
      removeMember key (fields.map fun entry => (entry.1, f entry.1 entry.2)) := by
  rw [removeMember, removeMember, List.filter_map]
  rfl

/-! ### The order of the source -/

theorem alternative_eq (type : Value ν) : alternative type = transformForOpenapi (typed type) := by
  rw [typed, transformForOpenapi, transformMembers_eq]
  cases type <;> rfl

theorem alternatives_eq (types : List (Value ν)) :
    alternatives types = (nonNull types).map fun type => transformForOpenapi (typed type) := by
  induction types with
  | nil => rfl
  | cons type rest ih =>
    rw [alternatives, ih]
    cases hnull : isNullType type <;> simp [nonNull, hnull, alternative_eq]

/-- The type and the reference of a schema as the source leaves them before it goes into the schema. -/
def rewriteFirst (fields : List (String × Value ν)) : List (String × Value ν) :=
  match typesOf (rewriteSchemaRef fields) with
  | some types => transformTypeArray types ((nonNull types).map typed) (rewriteSchemaRef fields)
  | none => rewriteSchemaRef fields

section

variable (f : String → Value ν → Value ν) {fields : List (String × Value ν)}

theorem map_rewriteSchemaRef (href : ∀ value, f "$ref" value = value) :
    ((rewriteSchemaRef fields).map fun entry => (entry.1, f entry.1 entry.2)) =
      rewriteSchemaRef (fields.map fun entry => (entry.1, f entry.1 entry.2)) := by
  rw [rewriteSchemaRef, rewriteSchemaRef, lookup_mapMembers]
  cases fields.lookup "$ref" with
  | none => rfl
  | some value =>
    rw [Option.map_some, href]
    cases value with
    | string reference => exact (map_insertMember f "$ref" _ fields).trans (by rw [href])
    | _ => rfl

theorem map_transformTypeArray (htype : ∀ value, f "type" value = value)
    (hnullable : ∀ value, f "nullable" value = value) (types before : List (Value ν)) {after : List (Value ν)}
    (hany : f "anyOf" (.array before) = .array after) :
    ((transformTypeArray types before fields).map fun entry => (entry.1, f entry.1 entry.2)) =
      transformTypeArray types after (fields.map fun entry => (entry.1, f entry.1 entry.2)) := by
  have hset : ∀ members : List (String × Value ν),
      ((setNullable types members).map fun entry => (entry.1, f entry.1 entry.2)) =
        setNullable types (members.map fun entry => (entry.1, f entry.1 entry.2)) := by
    intro members
    rw [setNullable, setNullable]
    split
    · rw [map_insertMember, hnullable]
    · rfl
  rw [transformTypeArray, transformTypeArray]
  cases nonNull types with
  | nil => rfl
  | cons type others =>
    cases others with
    | nil => exact (hset _).trans (by rw [map_insertMember, htype])
    | cons => exact (hset _).trans (by rw [map_insertMember, hany, map_removeMember])

end

theorem typesOf_rewriteSchemaRef (fields : List (String × Value ν)) :
    typesOf (rewriteSchemaRef fields) = typesOf fields := by
  have hlookup : (rewriteSchemaRef fields).lookup "type" = fields.lookup "type" := by
    rw [rewriteSchemaRef]
    split
    · rw [lookup_insertMember, if_neg (by decide)]
    · rfl
  rw [typesOf, typesOf, hlookup]

/-- The source rewrites the reference and the type of a schema first and goes into the result, the alternatives of
    the type among it; the outcome is the same. -/
theorem transformForOpenapi_object (fields : List (String × Value ν)) :
    transformForOpenapi (.object fields) =
      .object ((rewriteFirst fields).map fun entry => (entry.1, transformMember entry.1 entry.2)) := by
  have hkeep : ∀ key ∈ ["$ref", "type", "nullable"], ∀ value : Value ν, transformMember key value = value := by
    intro key hkey value
    fin_cases hkey <;> rfl
  have href := hkeep "$ref" (by decide)
  rw [transformForOpenapi, transformMembers_eq, rewriteSelf, rewriteFirst, typesOf_rewriteSchemaRef]
  cases typesOf fields with
  | none => rw [map_rewriteSchemaRef transformMember href]
  | some types =>
    have hany : transformMember "anyOf" (.array ((nonNull types).map typed)) = .array (alternatives types) := by
      rw [alternatives_eq]
      show Value.array (transformItems _) = _
      rw [transformItems_eq, List.map_map]
      rfl
    simp only
    rw [map_transformTypeArray transformMember (hkeep "type" (by decide)) (hkeep "nullable" (by decide)) types _ hany,
      map_rewriteSchemaRef transformMember href]

end Vyuh.Apidocs
