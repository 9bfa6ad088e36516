import Mathlib
import Vyuh.Json.Canonical

/-! Where schemas stand in a JSON Schema: the keyword above a value says whether it is a schema, a list of schemas,
    a map from names of the author's choice to schemas, or data that no reader takes for a schema. -/

namespace Vyuh.Json

variable {ν κ κ' : Type}

/-- What stands somewhere in a schema. -/
inductive Position
  | schema
  | schemas
  | either
  | named
  | data
  deriving DecidableEq, Repr

namespace Position

/-- What a keyword of a schema holds. -/
def ofKeyword (keyword : String) : Position :=
  if keyword ∈ ["properties", "patternProperties", "$defs", "definitions", "dependentSchemas"] then .named
  else if keyword ∈ ["allOf", "anyOf", "oneOf", "prefixItems"] then .schemas
  else if keyword = "items" then .either
  else if keyword ∈ ["additionalProperties", "additionalItems", "unevaluatedProperties", "unevaluatedItems",
      "propertyNames", "contains", "contentSchema", "not", "if", "then", "else"] then .schema
  else .data

/-- Whether an object is a schema here. -/
def holdsSchema : Position → Bool
  | .schema | .either => true
  | _ => false

def next : Position → Step → Position
  | .schema, .member keyword => ofKeyword keyword
  | .either, .member keyword => ofKeyword keyword
  | .either, .element _ => .schema
  | .schemas, .element _ => .schema
  | .named, .member _ => .schema
  | _, _ => .data

/-- What stands at a location, when what it starts from is known. -/
def along (start : Position) (location : Location) : Position := location.foldl next start

@[simp] theorem along_nil (start : Position) : start.along [] = start := rfl

@[simp] theorem along_cons (start : Position) (step : Step) (rest : Location) :
    start.along (step :: rest) = (start.next step).along rest := rfl

theorem along_concat (start : Position) (location : Location) (step : Step) :
    start.along (location ++ [step]) = (start.along location).next step := List.foldl_concat ..

@[simp] theorem next_data (step : Step) : Position.data.next step = .data := by cases step <;> rfl

/-- No schema stands inside data. -/
@[simp] theorem along_data (location : Location) : Position.data.along location = .data := by
  induction location with
  | nil => rfl
  | cons step rest ih => rw [along_cons, next_data, ih]

theorem next_member {p : Position} (h : p.holdsSchema = true) (keyword : String) :
    p.next (.member keyword) = ofKeyword keyword := by
  cases p <;> first | rfl | cases h

end Position

/-! ### Parts with a label -/

/-- A condition on every part of a value, under the label that the steps down to it give. -/
def Everywhere (next : κ → Step → κ) (P : κ → Value ν → Prop) (label : κ) (value : Value ν) : Prop :=
  ∀ location part, value.locate location = some part → P (location.foldl next label) part

theorem everywhere_iff {next : κ → Step → κ} {P : κ → Value ν → Prop} {label : κ} {value : Value ν} :
    Everywhere next P label value ↔
      P label value ∧ ∀ step part, value.child step = some part → Everywhere next P (next label step) part := by
  constructor
  · intro h
    refine ⟨h [] value rfl, fun step part hpart location inner hinner => h (step :: location) inner ?_⟩
    rw [Value.locate_cons, hpart, Option.bind_some, hinner]
  · rintro ⟨hself, hparts⟩ location part hpart
    cases location with
    | nil =>
      obtain rfl := Option.some.inj hpart
      exact hself
    | cons step rest =>
      obtain ⟨middle, hmiddle, hrest⟩ := Option.bind_eq_some_iff.mp hpart
      exact hparts step middle hmiddle rest part hrest

theorem Everywhere.self {next : κ → Step → κ} {P : κ → Value ν → Prop} {label : κ} {value : Value ν}
    (h : Everywhere next P label value) : P label value := (everywhere_iff.mp h).1

theorem Everywhere.child {next : κ → Step → κ} {P : κ → Value ν → Prop} {label : κ} {value part : Value ν}
    {step : Step} (h : Everywhere next P label value) (hpart : value.child step = some part) :
    Everywhere next P (next label step) part := (everywhere_iff.mp h).2 step part hpart

/-- What holds of an object and everywhere inside its members holds everywhere in it. -/
theorem Everywhere.object {next : κ → Step → κ} {P : κ → Value ν → Prop} {label : κ}
    {fields : List (String × Value ν)} (hself : P label (.object fields))
    (hparts : ∀ entry ∈ fields, Everywhere next P (next label (.member entry.1)) entry.2) :
    Everywhere next P label (.object fields) := by
  refine everywhere_iff.mpr ⟨hself, fun step part hpart => ?_⟩
  cases step with
  | member name => exact hparts (name, part) (mem_of_lookup hpart)
  | element index => cases hpart

theorem Everywhere.array {next : κ → Step → κ} {P : κ → Value ν → Prop} {label : κ} {items : List (Value ν)}
    (hself : P label (.array items))
    (hparts : ∀ index item, items[index]? = some item → Everywhere next P (next label (.element index)) item) :
    Everywhere next P label (.array items) := by
  refine everywhere_iff.mpr ⟨hself, fun step part hpart => ?_⟩
  cases step with
  | member name => cases hpart
  | element index => exact hparts index part hpart

theorem Everywhere.leaf {next : κ → Step → κ} {P : κ → Value ν → Prop} {label : κ} {value : Value ν}
    (hself : P label value) (hleaf : ∀ step, value.child step = none) : Everywhere next P label value := by
  refine everywhere_iff.mpr ⟨hself, fun step part hpart => ?_⟩
  rw [hleaf step] at hpart
  cases hpart

theorem Everywhere.mono {next : κ → Step → κ} {P Q : κ → Value ν → Prop} {label : κ} {value : Value ν}
    (h : Everywhere next P label value) (hmono : ∀ label part, P label part → Q label part) :
    Everywhere next Q label value :=
  fun location part hpart => hmono _ _ (h location part hpart)

/-- Two labels side by side. -/
def pairNext (next : κ → Step → κ) (next' : κ' → Step → κ') (labels : κ × κ') (step : Step) : κ × κ' :=
  (next labels.1 step, next' labels.2 step)

theorem foldl_pairNext (next : κ → Step → κ) (next' : κ' → Step → κ') (location : Location) (labels : κ × κ') :
    location.foldl (pairNext next next') labels = (location.foldl next labels.1, location.foldl next' labels.2) := by
  induction location generalizing labels with
  | nil => rfl
  | cons step rest ih => exact ih _

/-- A condition on one label of two. -/
theorem everywhere_pair {next : κ → Step → κ} {next' : κ' → Step → κ'} {P : κ × κ' → Value ν → Prop}
    {label : κ} {label' : κ'} {value : Value ν} :
    Everywhere (pairNext next next') P (label, label') value ↔
      ∀ location part, value.locate location = some part →
        P (location.foldl next label, location.foldl next' label') part :=
  forall₃_congr fun location _ _ => by rw [foldl_pairNext]

theorem map_eq_self_iff {α : Type} {f : α → α} {items : List α} :
    items.map f = items ↔ ∀ item ∈ items, f item = item := by
  have h := List.map_inj_left (f := f) (g := id) (l := items)
  rwa [List.map_id] at h

namespace Value

/-- Induction over a value and what is one step inside it. -/
@[elab_as_elim]
theorem child_induct {motive : Value ν → Prop}
    (inside : ∀ value, (∀ step part, value.child step = some part → motive part) → motive value)
    (value : Value ν) : motive value := by
  induction value using induct with
  | array items ih =>
    refine inside _ fun step part hpart => ?_
    cases step with
    | member name => cases hpart
    | element index => exact ih part (List.mem_of_getElem? hpart)
  | object fields ih =>
    refine inside _ fun step part hpart => ?_
    cases step with
    | member name => exact ih (name, part) (mem_of_lookup hpart)
    | element index => cases hpart
  | _ => exact inside _ fun step part hpart => by cases step <;> cases hpart

theorem locate_append (front back : Location) (value : Value ν) :
    value.locate (front ++ back) = (value.locate front).bind (locate back) := by
  induction front generalizing value with
  | nil => rfl
  | cons step rest ih =>
    rw [List.cons_append, locate_cons, locate_cons, Option.bind_assoc]
    exact congrArg _ (funext ih)

theorem locate_singleton (step : Step) (value : Value ν) : value.locate [step] = value.child step := by
  rw [locate_cons]
  cases value.child step <;> rfl

theorem Distinct.child {value part : Value ν} {step : Step} (h : value.Distinct)
    (hpart : value.child step = some part) : part.Distinct := by
  cases h with
  | array inner =>
    cases step with
    | member name => cases hpart
    | element index => exact inner part (List.mem_of_getElem? hpart)
  | object names inner =>
    cases step with
    | member name => exact inner (name, part) (mem_of_lookup hpart)
    | element index => cases hpart
  | _ => cases step <;> cases hpart

theorem Distinct.locate {location : Location} : ∀ {value part : Value ν}, value.Distinct →
    value.locate location = some part → part.Distinct := by
  induction location with
  | nil =>
    intro value part h hpart
    exact Option.some.inj hpart ▸ h
  | cons step rest ih =>
    intro value part h hpart
    obtain ⟨middle, hmiddle, hrest⟩ := Option.bind_eq_some_iff.mp hpart
    exact ih (h.child hmiddle) hrest

end Value

end Vyuh.Json
