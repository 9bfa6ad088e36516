import Mathlib

/-! JSON values as `serde_json` holds them (`Value`), over an arbitrary type of numbers. Objects keep
    their members in order of insertion, each name once; a member is found by its name and an element
    by its position. -/

namespace Vyuh.Json

/-- `serde_json::Value`. -/
inductive Value (ν : Type) where
  | null
  | bool (b : Bool)
  | number (n : ν)
  | string (s : String)
  | array (items : List (Value ν))
  | object (fields : List (String × Value ν))

/-- One step into a value. -/
inductive Step where
  | member (name : String)
  | element (index : ℕ)
  deriving DecidableEq, Repr

/-- Where a value stands inside another, from the outside in. -/
abbrev Location := List Step

variable {ν α β : Type}

/-- `Map::entry(name).or_insert(default)` followed by an update of the entry. -/
def updateEntry (name : String) (default : α) (f : α → α) : List (String × α) → List (String × α)
  | [] => [(name, f default)]
  | (key, value) :: rest =>
    if key = name then (key, f value) :: rest else (key, value) :: updateEntry name default f rest

namespace Value

def isNull : Value ν → Bool
  | .null => true
  | _ => false

def isObject : Value ν → Bool
  | .object _ => true
  | _ => false

/-- The value one step inside another. -/
def child : Step → Value ν → Option (Value ν)
  | .member name, .object fields => fields.lookup name
  | .element index, .array items => items[index]?
  | _, _ => none

/-- The value at a location. -/
def locate : Location → Value ν → Option (Value ν)
  | [], value => some value
  | step :: rest, value => (value.child step).bind (locate rest)

@[simp] theorem locate_nil (value : Value ν) : value.locate [] = some value := rfl

@[simp] theorem locate_cons (step : Step) (rest : Location) (value : Value ν) :
    value.locate (step :: rest) = (value.child step).bind (locate rest) := rfl

/-- Every object names a member once, at every depth. -/
inductive Distinct : Value ν → Prop
  | null : Distinct .null
  | bool (b : Bool) : Distinct (.bool b)
  | number (n : ν) : Distinct (.number n)
  | string (s : String) : Distinct (.string s)
  | array {items : List (Value ν)} (inner : ∀ item ∈ items, Distinct item) : Distinct (.array items)
  | object {fields : List (String × Value ν)} (names : (fields.map (·.1)).Nodup)
      (inner : ∀ entry ∈ fields, Distinct entry.2) : Distinct (.object fields)

/-- Induction over a value and what it holds. -/
@[elab_as_elim]
theorem induct {motive : Value ν → Prop} (null : motive .null) (bool : ∀ b, motive (.bool b))
    (number : ∀ n, motive (.number n)) (string : ∀ s, motive (.string s))
    (array : ∀ items, (∀ item ∈ items, motive item) → motive (.array items))
    (object : ∀ fields, (∀ entry ∈ fields, motive entry.2) → motive (.object fields)) :
    ∀ value, motive value
  | .null => null
  | .bool b => bool b
  | .number n => number n
  | .string s => string s
  | .array items => array items fun item _ => induct null bool number string array object item
  | .object fields => object fields fun entry _ => induct null bool number string array object entry.2
  termination_by value => sizeOf value
  decreasing_by
  · have := List.sizeOf_lt_of_mem ‹item ∈ items›
    simp only [Value.array.sizeOf_spec]
    omega
  · have hlt := List.sizeOf_lt_of_mem ‹entry ∈ fields›
    obtain ⟨key, value⟩ := entry
    simp only [Value.object.sizeOf_spec, Prod.mk.sizeOf_spec] at hlt ⊢
    omega

end Value

/-! ### Members -/

theorem lookup_cons (k key : String) (value : α) (rest : List (String × α)) :
    ((k, value) :: rest).lookup key = if key = k then some value else rest.lookup key := by
  rw [List.lookup_cons]
  by_cases h : key = k
  · simp [h]
  · rw [if_neg h, beq_false_of_ne h]

theorem lookup_updateEntry (name : String) (default : α) (f : α → α) :
    ∀ (fields : List (String × α)) (key : String),
      (updateEntry name default f fields).lookup key =
        if key = name then some (f ((fields.lookup name).getD default)) else fields.lookup key
  | [], key => by rw [updateEntry, lookup_cons]; rfl
  | (k, value) :: rest, key => by
    rw [updateEntry]
    have ih := lookup_updateEntry name default f rest key
    by_cases hk : k = name
    · subst hk
      rw [if_pos rfl, lookup_cons, lookup_cons, lookup_cons, if_pos rfl]
      by_cases hkey : key = k
      · rw [if_pos hkey, if_pos hkey, Option.getD_some]
      · rw [if_neg hkey, if_neg hkey, if_neg hkey]
    · rw [if_neg hk, lookup_cons, ih, lookup_cons, lookup_cons, if_neg (Ne.symm hk)]
      by_cases hkey : key = k
      · rw [if_pos hkey, if_pos hkey, if_neg (hkey ▸ hk)]
      · rw [if_neg hkey, if_neg hkey]

end Vyuh.Json
