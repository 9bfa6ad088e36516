import Mathlib
import Vyuh.Json.Text
import Vyuh.Lib.Sorting

/-! Values up to the order of members (`Same`), and the value that stands for all of them: the one with
    its members in order of their names, at every depth (`canonicalValue` of `submission.rs`). -/

namespace Vyuh.Json
open Lib

variable {ν : Type}

/-- Equality up to the order of members at every depth; the order of elements counts. -/
inductive Same : Value ν → Value ν → Prop
  | null : Same .null .null
  | bool (b : Bool) : Same (.bool b) (.bool b)
  | number (n : ν) : Same (.number n) (.number n)
  | string (s : String) : Same (.string s) (.string s)
  | array {items items' : List (Value ν)} (length : items.length = items'.length)
      (inner : ∀ (i : ℕ) (item item' : Value ν), items[i]? = some item → items'[i]? = some item' →
        Same item item') :
      Same (.array items) (.array items')
  | object {fields fields' : List (String × Value ν)}
      (names : ∀ name, (fields.lookup name).isSome = (fields'.lookup name).isSome)
      (inner : ∀ (name : String) (value value' : Value ν), fields.lookup name = some value →
        fields'.lookup name = some value' → Same value value') :
      Same (.object fields) (.object fields')

/-- Members by name; `sort_by` is stable. -/
def sortKeys (fields : List (String × Value ν)) : List (String × Value ν) :=
  fields.insertionSort fun left right => left.1 ≤ right.1

mutual

/-- Recursively sorts object keys while retaining array order and scalar values. The members are sorted
    after their values here, and before them in the source: see `canonicalValue_object`. -/
def canonicalValue : Value ν → Value ν
  | .array items => .array (canonicalItems items)
  | .object fields => .object (sortKeys (canonicalFields fields))
  | .null => .null
  | .bool b => .bool b
  | .number n => .number n
  | .string s => .string s

def canonicalItems : List (Value ν) → List (Value ν)
  | [] => []
  | item :: rest => canonicalValue item :: canonicalItems rest

def canonicalFields : List (String × Value ν) → List (String × Value ν)
  | [] => []
  | (key, value) :: rest => (key, canonicalValue value) :: canonicalFields rest

end

theorem canonicalItems_eq (items : List (Value ν)) : canonicalItems items = items.map canonicalValue := by
  induction items with
  | nil => rfl
  | cons item rest ih => rw [canonicalItems, ih, List.map_cons]

theorem canonicalFields_eq (fields : List (String × Value ν)) :
    canonicalFields fields = fields.map fun entry => (entry.1, canonicalValue entry.2) := by
  induction fields with
  | nil => rfl
  | cons entry rest ih => rw [canonicalFields, ih, List.map_cons]

/-- Sorting the members and then their values, as the source does, gives the same object. -/
theorem canonicalValue_object (fields : List (String × Value ν)) :
    canonicalValue (.object fields) =
      .object ((sortKeys fields).map fun entry => (entry.1, canonicalValue entry.2)) := by
  rw [canonicalValue, canonicalFields_eq]
  refine congrArg Value.object (List.map_insertionSort _ _ _ _ ?_).symm
  exact fun _ _ _ _ => Iff.rfl

/-! ### Members by name -/

theorem mem_of_lookup {α : Type} {fields : List (String × α)} {name : String} {value : α}
    (h : fields.lookup name = some value) : (name, value) ∈ fields := by
  obtain ⟨front, back, rfl, -⟩ := List.lookup_eq_some_iff.mp h
  simp

/-- With distinct names a member is found under its name. -/
theorem lookup_of_mem {α : Type} : ∀ {fields : List (String × α)} {name : String} {value : α},
    (fields.map (·.1)).Nodup → (name, value) ∈ fields → fields.lookup name = some value
  | [], _, _, _, h => (nomatch h)
  | (key, entry) :: rest, name, value, hnodup, h => by
    rw [List.map_cons, List.nodup_cons] at hnodup
    rw [lookup_cons]
    rcases List.mem_cons.mp h with heq | hrest
    · obtain ⟨rfl, rfl⟩ := Prod.mk.inj heq
      rw [if_pos rfl]
    · have hmem : name ∈ rest.map (·.1) := List.mem_map.mpr ⟨_, hrest, rfl⟩
      have hne : name ≠ key := fun hname => hnodup.1 (hname ▸ hmem)
      rw [if_neg hne]
      exact lookup_of_mem hnodup.2 hrest

theorem perm_sortKeys (fields : List (String × Value ν)) : (sortKeys fields).Perm fields :=
  List.perm_insertionSort _ fields

/-- The order of members does not matter to what is found. -/
theorem lookup_perm {α : Type} {fields fields' : List (String × α)} (hperm : fields.Perm fields')
    (hnodup : (fields.map (·.1)).Nodup) (name : String) : fields.lookup name = fields'.lookup name := by
  have hnodup' : (fields'.map (·.1)).Nodup := (hperm.map _).nodup_iff.mp hnodup
  cases hvalue : fields.lookup name with
  | some value => rw [lookup_of_mem hnodup' (hperm.mem_iff.mp (mem_of_lookup hvalue))]
  | none =>
    cases hvalue' : fields'.lookup name with
    | none => rfl
    | some value =>
      rw [lookup_of_mem hnodup (hperm.mem_iff.mpr (mem_of_lookup hvalue'))] at hvalue
      exact (nomatch hvalue)

theorem lookup_map {α β : Type} (f : α → β) (name : String) : ∀ fields : List (String × α),
    (fields.map fun entry => (entry.1, f entry.2)).lookup name = (fields.lookup name).map f
  | [] => rfl
  | (key, value) :: rest => by
    rw [List.map_cons, lookup_cons, lookup_cons, lookup_map f name rest]
    split <;> rfl

theorem names_map {α β : Type} (f : α → β) (fields : List (String × α)) :
    (fields.map fun entry => (entry.1, f entry.2)).map (·.1) = fields.map (·.1) := by
  rw [List.map_map]
  rfl

/-! ### `Same` is an equivalence -/

theorem Same.refl (value : Value ν) : Same value value := by
  induction value using Value.induct with
  | null => exact .null
  | bool b => exact .bool b
  | number n => exact .number n
  | string s => exact .string s
  | array items ih =>
    refine .array rfl fun i item item' hitem hitem' => ?_
    obtain rfl := Option.some.inj (hitem.symm.trans hitem')
    exact ih item (List.mem_of_getElem? hitem)
  | object fields ih =>
    refine .object (fun _ => rfl) fun name value value' hvalue hvalue' => ?_
    obtain rfl := Option.some.inj (hvalue.symm.trans hvalue')
    exact ih _ (mem_of_lookup hvalue)

/-- An object is the same with its members in another order. -/
theorem Same.of_perm {fields fields' : List (String × Value ν)} (hperm : fields.Perm fields')
    (hnodup : (fields.map (·.1)).Nodup) : Same (.object fields) (.object fields') := by
  refine .object (fun name => by rw [lookup_perm hperm hnodup]) fun name value value' hvalue hvalue' => ?_
  rw [lookup_perm hperm hnodup, hvalue'] at hvalue
  obtain rfl := Option.some.inj hvalue
  exact .refl value'

theorem Same.symm {value value' : Value ν} (h : Same value value') : Same value' value := by
  induction h with
  | null => exact .null
  | bool b => exact .bool b
  | number n => exact .number n
  | string s => exact .string s
  | array length inner ih =>
    exact .array length.symm fun i item item' hitem hitem' => ih i item' item hitem' hitem
  | object names inner ih =>
    exact .object (fun name => (names name).symm) fun name value value' hvalue hvalue' =>
      ih name value' value hvalue' hvalue

theorem Same.trans {first second third : Value ν} (h : Same first second) (h' : Same second third) :
    Same first third := by
  induction h generalizing third with
  | null => exact h'
  | bool b => exact h'
  | number n => exact h'
  | string s => exact h'
  | array length inner ih =>
    cases h' with
    | array length' inner' =>
      refine .array (length.trans length') fun i item item' hitem hitem' => ?_
      obtain ⟨hlt, -⟩ := List.getElem?_eq_some_iff.mp hitem
      have hmiddle := List.getElem?_eq_getElem (length ▸ hlt)
      exact ih i item _ hitem hmiddle (inner' i _ item' hmiddle hitem')
  | @object fields fields' names inner ih =>
    cases h' with
    | object names' inner' =>
      refine .object (fun name => (names name).trans (names' name))
        fun name value value' hvalue hvalue' => ?_
      have hsome : (fields'.lookup name).isSome = true := by rw [← names name, hvalue]; rfl
      obtain ⟨middle, hmiddle⟩ := Option.isSome_iff_exists.mp hsome
      exact ih name value middle hvalue hmiddle (inner' name middle value' hmiddle hvalue')

/-! ### Canonical values -/

theorem Value.Distinct.canonical {value : Value ν} (h : value.Distinct) : (canonicalValue value).Distinct := by
  induction h with
  | null => exact .null
  | bool b => exact .bool b
  | number n => exact .number n
  | string s => exact .string s
  | @array items _ ih =>
    rw [canonicalValue, canonicalItems_eq]
    refine .array fun item hmem => ?_
    obtain ⟨item, hitem, rfl⟩ := List.mem_map.mp hmem
    exact ih item hitem
  | @object fields names _ ih =>
    rw [canonicalValue, canonicalFields_eq]
    have hperm := perm_sortKeys (fields.map fun entry => (entry.1, canonicalValue entry.2))
    refine .object ?_ fun entry hmem => ?_
    · rw [(hperm.map _).nodup_iff, names_map]
      exact names
    · obtain ⟨entry, hentry, rfl⟩ := List.mem_map.mp (hperm.mem_iff.mp hmem)
      exact ih entry hentry

/-- What is found in a canonical object. -/
theorem lookup_canonical {fields : List (String × Value ν)} (names : (fields.map (·.1)).Nodup)
    (name : String) :
    (sortKeys (canonicalFields fields)).lookup name = (fields.lookup name).map canonicalValue := by
  have hnodup : ((canonicalFields fields).map (·.1)).Nodup := by
    rw [canonicalFields_eq, names_map]
    exact names
  have hperm := perm_sortKeys (canonicalFields fields)
  rw [lookup_perm hperm ((hperm.map _).nodup_iff.mpr hnodup), canonicalFields_eq, lookup_map]

/-- A value is its canonical value up to the order of members. -/
theorem same_canonical {value : Value ν} (h : value.Distinct) : Same value (canonicalValue value) := by
  induction h with
  | null => exact .null
  | bool b => exact .bool b
  | number n => exact .number n
  | string s => exact .string s
  | @array items _ ih =>
    rw [canonicalValue, canonicalItems_eq]
    refine .array (List.length_map _).symm fun i item item' hitem hitem' => ?_
    rw [List.getElem?_map, hitem] at hitem'
    obtain rfl := Option.some.inj hitem'
    exact ih item (List.mem_of_getElem? hitem)
  | @object fields names _ ih =>
    rw [canonicalValue]
    refine .object (fun name => ?_) fun name value value' hvalue hvalue' => ?_
    · rw [lookup_canonical names, Option.isSome_map]
    · rw [lookup_canonical names, hvalue] at hvalue'
      obtain rfl := Option.some.inj hvalue'
      exact ih _ (mem_of_lookup hvalue)

/-- Objects with sorted distinct names are equal when the same is found in both. -/
theorem sorted_ext {fields fields' : List (String × Value ν)} (hnodup : (fields.map (·.1)).Nodup)
    (hnodup' : (fields'.map (·.1)).Nodup) (hlookup : ∀ name, fields.lookup name = fields'.lookup name) :
    sortKeys fields = sortKeys fields' := by
  have hperm : fields.Perm fields' := by
    rw [List.perm_ext_iff_of_nodup (List.Nodup.of_map _ hnodup) (List.Nodup.of_map _ hnodup')]
    rintro ⟨name, value⟩
    exact ⟨fun hmem => mem_of_lookup (hlookup name ▸ lookup_of_mem hnodup hmem),
      fun hmem => mem_of_lookup ((hlookup name).symm ▸ lookup_of_mem hnodup' hmem)⟩
  have hsorted := perm_sortKeys fields
  refine List.Perm.eq_of_pairwise (fun entry entry' hmem hmem' hle hle' => ?_)
    (List.pairwise_insertionSort _ fields) (List.pairwise_insertionSort _ fields')
    (hsorted.trans (hperm.trans (perm_sortKeys fields').symm))
  obtain ⟨name, value⟩ := entry
  obtain ⟨name', value'⟩ := entry'
  obtain rfl : name = name' := le_antisymm hle hle'
  have hfound := lookup_of_mem hnodup (hsorted.mem_iff.mp hmem)
  rw [hlookup, lookup_of_mem hnodup' ((perm_sortKeys fields').mem_iff.mp hmem')] at hfound
  rw [Option.some.inj hfound]

/-- Values that are the same have one canonical value. -/
theorem Same.canonical {value value' : Value ν} (h : Same value value') (hd : value.Distinct)
    (hd' : value'.Distinct) : canonicalValue value = canonicalValue value' := by
  induction h with
  | null => rfl
  | bool b => rfl
  | number n => rfl
  | string s => rfl
  | @array items items' length inner ih =>
    cases hd with
    | array hinner =>
      cases hd' with
      | array hinner' =>
        rw [canonicalValue, canonicalValue, canonicalItems_eq, canonicalItems_eq]
        refine congrArg Value.array (List.ext_getElem? fun i => ?_)
        rw [List.getElem?_map, List.getElem?_map]
        by_cases hlt : i < items.length
        · have hitem := List.getElem?_eq_getElem hlt
          have hitem' := List.getElem?_eq_getElem (length ▸ hlt)
          rw [hitem, hitem']
          exact congrArg some (ih i _ _ hitem hitem' (hinner _ (List.mem_of_getElem? hitem))
            (hinner' _ (List.mem_of_getElem? hitem')))
        · rw [List.getElem?_eq_none (by omega), List.getElem?_eq_none (by omega)]
  | @object fields fields' names inner ih =>
    cases hd with
    | object hnames hinner =>
      cases hd' with
      | object hnames' hinner' =>
        rw [canonicalValue, canonicalValue]
        refine congrArg Value.object (sorted_ext ?_ ?_ fun name => ?_)
        · rw [canonicalFields_eq, names_map]
          exact hnames
        · rw [canonicalFields_eq, names_map]
          exact hnames'
        · rw [canonicalFields_eq, canonicalFields_eq, lookup_map, lookup_map]
          have hname := names name
          cases hvalue : fields.lookup name with
          | none =>
            rw [hvalue] at hname
            cases hvalue' : fields'.lookup name with
            | none => rfl
            | some value' => rw [hvalue'] at hname; exact (nomatch hname)
          | some value =>
            rw [hvalue] at hname
            obtain ⟨value', hvalue'⟩ := Option.isSome_iff_exists.mp hname.symm
            rw [hvalue']
            exact congrArg some (ih name value value' hvalue hvalue'
              (hinner _ (mem_of_lookup hvalue)) (hinner' _ (mem_of_lookup hvalue')))

/-- Two values are the same when their canonical values are equal. -/
theorem canonical_eq_iff {value value' : Value ν} (hd : value.Distinct) (hd' : value'.Distinct) :
    canonicalValue value = canonicalValue value' ↔ Same value value' := by
  refine ⟨fun heq => ?_, fun h => h.canonical hd hd'⟩
  have hsame := same_canonical hd
  rw [heq] at hsame
  exact hsame.trans (same_canonical hd').symm

theorem canonical_idem {value : Value ν} (hd : value.Distinct) :
    canonicalValue (canonicalValue value) = canonicalValue value :=
  ((same_canonical hd).canonical hd hd.canonical).symm

end Vyuh.Json
