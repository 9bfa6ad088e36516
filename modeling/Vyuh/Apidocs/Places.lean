import Vyuh.Apidocs.Transform

/-! Rewriting at labelled places. The steps down to a part of a value give it a label, and whether the part is
    rewritten depends on the label alone: `transform_for_openapi` is such a rewriting, and so is the one that the
    positions of schemas ask for. -/

namespace Vyuh.Apidocs

open Lib Json

variable {ν κ κ' : Type}

/-- Labels of the places of a value. Nothing is rewritten at the idle label or below it, elements of an array are
    treated alike, and the three members that a schema's own rewriting sets are idle. -/
structure Labels (κ : Type) where
  next : κ → Step → κ
  rewrites : κ → Bool
  idle : κ
  next_idle : ∀ step, next idle step = idle
  rewrites_idle : rewrites idle = false
  next_element : ∀ label i j, next label (.element i) = next label (.element j)
  plain : ∀ label, rewrites label = true → ∀ key ∈ ["type", "$ref", "nullable"], next label (.member key) = idle

mutual

/-- Rewrites a value at every place whose label asks for it. -/
def rewriteAt (L : Labels κ) : κ → Value ν → Value ν
  | label, .bool b => if L.rewrites label then ofBool b else .bool b
  | label, .object fields =>
    .object (if L.rewrites label then rewriteSelf fields (rewriteFields L label fields)
      else rewriteFields L label fields)
  | label, .array items => .array (rewriteItems L (L.next label (.element 0)) items)
  | _, .null => .null
  | _, .number n => .number n
  | _, .string s => .string s

def rewriteItems (L : Labels κ) : κ → List (Value ν) → List (Value ν)
  | _, [] => []
  | label, item :: rest => rewriteAt L label item :: rewriteItems L label rest

def rewriteFields (L : Labels κ) : κ → List (String × Value ν) → List (String × Value ν)
  | _, [] => []
  | label, (key, value) :: rest => (key, rewriteAt L (L.next label (.member key)) value) :: rewriteFields L label rest

end

theorem rewriteItems_eq (L : Labels κ) (label : κ) (items : List (Value ν)) :
    rewriteItems L label items = items.map (rewriteAt L label) := by
  induction items with
  | nil => rfl
  | cons item rest ih => rw [rewriteItems, ih, List.map_cons]

theorem rewriteFields_eq (L : Labels κ) (label : κ) (fields : List (String × Value ν)) :
    rewriteFields L label fields =
      fields.map fun entry => (entry.1, rewriteAt L (L.next label (.member entry.1)) entry.2) := by
  induction fields with
  | nil => rfl
  | cons entry rest ih => rw [rewriteFields, ih, List.map_cons]

theorem lookup_rewriteFields (L : Labels κ) (label : κ) (fields : List (String × Value ν)) (name : String) :
    (rewriteFields L label fields).lookup name =
      (fields.lookup name).map (rewriteAt L (L.next label (.member name))) := by
  rw [rewriteFields_eq]
  exact lookup_mapMembers (fun key => rewriteAt L (L.next label (.member key))) name fields

theorem rewriteAt_idle (L : Labels κ) (value : Value ν) : rewriteAt L L.idle value = value := by
  induction value using Value.induct with
  | bool b => rw [rewriteAt, L.rewrites_idle, if_neg Bool.false_ne_true]
  | array items ih =>
    rw [rewriteAt, rewriteItems_eq, L.next_idle, List.map_congr_left ih, List.map_id']
  | object fields ih =>
    rw [rewriteAt, L.rewrites_idle, if_neg Bool.false_ne_true, rewriteFields_eq]
    have hsame : (fields.map fun entry => (entry.1, rewriteAt L (L.next L.idle (.member entry.1)) entry.2)) =
        fields.map id := List.map_congr_left fun entry hmem => by rw [L.next_idle, ih entry hmem]; rfl
    rw [hsame, List.map_id]
  | _ => rw [rewriteAt]

/-! ### The places the code rewrites -/

/-- How the transformation takes a value: as a schema, as the members of `properties`, as the list of a
    composition, or not at all. -/
inductive Visit
  | transformed
  | members
  | elements
  | untouched
  deriving DecidableEq, Repr

namespace Visit

def ofKeyword (key : String) : Visit :=
  if key = "properties" then .members
  else if key ∈ nestedKeywords then .transformed
  else if key ∈ compositionKeywords then .elements
  else .untouched

def next : Visit → Step → Visit
  | .transformed, .member key => ofKeyword key
  | .transformed, .element _ => .transformed
  | .members, .member _ => .transformed
  | .elements, .element _ => .transformed
  | _, _ => .untouched

def apply : Visit → Value ν → Value ν
  | .transformed => transformForOpenapi
  | .members => transformProperties
  | .elements => transformComposition
  | .untouched => id

theorem apply_ofKeyword (key : String) (value : Value ν) : (ofKeyword key).apply value = transformMember key value := by
  rw [ofKeyword, transformMember]
  split_ifs <;> rfl

end Visit

def visits : Labels Visit where
  next := Visit.next
  rewrites visit := visit = .transformed
  idle := .untouched
  next_idle step := by cases step <;> rfl
  rewrites_idle := by decide
  next_element visit i j := by cases visit <;> rfl
  plain visit h key hkey := by
    obtain rfl := of_decide_eq_true h
    fin_cases hkey <;> rfl

/-- The places where schemas stand. -/
def positions : Labels Position where
  next := Position.next
  rewrites := Position.holdsSchema
  idle := .data
  next_idle := Position.next_data
  rewrites_idle := rfl
  next_element position i j := by cases position <;> rfl
  plain position h key hkey := by
    rw [Position.next_member h]
    fin_cases hkey <;> decide

/-- The transformation rewrites where its visits say. -/
theorem apply_eq_rewriteAt (value : Value ν) : ∀ visit : Visit, visit.apply value = rewriteAt visits visit value := by
  induction value using Value.induct with
  | bool b => intro visit; cases visit <;> rfl
  | array items ih =>
    have hsame : items.map (rewriteAt visits .untouched) = items :=
      (List.map_congr_left fun item _ => rewriteAt_idle visits item).trans (List.map_id' items)
    have hitems : transformItems items = items.map (rewriteAt visits .transformed) :=
      (transformItems_eq items).trans (List.map_congr_left fun item hitem => ih item hitem .transformed)
    intro visit
    rw [rewriteAt, rewriteItems_eq]
    cases visit with
    | transformed => exact congrArg Value.array hitems
    | members => exact congrArg Value.array hsame.symm
    | elements => exact congrArg Value.array hitems
    | untouched => exact congrArg Value.array hsame.symm
  | object fields ih =>
    have hsame : (fields.map fun entry => (entry.1, rewriteAt visits .untouched entry.2)) = fields :=
      (List.map_congr_left fun entry _ => congrArg (Prod.mk entry.1) (rewriteAt_idle visits entry.2)).trans
        (List.map_id' fields)
    intro visit
    rw [rewriteAt, rewriteFields_eq]
    cases visit with
    | transformed =>
      have hmembers : transformMembers fields =
          fields.map fun entry => (entry.1, rewriteAt visits (Visit.ofKeyword entry.1) entry.2) := by
        rw [transformMembers_eq]
        exact List.map_congr_left fun entry hmem =>
          Prod.ext rfl ((Visit.apply_ofKeyword _ _).symm.trans (ih entry hmem _))
      exact congrArg (fun members => Value.object (rewriteSelf fields members)) hmembers
    | members =>
      have hentries : transformEntries fields =
          fields.map fun entry => (entry.1, rewriteAt visits .transformed entry.2) := by
        rw [transformEntries_eq]
        exact List.map_congr_left fun entry hmem => Prod.ext rfl (ih entry hmem .transformed)
      exact congrArg Value.object hentries
    | elements => exact congrArg Value.object hsame.symm
    | untouched => exact congrArg Value.object hsame.symm
  | _ => intro visit; cases visit <;> rfl

theorem transform_eq_rewriteAt (value : Value ν) :
    transformForOpenapi value = rewriteAt visits .transformed value := apply_eq_rewriteAt value .transformed

end Vyuh.Apidocs
