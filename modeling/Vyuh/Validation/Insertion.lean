import Vyuh.Validation.Report

/-! One insertion into a partly built report. An insertion follows a location: `Field` and `Key` are
    the same step, and an issue of the whole value goes to a member of its own. -/

namespace Vyuh.Validation
open Json ValidationReport

variable {ν : Type}

/-- The step into JSON a segment names. -/
def PathSeg.step : PathSeg → Step
  | .field name => .member name
  | .key name => .member name
  | .index idx => .element idx

/-- The segments an issue is filed under. -/
def Path.filed (path : Path) : List PathSeg :=
  if path.isRoot then [.field "non_field_errors"] else path.segs

/-- Where the nested report keeps the messages of a path. -/
def Path.location (path : Path) : Location := path.filed.map (·.step)

/-- One step of an insertion. -/
def insertStep (last : Bool) (deeper : Value ν → Value ν) (msg : Value ν) : Step → Value ν → Value ν
  | .member name => insertMember name last deeper msg
  | .element idx => insertElement idx last deeper msg

/-- The insertion of a message at a location. -/
def place (msg : Value ν) : Location → Value ν → Value ν
  | [], value => value
  | step :: rest, value => insertStep rest.isEmpty (place msg rest) msg step value

theorem insertAt_eq (msg : Value ν) (segs : List PathSeg) :
    insertAt msg segs = place msg (segs.map (·.step)) := by
  funext value
  induction segs generalizing value with
  | nil => rfl
  | cons seg rest ih =>
    have hdeeper : insertAt msg rest = place msg (rest.map (·.step)) := funext ih
    have hlast : (rest.map (·.step)).isEmpty = rest.isEmpty := by cases rest <;> rfl
    rw [List.map_cons, place, hlast, ← hdeeper]
    cases seg <;> rfl

/-- Every issue is an insertion at its location. -/
theorem toNestedWith_eq (render : ValidationError → Value ν) (report : ValidationReport) :
    report.toNestedWith render = report.issues.foldl
      (fun root issue => place (render issue.invalid) issue.path.location root) (.object []) := by
  unfold toNestedWith
  congr 1
  funext root issue
  unfold Path.location Path.filed
  split
  · rfl
  · exact congrFun (insertAt_eq _ _) root

/-! ### What one step does to a child -/

theorem child_insertMember (name : String) (last : Bool) (deeper : Value ν → Value ν) (msg : Value ν)
    (fields : List (String × Value ν)) (key : String) :
    (insertMember name last deeper msg (.object fields)).child (.member key) =
      if key = name then
        some (if last then pushMessage msg ((fields.lookup name).getD (.array []))
          else deeper (asObject ((fields.lookup name).getD (.object []))))
      else fields.lookup key := by
  cases last <;> simp [insertMember, Value.child, lookup_updateEntry]

/-- The elements of a value that `insertElement` keeps. -/
def elements : Value ν → List (Value ν)
  | .array items => items
  | _ => []

/-- What `insertElement` makes of the element it meets. -/
def renewElement (last : Bool) (deeper : Value ν → Value ν) (msg elem : Value ν) : Value ν :=
  if last then pushMessage msg (if elem.isNull then .array [] else elem) else deeper (asObject elem)

theorem insertElement_eq (idx : ℕ) (last : Bool) (deeper : Value ν → Value ν) (msg value : Value ν) :
    insertElement idx last deeper msg value =
      Value.array ((elements value ++
        List.replicate (idx + 1 - (elements value).length) Value.null).modify idx
          (renewElement last deeper msg)) := by
  cases value <;> rfl

/-- Only the elements of the value matter. -/
theorem insertElement_congr {value value' : Value ν} (h : elements value = elements value') (idx : ℕ)
    (last : Bool) (deeper : Value ν → Value ν) (msg : Value ν) :
    insertElement idx last deeper msg value = insertElement idx last deeper msg value' := by
  rw [insertElement_eq, insertElement_eq, h]

/-- The padded elements: those there were, then nulls up to the index. -/
theorem getElem?_padded (items : List (Value ν)) (idx i : ℕ) :
    (items ++ List.replicate (idx + 1 - items.length) Value.null)[i]? =
      if i < items.length then items[i]? else if i ≤ idx then some .null else none := by
  rw [List.getElem?_append]
  split
  · rfl
  · rw [List.getElem?_replicate]
    split
    · rw [if_pos (by omega)]
    · rw [if_neg (by omega)]

theorem child_insertElement_self (idx : ℕ) (last : Bool) (deeper : Value ν → Value ν)
    (msg value : Value ν) :
    (insertElement idx last deeper msg value).child (.element idx) =
      some (renewElement last deeper msg ((elements value)[idx]?.getD .null)) := by
  rw [insertElement_eq, Value.child, List.getElem?_modify, getElem?_padded]
  by_cases h : idx < (elements value).length
  · simp [h]
  · simp [h]

theorem child_insertElement_of_ne {idx i : ℕ} (h : i ≠ idx) (last : Bool)
    (deeper : Value ν → Value ν) (msg value : Value ν) :
    (insertElement idx last deeper msg value).child (.element i) = (elements value)[i]? ∨
      (elements value)[i]? = none ∧
        (insertElement idx last deeper msg value).child (.element i) = some .null := by
  have hsame : idx ≠ i := Ne.symm h
  rw [insertElement_eq, Value.child, List.getElem?_modify, getElem?_padded]
  by_cases hlt : i < (elements value).length
  · simp [hlt, hsame]
  · by_cases hpad : i ≤ idx
    · right
      simp [hlt, hpad, hsame]
    · left
      simp [hlt, hpad]

end Vyuh.Validation
