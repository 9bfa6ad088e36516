import Mathlib
import Vyuh.Validation.Nested

/-! What a report loses when its locations are in each other's way. `messages` counts the messages
    kept at a location. An insertion adds at most one there, and only at its own location; one that
    passes through an array further in leaves none of the messages filed below that array before.
    A message that is missing once is missing in the end. -/

namespace Vyuh.Validation
open Json ValidationReport

variable {ν : Type}
variable {rest : Location} {render : ValidationError → Value ν}

/-- A rendered failure: not null, and with no array at any location. -/
def IsMessage (value : Value ν) : Prop :=
  value.isNull = false ∧ ∀ location items, value.locate location ≠ some (.array items)

open Classical in
/-- The messages of an array. -/
noncomputable def countMessages (items : List (Value ν)) : ℕ :=
  items.countP fun item => decide (IsMessage item)

/-- The messages a value keeps at a location. -/
noncomputable def messages (location : Location) (value : Value ν) : ℕ :=
  match value.locate location with
  | some (.array items) => countMessages items
  | _ => 0

/-! ### Counting -/

theorem messages_cons (step : Step) (rest : Location) (value : Value ν) :
    messages (step :: rest) value = ((value.child step).map (messages rest)).getD 0 := by
  unfold messages
  rw [Value.locate_cons]
  cases value.child step <;> rfl

theorem messages_of_child {step : Step} {value inner : Value ν} (h : value.child step = some inner) :
    messages (step :: rest) value = messages rest inner := by
  rw [messages_cons, h]
  rfl

theorem messages_of_no_child {step : Step} {value : Value ν} (h : value.child step = none) :
    messages (step :: rest) value = 0 := by
  rw [messages_cons, h]
  rfl

theorem messages_null (location : Location) : messages location (.null : Value ν) = 0 := by
  cases location with
  | nil => rfl
  | cons step rest => cases step <;> rfl

theorem messages_empty_object (location : Location) : messages location (.object [] : Value ν) = 0 := by
  cases location with
  | nil => rfl
  | cons step rest => cases step <;> rfl

theorem messages_empty_array (location : Location) : messages location (.array [] : Value ν) = 0 := by
  cases location with
  | nil => rfl
  | cons step rest => cases step <;> rfl

/-- A message holds no further messages. -/
theorem IsMessage.messages_eq {msg : Value ν} (h : IsMessage msg) (location : Location) :
    messages location msg = 0 := by
  unfold messages
  split
  · next items heq => exact absurd heq (h.2 location items)
  · rfl

theorem messages_asObject_le (location : Location) (value : Value ν) :
    messages location (asObject value) ≤ messages location value := by
  unfold asObject
  split
  · exact Nat.le_refl _
  · rw [messages_empty_object]
    exact Nat.zero_le _

theorem countMessages_all {items : List (Value ν)} (h : ∀ item ∈ items, IsMessage item) :
    countMessages items = items.length := by
  rw [countMessages, List.countP_eq_length]
  exact fun item hmem => by simpa using h item hmem

/-- Rewriting an element into something that is a message only if it was one adds none. -/
theorem countMessages_modify_le {f : Value ν → Value ν} (hf : ∀ v, IsMessage (f v) → IsMessage v) :
    ∀ (items : List (Value ν)) (idx : ℕ), countMessages (items.modify idx f) ≤ countMessages items
  | [], idx => by simp
  | item :: items, 0 => by
    rw [List.modify_zero_cons]
    simp only [countMessages, List.countP_cons, decide_eq_true_eq]
    have h := hf item
    split <;> split <;> first | omega | simp_all
  | item :: items, idx + 1 => by
    rw [List.modify_succ_cons]
    have ih := countMessages_modify_le hf items idx
    simp only [countMessages, List.countP_cons] at ih ⊢
    omega

theorem countMessages_padded (items : List (Value ν)) (n : ℕ) :
    countMessages (items ++ List.replicate n .null) = countMessages items := by
  have hnull : ¬IsMessage (.null : Value ν) := fun h => (nomatch h.1)
  simp [countMessages, List.countP_append, List.countP_replicate, hnull]

/-- Pushing a message adds one to an array, and nothing anywhere else. -/
theorem messages_push_le {msg : Value ν} (hmsg : IsMessage msg) (value : Value ν) (location : Location) :
    messages location (pushMessage msg value) ≤
      messages location value + if location = [] then 1 else 0 := by
  cases value with
  | array items =>
    cases location with
    | nil => simp [pushMessage, messages, countMessages, List.countP_append, hmsg]
    | cons step rest =>
      cases step with
      | member name => exact Nat.zero_le _
      | element idx =>
        rw [if_neg (by simp), messages_cons, messages_cons]
        simp only [pushMessage, Value.child, List.getElem?_append]
        split
        · exact Nat.le_refl _
        · rw [List.getElem?_singleton]
          split
          · simp [hmsg.messages_eq]
          · simp
  | _ => exact Nat.le_add_right _ _

/-! ### What an insertion does at its first step -/

/-- The child an insertion goes through is made anew from what was there, unless a member is inserted
    into something that is no object: then nothing happens. -/
theorem place_self (msg : Value ν) (step : Step) (rest : Location) (value : Value ν) :
    (place msg (step :: rest) value = value ∧ value.child step = none) ∨
      ∃ old, (place msg (step :: rest) value).child step = some (placed msg rest old) ∧
        ∀ inner, old = some inner → value.child step = some inner := by
  cases step with
  | member name =>
    cases value with
    | object fields =>
      obtain ⟨fields', hplace, hlookup⟩ := place_object msg name rest fields
      refine .inr ⟨fields.lookup name, ?_, fun inner h => h⟩
      rw [hplace, Value.child, hlookup, if_pos rfl]
    | _ => exact .inl ⟨rfl, rfl⟩
  | element idx =>
    have hself := child_insertElement_self idx rest.isEmpty (place msg rest) msg value
    rw [renewElement_eq] at hself
    refine .inr ⟨_, hself, fun inner h => ?_⟩
    obtain ⟨hsome, -⟩ := Option.filter_eq_some_iff.mp h
    cases value with
    | array items => exact hsome
    | _ => cases hsome

/-- The other children keep their messages or lose them. -/
theorem place_other {step step' : Step} (hne : step' ≠ step) (msg : Value ν) (rest location : Location)
    (value : Value ν) :
    messages (step' :: location) (place msg (step :: rest) value) ≤ messages (step' :: location) value := by
  cases step with
  | member name =>
    cases value with
    | object fields =>
      obtain ⟨fields', hplace, hlookup⟩ := place_object msg name rest fields
      rw [hplace, messages_cons, messages_cons]
      cases step' with
      | member key =>
        have hkey : key ≠ name := fun heq => hne (heq ▸ rfl)
        simp [Value.child, hlookup, hkey]
      | element idx => exact Nat.le_refl _
    | _ => exact Nat.le_refl _
  | element idx =>
    show messages _ (insertElement idx rest.isEmpty (place msg rest) msg value) ≤ _
    cases step' with
    | member key =>
      rw [insertElement_eq, messages_cons]
      exact Nat.zero_le _
    | element i =>
      have hi : i ≠ idx := fun heq => hne (heq ▸ rfl)
      rcases child_insertElement_of_ne hi rest.isEmpty (place msg rest) msg value with heq | ⟨-, hnull⟩
      · rw [messages_cons, heq, messages_cons]
        cases value with
        | array items => exact Nat.le_refl _
        | _ => exact Nat.zero_le _
      · rw [messages_of_child hnull, messages_null]
        exact Nat.zero_le _

/-! ### No insertion is lost in an empty object -/

theorem locate_of_child {step : Step} {value inner : Value ν} (h : value.child step = some inner) :
    value.locate (step :: rest) = inner.locate rest := by
  rw [Value.locate_cons, h, Option.bind_some]

theorem place_fresh (msg : Value ν) : ∀ {location : Location}, location ≠ [] →
    ∃ items, (place msg location (.object [])).locate location = some (.array items)
  | [], hne => absurd rfl hne
  | step :: rest, _ => by
    have hchild : (place msg (step :: rest) (.object [])).child step = some (placed msg rest none) := by
      cases step with
      | member name =>
        obtain ⟨fields', hplace, hlookup⟩ := place_object msg name rest []
        rw [hplace, Value.child, hlookup, if_pos rfl, List.lookup_nil]
      | element idx =>
        have hself := child_insertElement_self idx rest.isEmpty (place msg rest) msg (.object [])
        rw [renewElement_eq] at hself
        exact hself
    rw [locate_of_child hchild]
    cases rest with
    | nil => exact ⟨[msg], rfl⟩
    | cons next tail => exact place_fresh msg (by simp)

theorem updateEntry_same {α : Type} {name : String} {default entry : α} {f : α → α} (hf : f entry = entry) :
    ∀ {fields : List (String × α)}, fields.lookup name = some entry →
      updateEntry name default f fields = fields
  | [], h => (nomatch h)
  | (key, value) :: rest, h => by
    rw [lookup_cons] at h
    rw [updateEntry]
    by_cases hkey : key = name
    · rw [if_pos hkey.symm] at h
      rw [if_pos hkey, Option.some.inj h, hf]
    · rw [if_neg (Ne.symm hkey)] at h
      rw [if_neg hkey, updateEntry_same hf h]

/-- What a new child holds is an array. -/
theorem placed_none (msg : Value ν) (rest : Location) :
    ∃ items, (placed msg rest none).locate rest = some (.array items) := by
  cases rest with
  | nil => exact ⟨[msg], rfl⟩
  | cons step tail => exact place_fresh msg (by simp)

/-- An insertion that leaves no array behind has changed nothing. -/
theorem place_eq_self {msg : Value ν} : ∀ {location : Location} {value : Value ν},
    (∀ l items, (place msg location value).locate l ≠ some (.array items)) →
    place msg location value = value
  | [], _, _ => rfl
  | .element idx :: rest, value, h => by
    have hplace : place msg (.element idx :: rest) value =
      insertElement idx rest.isEmpty (place msg rest) msg value := rfl
    rw [hplace, insertElement_eq] at h
    exact absurd rfl (h [] _)
  | .member name :: rest, value, h => by
    cases value with
    | object fields =>
      obtain ⟨fields', hplace, hlookup⟩ := place_object msg name rest fields
      have hinner : ∀ l items,
          (placed msg rest (fields.lookup name)).locate l ≠ some (.array items) := by
        intro l items heq
        refine h (.member name :: l) items ?_
        rw [hplace, Value.locate_cons, Value.child, hlookup, if_pos rfl, Option.bind_some, heq]
      cases hentry : fields.lookup name with
      | none =>
        rw [hentry] at hinner
        obtain ⟨items, hitems⟩ := placed_none msg rest
        exact absurd hitems (hinner _ _)
      | some entry =>
        rw [hentry] at hinner
        have hsame : placed msg rest (some entry) = entry := by
          cases rest with
          | nil =>
            cases entry with
            | array items => exact absurd rfl (hinner [] _)
            | _ => rfl
          | cons step tail =>
            cases entry with
            | object inner => exact place_eq_self hinner
            | _ =>
              obtain ⟨items, hitems⟩ := place_fresh msg (List.cons_ne_nil step tail)
              exact absurd hitems (hinner _ _)
        cases rest with
        | nil => exact congrArg Value.object (updateEntry_same hsame hentry)
        | cons step tail => exact congrArg Value.object (updateEntry_same hsame hentry)
    | _ => rfl

/-- An element that is a message after an insertion was one before. -/
theorem IsMessage.of_renewElement {msg value : Value ν}
    (h : IsMessage (renewElement rest.isEmpty (place msg rest) msg value)) : IsMessage value := by
  have hrenew := renewElement_eq msg rest (some value)
  rw [Option.getD_some] at hrenew
  rw [hrenew] at h
  cases rest with
  | nil =>
    cases value with
    | null => exact absurd rfl (h.2 [] _)
    | array items => exact absurd rfl (h.2 [] _)
    | _ => exact h
  | cons step tail =>
    cases value with
    | object fields =>
      have hsame : place msg (step :: tail) (.object fields) = .object fields := place_eq_self h.2
      have hmsg : IsMessage (place msg (step :: tail) (.object fields)) := h
      rwa [hsame] at hmsg
    | _ =>
      obtain ⟨items, hitems⟩ := place_fresh msg (List.cons_ne_nil step tail)
      exact absurd hitems (h.2 _ _)

/-! ### The count -/

/-- A child made anew has at most one message more, at the rest of the location. -/
theorem placed_messages_le {msg : Value ν} (hmsg : IsMessage msg)
    (ih : ∀ (value : Value ν) l,
      messages l (place msg rest value) ≤ messages l value + if l = rest then 1 else 0)
    (old : Option (Value ν)) (l : Location) :
    messages l (placed msg rest old) ≤
      (old.map (messages l)).getD 0 + if l = rest then 1 else 0 := by
  unfold placed
  cases rest with
  | nil =>
    rw [if_pos (by simp)]
    refine (messages_push_le hmsg _ l).trans (Nat.add_le_add_right ?_ _)
    cases old with
    | none => exact (messages_empty_array l).le
    | some value => exact Nat.le_refl _
  | cons step tail =>
    rw [if_neg (by simp)]
    refine (ih _ l).trans (Nat.add_le_add_right ((messages_asObject_le l _).trans ?_) _)
    cases old with
    | none => exact (messages_empty_object l).le
    | some value => exact Nat.le_refl _

/-- An insertion adds at most one message, and only at its own location. -/
theorem place_messages_le {msg : Value ν} (hmsg : IsMessage msg) :
    ∀ (location : Location) (value : Value ν) (l : Location),
      messages l (place msg location value) ≤ messages l value + if l = location then 1 else 0
  | [], _, _ => Nat.le_add_right _ _
  | step :: rest, value, [] => by
    rw [if_neg (by simp), Nat.add_zero]
    cases step with
    | member name =>
      cases value with
      | object fields =>
        obtain ⟨fields', hplace, -⟩ := place_object msg name rest fields
        rw [hplace]
        exact Nat.le_refl _
      | _ => exact Nat.le_refl _
    | element idx =>
      show messages [] (insertElement idx rest.isEmpty (place msg rest) msg value) ≤ _
      rw [insertElement_eq]
      have hof : ∀ v, IsMessage (renewElement rest.isEmpty (place msg rest) msg v) → IsMessage v :=
        fun v => IsMessage.of_renewElement
      have hle := countMessages_modify_le hof
        (elements value ++ List.replicate (idx + 1 - (elements value).length) .null) idx
      rw [countMessages_padded] at hle
      cases value with
      | array items => exact hle
      | _ => exact hle
  | step :: rest, value, first :: tail => by
    by_cases hstep : first = step
    · subst hstep
      rcases place_self msg first rest value with ⟨hsame, -⟩ | ⟨old, hchild, hold⟩
      · rw [hsame]
        exact Nat.le_add_right _ _
      · have hle := placed_messages_le hmsg (place_messages_le hmsg rest) old tail
        rw [messages_of_child hchild]
        refine hle.trans (Nat.add_le_add ?_ ?_)
        · cases old with
          | none => exact Nat.zero_le _
          | some inner =>
            rw [messages_of_child (hold inner rfl)]
            exact Nat.le_refl _
        · simp
    · exact (place_other hstep msg rest tail value).trans (Nat.le_add_right _ _)

/-- An insertion through an array further in leaves nothing of what was filed below it. -/
theorem place_through {msg : Value ν} (hmsg : IsMessage msg) (a b : ℕ) (p q : Location) :
    ∀ (pre : Location) (value : Value ν), pre ≠ [] →
      messages (pre ++ .element a :: p) (place msg (pre ++ .element b :: q) value) ≤
        if pre ++ .element a :: p = pre ++ .element b :: q then 1 else 0
  | [], _, hne => absurd rfl hne
  | step :: pre, value, _ => by
    have hcons : (step :: pre ++ .element a :: p = step :: pre ++ .element b :: q) ↔
        (pre ++ .element a :: p = pre ++ .element b :: q) := by simp
    rw [if_congr hcons rfl rfl, List.cons_append, List.cons_append]
    rcases place_self msg step (pre ++ .element b :: q) value with ⟨hsame, hnone⟩ | ⟨old, hchild, -⟩
    · rw [hsame, messages_of_no_child hnone]
      exact Nat.zero_le _
    · rw [messages_of_child hchild, placed, if_neg (by simp)]
      cases pre with
      | nil =>
        have hfresh : place msg (.element b :: q) (asObject (old.getD (.object []))) =
            place msg (.element b :: q) (.object []) := by
          show insertElement b q.isEmpty (place msg q) msg (asObject (old.getD (.object []))) =
            insertElement b q.isEmpty (place msg q) msg (.object [])
          refine insertElement_congr ?_ b q.isEmpty (place msg q) msg
          unfold asObject
          split
          · next hobject =>
            cases hval : old.getD (.object []) with
            | object fields => rfl
            | _ => rw [hval] at hobject; exact (nomatch hobject)
          · rfl
        rw [List.nil_append, List.nil_append, hfresh]
        have hle := place_messages_le hmsg (.element b :: q) (.object []) (.element a :: p)
        rwa [messages_empty_object, Nat.zero_add] at hle
      | cons next tail => exact place_through hmsg a b p q (next :: tail) _ (by simp)

/-! ### Reports -/

/-- The issues filed at a location. -/
def issuesAt (location : Location) (issues : List ValidationIssue) : ℕ :=
  issues.countP fun issue => issue.path.location = location

/-- The insertions of a list of issues add at most one message for each of them. -/
theorem fold_messages_le {render : ValidationError → Value ν} (hrender : ∀ error, IsMessage (render error))
    (l : Location) : ∀ (issues : List ValidationIssue) (root : Value ν),
      messages l (issues.foldl
        (fun root issue => place (render issue.invalid) issue.path.location root) root) ≤
      messages l root + issuesAt l issues
  | [], _ => Nat.le_refl _
  | issue :: issues, root => by
    have ih := fold_messages_le hrender l issues (place (render issue.invalid) issue.path.location root)
    have hstep := place_messages_le (hrender issue.invalid) issue.path.location root l
    rw [List.foldl_cons]
    refine ih.trans ((Nat.add_le_add_right hstep _).trans ?_)
    rw [issuesAt, issuesAt, List.countP_cons, Nat.add_assoc, Nat.add_comm (if l = _ then 1 else 0)]
    simp [eq_comm]

/-- Two locations that both hold messages are compatible, or share an array further in. -/
theorem compatible_or_through : ∀ (deep : Bool) (p q : Location) (value : Value ν)
    {items items' : List (Value ν)}, value.locate p = some (.array items) →
    value.locate q = some (.array items') → (∀ item ∈ items, IsMessage item) →
    (∀ item ∈ items', IsMessage item) →
    compatible deep p q = true ∨
      ∃ pre a p' b q', p = pre ++ .element a :: p' ∧ q = pre ++ .element b :: q' ∧
        (deep = true ∨ pre ≠ [])
  | _, [], [], _, _, _, _, _, _, _ => .inl rfl
  | _, [], step :: q, value, items, items', hp, hq, hmsgs, _ => by
    obtain rfl := Option.some.inj hp
    cases step with
    | member name => cases hq
    | element idx =>
      rw [Value.locate_cons, Value.child] at hq
      cases hitem : items[idx]? with
      | none => rw [hitem] at hq; cases hq
      | some item =>
        rw [hitem, Option.bind_some] at hq
        exact absurd hq ((hmsgs item (List.mem_of_getElem? hitem)).2 q items')
  | _, step :: p, [], value, items, items', hp, hq, _, hmsgs => by
    obtain rfl := Option.some.inj hq
    cases step with
    | member name => cases hp
    | element idx =>
      rw [Value.locate_cons, Value.child] at hp
      cases hitem : items'[idx]? with
      | none => rw [hitem] at hp; cases hp
      | some item =>
        rw [hitem, Option.bind_some] at hp
        exact absurd hp ((hmsgs item (List.mem_of_getElem? hitem)).2 p items)
  | deep, .member a :: p, .member b :: q, value, items, items', hp, hq, hm, hm' => by
    by_cases hab : a = b
    · subst hab
      rw [Value.locate_cons] at hp hq
      cases hchild : value.child (.member a) with
      | none => rw [hchild] at hp; cases hp
      | some inner =>
        rw [hchild, Option.bind_some] at hp hq
        rcases compatible_or_through true p q inner hp hq hm hm' with hc | ⟨pre, i, p', j, q', rfl, rfl, -⟩
        · exact .inl (by simp [compatible, hc])
        · exact .inr ⟨.member a :: pre, i, p', j, q', rfl, rfl, .inr (by simp)⟩
    · exact .inl (by simp [compatible, hab])
  | deep, .element a :: p, .element b :: q, value, items, items', hp, hq, hm, hm' => by
    cases deep with
    | true => exact .inr ⟨[], a, p, b, q, rfl, rfl, .inl rfl⟩
    | false =>
      by_cases hab : a = b
      · subst hab
        rw [Value.locate_cons] at hp hq
        cases hchild : value.child (.element a) with
        | none => rw [hchild] at hp; cases hp
        | some inner =>
          rw [hchild, Option.bind_some] at hp hq
          rcases compatible_or_through true p q inner hp hq hm hm' with
            hc | ⟨pre, i, p', j, q', rfl, rfl, -⟩
          · exact .inl (by simp [compatible, hc])
          · exact .inr ⟨.element a :: pre, i, p', j, q', rfl, rfl, .inr (by simp)⟩
      · exact .inl (by simp [compatible, hab])
  | _, .member a :: p, .element b :: q, value, items, items', hp, hq, _, _ => by
    rw [Value.locate_cons] at hp hq
    cases value <;> simp [Value.child] at hp hq
  | _, .element a :: p, .member b :: q, value, items, items', hp, hq, _, _ => by
    rw [Value.locate_cons] at hp hq
    cases value <;> simp [Value.child] at hp hq

/-! ### Rendered failures -/

theorem isMessage_string (text : String) : IsMessage (.string text : Value ν) :=
  ⟨rfl, fun location _ => by cases location <;> simp [Value.child]⟩

/-- An object is a message when its members are. -/
theorem isMessage_object {fields : List (String × Value ν)}
    (h : ∀ key value, fields.lookup key = some value → IsMessage value) :
    IsMessage (.object fields : Value ν) := by
  refine ⟨rfl, fun location items heq => ?_⟩
  cases location with
  | nil => cases heq
  | cons step rest =>
    cases step with
    | element idx => cases heq
    | member key =>
      rw [Value.locate_cons, Value.child] at heq
      cases hvalue : fields.lookup key with
      | none => rw [hvalue] at heq; cases heq
      | some value =>
        rw [hvalue, Option.bind_some] at heq
        exact (h key value hvalue).2 rest items heq

theorem isMessage_params (params : List (String × String)) (fields : List (String × Value ν))
    (h : ∀ key value, fields.lookup key = some value → IsMessage value) (key : String) (value : Value ν) :
    (params.foldl (fun fields param => updateEntry param.1 .null (fun _ => .string param.2) fields)
      fields).lookup key = some value → IsMessage value := by
  induction params generalizing fields with
  | nil => exact h key value
  | cons param params ih =>
    rw [List.foldl_cons]
    refine ih _ fun key' value' hvalue => ?_
    rw [lookup_updateEntry] at hvalue
    split at hvalue
    · obtain rfl := Option.some.inj hvalue
      exact isMessage_string param.2
    · exact h key' value' hvalue

theorem isMessage_toJson (error : ValidationError) : IsMessage (error.toJson : Value ν) := by
  refine isMessage_object fun key value hvalue => ?_
  simp only [lookup_cons, List.lookup_nil] at hvalue
  split at hvalue
  · obtain rfl := Option.some.inj hvalue
    exact isMessage_string error.code
  split at hvalue
  · obtain rfl := Option.some.inj hvalue
    exact isMessage_string error.message
  split at hvalue
  · obtain rfl := Option.some.inj hvalue
    exact isMessage_object (isMessage_params error.params [] fun _ _ h => (nomatch h))
  · exact (nomatch hvalue)

/-! ### Whole reports -/

/-- A nested report holds every failure once: at the location of its issue, among those of the same
    location in the order of the issues, and nowhere else. -/
structure FiledExactly (nested : Value ν) (render : ValidationError → Value ν)
    (report : ValidationReport) : Prop where
  kept : ∀ issue ∈ report.issues, nested.locate issue.path.location = some (.array
    ((report.issues.filter fun other => other.path.location = issue.path.location).map
      fun other => render other.invalid))
  nowhereElse : ∀ location items error,
    nested.locate location = some (.array items) → render error ∈ items →
    ∃ issue ∈ report.issues, issue.path.location = location

/-- No failure is filed where no issue is. -/
theorem filed_at_issue (hrender : ∀ error, IsMessage (render error)) (report : ValidationReport)
    (location : Location) (items : List (Value ν)) (error : ValidationError)
    (hitems : (report.toNestedWith render).locate location = some (.array items))
    (hmem : render error ∈ items) : ∃ issue ∈ report.issues, issue.path.location = location := by
  by_contra hnone
  push Not at hnone
  have hzero : issuesAt location report.issues = 0 := by
    rw [issuesAt, List.countP_eq_zero]
    exact fun issue hissue => by simpa using hnone issue hissue
  have hle := fold_messages_le hrender location report.issues (.object [])
  rw [← toNestedWith_eq, hzero, messages_empty_object, messages, hitems] at hle
  have hpos : 0 < countMessages items :=
    List.countP_pos_iff.mpr ⟨render error, hmem, by simpa using hrender error⟩
  simp only at hle
  omega

/-- A report that keeps everything has as many messages at a location as issues. -/
theorem Kept.messages_eq (hrender : ∀ error, IsMessage (render error)) {report : ValidationReport}
    (h : Kept render report) {issue : ValidationIssue} (hmem : issue ∈ report.issues) :
    messages issue.path.location (report.toNestedWith render) =
      issuesAt issue.path.location report.issues := by
  unfold messages
  rw [h issue hmem]
  show countMessages _ = _
  rw [countMessages_all, List.length_map, issuesAt, List.countP_eq_length_filter]
  intro item hitem
  obtain ⟨other, -, rfl⟩ := List.mem_map.mp hitem
  exact hrender other.invalid

/-- Where one issue stands before another. -/
theorem split_of_sublist {α : Type} {first second : α} {all : List α} (h : List.Sublist [first, second] all) :
    ∃ front back, all = front ++ second :: back ∧ first ∈ front := by
  obtain ⟨front, rest, rfl, hfirst, hsecond⟩ := List.cons_sublist_iff.mp h
  obtain ⟨middle, back, rfl⟩ := List.append_of_mem (List.singleton_sublist.mp hsecond)
  exact ⟨front ++ middle, back, by simp, List.mem_append_left _ hfirst⟩

/-- A report that keeps everything is compatible: an issue that shares an array further in with an
    earlier one has taken its message away. -/
theorem Kept.compatible (hrender : ∀ error, IsMessage (render error)) {report : ValidationReport}
    (h : Kept render report) : Compatible report := by
  refine List.pairwise_iff_forall_sublist.mpr fun {first second} hsub => ?_
  obtain ⟨front, back, hissues, hfirst⟩ := split_of_sublist hsub
  have hmem : first ∈ report.issues := hissues ▸ List.mem_append_left _ hfirst
  have hmem' : second ∈ report.issues := hissues ▸ List.mem_append_right _ (List.mem_cons_self ..)
  have hmsgs : ∀ location, ∀ item ∈ (report.issues.filter fun other => other.path.location = location).map
      fun other => render other.invalid, IsMessage item := by
    intro location item hitem
    obtain ⟨other, -, rfl⟩ := List.mem_map.mp hitem
    exact hrender other.invalid
  rcases compatible_or_through false _ _ _ (h first hmem) (h second hmem') (hmsgs _) (hmsgs _) with
    hcompat | ⟨pre, a, p, b, q, hp, hq, hpre⟩
  · exact hcompat
  exfalso
  have hcount := h.messages_eq hrender hmem
  rw [toNestedWith_eq, hissues, List.foldl_append, List.foldl_cons] at hcount
  have hback := fold_messages_le hrender first.path.location back
    (place (render second.invalid) second.path.location (front.foldl
      (fun root issue => place (render issue.invalid) issue.path.location root) (.object [])))
  have hplace := place_through (hrender second.invalid) a b p q pre
    (front.foldl (fun root issue => place (render issue.invalid) issue.path.location root) (.object []))
    (hpre.resolve_left (by simp))
  rw [← hp, ← hq] at hplace
  have hfront : 0 < issuesAt first.path.location front :=
    List.countP_pos_iff.mpr ⟨first, hfirst, by simp⟩
  have hsplit : issuesAt first.path.location (front ++ second :: back) =
      issuesAt first.path.location front + ((if first.path.location = second.path.location then 1 else 0) +
        issuesAt first.path.location back) := by
    simp only [issuesAt, List.countP_append, List.countP_cons, decide_eq_true_eq]
    rw [if_congr (@eq_comm _ second.path.location first.path.location) rfl rfl]
    omega
  omega

theorem filedExactly_iff (hrender : ∀ error, IsMessage (render error)) (report : ValidationReport) :
    FiledExactly (report.toNestedWith render) render report ↔ Compatible report :=
  ⟨fun h => Kept.compatible hrender h.kept, fun h => ⟨h.kept render, filed_at_issue hrender report⟩⟩

/-- The nested forms hold every failure where its issue says, if and only if the issues are
    compatible. -/
theorem nested_exact (report : ValidationReport) :
    (FiledExactly (report.toNestedMessages : Value ν) (fun error => .string error.message) report ↔
        Compatible report) ∧
      (FiledExactly (report.toNestedErrors : Value ν) (fun error => error.toJson) report ↔
        Compatible report) :=
  ⟨filedExactly_iff (fun error => isMessage_string error.message) report,
    filedExactly_iff isMessage_toJson report⟩

/-! ### Elements of a list further in -/

/-- Two segments a list or an object can both hold. -/
def PathSeg.sameKind : PathSeg → PathSeg → Bool
  | .index _, .index _ => true
  | .index _, _ | _, .index _ => false
  | _, _ => true

/-- Paths that name places in one value: neither runs through the other, and where they part both
    name an element or both name a member. -/
def consistent : List PathSeg → List PathSeg → Bool
  | [], [] => true
  | first :: rest, first' :: rest' => first.sameKind first' && (first != first' || consistent rest rest')
  | _, _ => false

/-- The report of a list of items, the first two without a name, as a form validates it. -/
def itemsReport : ValidationReport :=
  match validateVec (fun (name : String) =>
      if name = "" then .error (empty.push ⟨[.field "name"]⟩ ⟨"required", "name is required", []⟩)
      else .ok ()) ["", ""] with
  | .ok () => .empty
  | .error report => report.atField "items"

/-- The failure of the first item is not in the nested report. -/
theorem nested_drops_first_item :
    ¬∀ report : ValidationReport, (report.issues.Pairwise fun first second =>
        consistent first.path.segs second.path.segs = true) →
      FiledExactly (report.toNestedMessages : Value ℕ) (fun error => .string error.message) report := by
  intro h
  have hkept := (h itemsReport (by decide)).kept
  have hcompat : Compatible itemsReport := Kept.compatible (fun error => isMessage_string error.message) hkept
  unfold Compatible at hcompat
  exact absurd hcompat (by decide)

end Vyuh.Validation
