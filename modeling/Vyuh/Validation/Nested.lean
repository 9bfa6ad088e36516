import Mathlib
import Vyuh.Validation.Insertion

/-! What a report keeps when its locations are compatible. `Node` describes a partly built value by
    the messages filed under it, step by step; an insertion at a compatible location extends it, so
    that in the end every location holds its messages in the order of the issues. -/

namespace Vyuh.Validation
open Json ValidationReport

variable {ν : Type}

/-- Whether one report can hold messages at both locations: they are the same, or part at members of
    one object or at elements of the outermost array. `deep` once a step has been taken: an array
    further in is built anew by every insertion that passes through it. -/
def compatible : Bool → Location → Location → Bool
  | _, [], [] => true
  | _, .member a :: p, .member b :: q => a ≠ b || compatible true p q
  | deep, .element i :: p, .element j :: q => !deep && (i ≠ j || compatible true p q)
  | _, _, _ => false

/-- A message and where it is filed. -/
abbrev Filed (ν : Type) := Location × Value ν

/-- What is filed below one step. -/
def under (step : Step) (filed : List (Filed ν)) : List (Filed ν) :=
  filed.filterMap fun entry =>
    match entry.1 with
    | [] => none
    | first :: rest => if first = step then some (rest, entry.2) else none

/-- The messages filed at a location, in order. -/
def filedAt (location : Location) (filed : List (Filed ν)) : List (Value ν) :=
  (filed.filter fun entry => entry.1 = location).map (·.2)

/-- A partly built value, by what is filed under it. -/
inductive Node : Bool → Value ν → List (Filed ν) → Prop
  | leaf {deep : Bool} {msgs : List (Value ν)} (hne : msgs ≠ []) :
      Node deep (.array msgs) (msgs.map fun msg => ([], msg))
  | object {deep : Bool} {fields : List (String × Value ν)} {filed : List (Filed ν)}
      (inner : String → Value ν)
      (heads : ∀ entry ∈ filed, ∃ name rest, entry.1 = .member name :: rest)
      (absent : ∀ name, under (.member name) filed = [] → fields.lookup name = none)
      (present : ∀ name, under (.member name) filed ≠ [] → fields.lookup name = some (inner name))
      (nodes : ∀ name, under (.member name) filed ≠ [] →
        Node true (inner name) (under (.member name) filed)) :
      Node deep (.object fields) filed
  | array {deep : Bool} {items : List (Value ν)} {filed : List (Filed ν)} (inner : ℕ → Value ν)
      (hne : filed ≠ [])
      (heads : ∀ entry ∈ filed, ∃ idx rest, entry.1 = .element idx :: rest)
      (absent : ∀ idx, under (.element idx) filed = [] →
        items[idx]? = none ∨ items[idx]? = some .null)
      (present : ∀ idx, under (.element idx) filed ≠ [] → items[idx]? = some (inner idx))
      (nodes : ∀ idx, under (.element idx) filed ≠ [] →
        Node true (inner idx) (under (.element idx) filed)) :
      Node deep (.array items) filed

/-! ### What is filed below a step -/

theorem under_append (step : Step) (filed filed' : List (Filed ν)) :
    under step (filed ++ filed') = under step filed ++ under step filed' := by
  simp [under]

theorem under_singleton (step first : Step) (rest : Location) (msg : Value ν) :
    under step [(first :: rest, msg)] = if first = step then [(rest, msg)] else [] := by
  by_cases h : first = step <;> simp [under, h]

theorem mem_under {step : Step} {filed : List (Filed ν)} {rest : Location} {msg : Value ν} :
    (rest, msg) ∈ under step filed ↔ (step :: rest, msg) ∈ filed := by
  induction filed with
  | nil => simp [under]
  | cons entry filed ih =>
    obtain ⟨location, m⟩ := entry
    have hsplit : under step ((location, m) :: filed) = under step [(location, m)] ++ under step filed :=
      under_append step [(location, m)] filed
    rw [hsplit, List.mem_append, ih]
    cases location with
    | nil => simp [under]
    | cons first tail =>
      rw [under_singleton]
      by_cases h : first = step
      · simp [h]
      · simp [h, Ne.symm h]

theorem filedAt_under (step : Step) (rest : Location) (filed : List (Filed ν)) :
    filedAt rest (under step filed) = filedAt (step :: rest) filed := by
  induction filed with
  | nil => rfl
  | cons entry filed ih =>
    obtain ⟨location, msg⟩ := entry
    cases location with
    | nil => simpa [filedAt, under] using ih
    | cons first tail =>
      by_cases h : first = step
      · by_cases h' : tail = rest
        · simpa [filedAt, under, h, h'] using ih
        · simpa [filedAt, under, h, h'] using ih
      · simpa [filedAt, under, h] using ih

/-! ### What a node holds -/

/-- Every location holds exactly what is filed there. -/
theorem Node.holds {deep : Bool} {value : Value ν} {filed : List (Filed ν)} (h : Node deep value filed) :
    ∀ entry ∈ filed, value.locate entry.1 = some (.array (filedAt entry.1 filed)) := by
  induction h with
  | @leaf deep msgs hne =>
    intro entry hmem
    obtain ⟨msg, -, rfl⟩ := List.mem_map.mp hmem
    simp [filedAt, List.filter_map, Function.comp_def]
  | object inner heads absent present nodes ih =>
    rintro ⟨location, msg⟩ hmem
    obtain ⟨name, rest, rfl⟩ := heads _ hmem
    have hunder := mem_under.mpr hmem
    have hne := List.ne_nil_of_mem hunder
    rw [Value.locate_cons, Value.child, present name hne, Option.bind_some, ih name hne _ hunder,
      filedAt_under]
  | array inner hne heads absent present nodes ih =>
    rintro ⟨location, msg⟩ hmem
    obtain ⟨idx, rest, rfl⟩ := heads _ hmem
    have hunder := mem_under.mpr hmem
    have hne := List.ne_nil_of_mem hunder
    rw [Value.locate_cons, Value.child, present idx hne, Option.bind_some, ih idx hne _ hunder,
      filedAt_under]

/-- An empty object is a node with nothing filed. -/
theorem Node.fresh (deep : Bool) : Node deep (.object [] : Value ν) [] :=
  .object (fun _ => .null) (fun _ h => (nomatch h)) (fun _ _ => rfl) (fun _ h => absurd rfl h)
    (fun _ h => absurd rfl h)

theorem Node.not_null {deep : Bool} {value : Value ν} {filed : List (Filed ν)}
    (h : Node deep value filed) : value.isNull = false := by
  cases h <;> rfl

/-- Messages filed at a node itself make it a leaf. -/
theorem Node.of_nil {deep : Bool} {value : Value ν} {filed : List (Filed ν)} (h : Node deep value filed)
    (hne : filed ≠ []) (hnil : ∀ entry ∈ filed, entry.1 = []) :
    ∃ msgs, msgs ≠ [] ∧ value = .array msgs ∧ filed = msgs.map fun msg => ([], msg) := by
  obtain ⟨entry, hmem⟩ := List.exists_mem_of_ne_nil _ hne
  have hentry := hnil entry hmem
  cases h with
  | leaf hmsgs => exact ⟨_, hmsgs, rfl, rfl⟩
  | object inner heads =>
    obtain ⟨name, rest, heq⟩ := heads entry hmem
    rw [hentry] at heq
    exact (nomatch heq)
  | array inner _ heads =>
    obtain ⟨idx, rest, heq⟩ := heads entry hmem
    rw [hentry] at heq
    exact (nomatch heq)

/-- A deep node that a compatible location passes through is an object. -/
theorem Node.isObject {value : Value ν} {filed : List (Filed ν)} (h : Node true value filed)
    (hne : filed ≠ []) {location : Location} (hloc : location ≠ [])
    (hcompat : ∀ entry ∈ filed, compatible true entry.1 location = true) : asObject value = value := by
  obtain ⟨entry, hmem⟩ := List.exists_mem_of_ne_nil _ hne
  have hentry := hcompat entry hmem
  cases h with
  | leaf =>
    obtain ⟨msg, -, rfl⟩ := List.mem_map.mp hmem
    cases location with
    | nil => exact absurd rfl hloc
    | cons step rest => cases step <;> simp [compatible] at hentry
  | object => rfl
  | array inner _ heads =>
    obtain ⟨idx, rest, heq⟩ := heads entry hmem
    rw [heq] at hentry
    cases location with
    | nil => exact absurd rfl hloc
    | cons step rest => cases step <;> simp [compatible] at hentry

/-! ### Inserting -/

/-- What an insertion makes of a child: `old` is what was there, if anything was filed below it. -/
def placed (msg : Value ν) (rest : Location) (old : Option (Value ν)) : Value ν :=
  if rest.isEmpty then pushMessage msg (old.getD (.array []))
  else place msg rest (asObject (old.getD (.object [])))

/-- A child that is a node stays one, with the message filed. -/
theorem Node.placed_child {msg : Value ν} {rest : Location} {filed : List (Filed ν)} {old : Option (Value ν)}
    (habsent : filed = [] → old = none)
    (hpresent : filed ≠ [] → ∃ value, old = some value ∧ Node true value filed)
    (hcompat : ∀ entry ∈ filed, compatible true entry.1 rest = true)
    (ih : rest ≠ [] → ∀ {value : Value ν} {filed : List (Filed ν)}, Node true value filed →
      (∀ entry ∈ filed, compatible true entry.1 rest = true) →
      Node true (place msg rest value) (filed ++ [(rest, msg)])) :
    Node true (placed msg rest old) (filed ++ [(rest, msg)]) := by
  unfold placed
  cases rest with
  | nil =>
    rw [if_pos (by simp)]
    by_cases hfiled : filed = []
    · rw [habsent hfiled, hfiled]
      have hleaf : Node true (.array [msg]) ([msg].map fun m => ([], m)) := .leaf (by simp)
      exact hleaf
    · obtain ⟨value, rfl, hnode⟩ := hpresent hfiled
      have hnil : ∀ entry ∈ filed, entry.1 = [] := by
        rintro ⟨location, m⟩ hmem
        have hentry := hcompat _ hmem
        cases location with
        | nil => rfl
        | cons step tail => cases step <;> simp [compatible] at hentry
      obtain ⟨msgs, -, rfl, rfl⟩ := hnode.of_nil hfiled hnil
      have hleaf : Node true (.array (msgs ++ [msg])) ((msgs ++ [msg]).map fun m => ([], m)) :=
        .leaf (by simp)
      rwa [List.map_append] at hleaf
  | cons step tail =>
    rw [if_neg (by simp)]
    by_cases hfiled : filed = []
    · rw [habsent hfiled, hfiled]
      exact ih (by simp) (Node.fresh true) fun _ h => (nomatch h)
    · obtain ⟨value, rfl, hnode⟩ := hpresent hfiled
      rw [Option.getD_some, hnode.isObject hfiled (by simp) hcompat]
      exact ih (by simp) hnode hcompat

theorem place_object (msg : Value ν) (name : String) (rest : Location)
    (fields : List (String × Value ν)) :
    ∃ fields', place msg (.member name :: rest) (.object fields) = .object fields' ∧
      ∀ key, fields'.lookup key =
        if key = name then some (placed msg rest (fields.lookup name)) else fields.lookup key := by
  have hchild := child_insertMember name rest.isEmpty (place msg rest) msg fields
  cases rest with
  | nil => exact ⟨_, rfl, hchild⟩
  | cons step tail => exact ⟨_, rfl, hchild⟩

theorem renewElement_eq (msg : Value ν) (rest : Location) (old : Option (Value ν)) :
    renewElement rest.isEmpty (place msg rest) msg (old.getD .null) =
      placed msg rest (old.filter fun value => !value.isNull) := by
  unfold renewElement placed
  cases old with
  | none => rfl
  | some value => cases value <;> rfl

theorem under_snoc_self (step : Step) (rest : Location) (filed : List (Filed ν)) (msg : Value ν) :
    under step (filed ++ [(step :: rest, msg)]) = under step filed ++ [(rest, msg)] := by
  rw [under_append, under_singleton, if_pos rfl]

/-- Filing under another step leaves what is filed under this one. -/
theorem under_snoc_of_ne {step first : Step} (h : first ≠ step) (rest : Location)
    (filed : List (Filed ν)) (msg : Value ν) :
    under step (filed ++ [(first :: rest, msg)]) = under step filed := by
  rw [under_append, under_singleton, if_neg h, List.append_nil]

theorem compatible_under {deep : Bool} {step : Step} {rest : Location} {filed : List (Filed ν)}
    (hcompat : ∀ entry ∈ filed, compatible deep entry.1 (step :: rest) = true) :
    ∀ entry ∈ under step filed, compatible true entry.1 rest = true := by
  rintro ⟨location, m⟩ hmem
  have hentry := hcompat _ (mem_under.mp hmem)
  cases step <;> simp_all [compatible]

/-- A member is inserted into a node whose filed messages are all under members. -/
theorem Node.place_member {deep : Bool} {msg : Value ν} {name : String} {rest : Location}
    {fields : List (String × Value ν)} {filed : List (Filed ν)} (inner : String → Value ν)
    (heads : ∀ entry ∈ filed, ∃ name rest, entry.1 = .member name :: rest)
    (absent : ∀ name, under (.member name) filed = [] → fields.lookup name = none)
    (present : ∀ name, under (.member name) filed ≠ [] → fields.lookup name = some (inner name))
    (nodes : ∀ name, under (.member name) filed ≠ [] →
      Node true (inner name) (under (.member name) filed))
    (hplaced : Node true (placed msg rest (fields.lookup name))
      (under (.member name) filed ++ [(rest, msg)])) :
    Node deep (place msg (.member name :: rest) (.object fields))
      (filed ++ [(.member name :: rest, msg)]) := by
  obtain ⟨fields', hplace, hlookup⟩ := place_object msg name rest fields
  rw [hplace]
  refine .object (fun key => if key = name then placed msg rest (fields.lookup name) else inner key)
    (fun entry hmem => ?_) (fun key hempty => ?_) (fun key hfiled => ?_) (fun key hfiled => ?_)
  · rcases List.mem_append.mp hmem with hold | hnew
    · exact heads entry hold
    · obtain rfl := List.mem_singleton.mp hnew
      exact ⟨name, rest, rfl⟩
  all_goals
    by_cases hkey : name = key
  · subst hkey
    simp [under_snoc_self] at hempty
  · rw [under_snoc_of_ne (by simpa using hkey)] at hempty
    rw [hlookup, if_neg (Ne.symm hkey), absent key hempty]
  · rw [hlookup, if_pos hkey.symm, if_pos hkey.symm]
  · rw [under_snoc_of_ne (by simpa using hkey)] at hfiled
    rw [hlookup, if_neg (Ne.symm hkey), if_neg (Ne.symm hkey), present key hfiled]
  · subst hkey
    rw [under_snoc_self, if_pos rfl]
    exact hplaced
  · have hstep : Step.member name ≠ .member key := by simpa using hkey
    have hsame := under_snoc_of_ne hstep rest filed msg
    rw [hsame] at hfiled ⊢
    rw [if_neg (Ne.symm hkey)]
    exact nodes key hfiled

/-- An element is inserted into a value whose elements hold all that is filed. -/
theorem Node.place_element {deep : Bool} {msg : Value ν} {idx : ℕ} {rest : Location}
    {value : Value ν} {filed : List (Filed ν)} (inner : ℕ → Value ν)
    (heads : ∀ entry ∈ filed, ∃ idx rest, entry.1 = .element idx :: rest)
    (absent : ∀ idx, under (.element idx) filed = [] →
      (elements value)[idx]? = none ∨ (elements value)[idx]? = some .null)
    (present : ∀ idx, under (.element idx) filed ≠ [] → (elements value)[idx]? = some (inner idx))
    (nodes : ∀ idx, under (.element idx) filed ≠ [] →
      Node true (inner idx) (under (.element idx) filed))
    (hplaced : Node true (placed msg rest ((elements value)[idx]?.filter fun v => !v.isNull))
      (under (.element idx) filed ++ [(rest, msg)])) :
    Node deep (place msg (.element idx :: rest) value) (filed ++ [(.element idx :: rest, msg)]) := by
  have hself := child_insertElement_self idx rest.isEmpty (place msg rest) msg value
  have hother : ∀ i, i ≠ idx → _ := fun i hne =>
    child_insertElement_of_ne hne rest.isEmpty (place msg rest) msg value
  rw [renewElement_eq] at hself
  show Node deep (insertElement idx rest.isEmpty (place msg rest) msg value) _
  rw [insertElement_eq] at hself hother ⊢
  simp only [Value.child] at hself hother
  refine .array
    (fun i => if i = idx then placed msg rest ((elements value)[idx]?.filter fun v => !v.isNull)
      else inner i) (by simp) (fun entry hmem => ?_) (fun i hempty => ?_) (fun i hfiled => ?_)
    (fun i hfiled => ?_)
  · rcases List.mem_append.mp hmem with hold | hnew
    · exact heads entry hold
    · obtain rfl := List.mem_singleton.mp hnew
      exact ⟨idx, rest, rfl⟩
  all_goals
    by_cases hi : idx = i
  · subst hi
    simp [under_snoc_self] at hempty
  · rw [under_snoc_of_ne (by simpa using hi)] at hempty
    rcases hother i (Ne.symm hi) with heq | ⟨-, hnull⟩
    · rw [heq]
      exact absent i hempty
    · exact .inr hnull
  · subst hi
    rw [hself, if_pos rfl]
  · rw [under_snoc_of_ne (by simpa using hi)] at hfiled
    rcases hother i (Ne.symm hi) with heq | ⟨hnone, -⟩
    · rw [heq, if_neg (Ne.symm hi), present i hfiled]
    · rw [present i hfiled] at hnone
      cases hnone
  · subst hi
    rw [under_snoc_self, if_pos rfl]
    exact hplaced
  · have hstep : Step.element idx ≠ .element i := by simpa using hi
    have hsame := under_snoc_of_ne hstep rest filed msg
    rw [hsame] at hfiled ⊢
    rw [if_neg (Ne.symm hi)]
    exact nodes i hfiled

/-- An insertion at a location compatible with everything filed files the message. -/
theorem Node.insert {msg : Value ν} : ∀ {location : Location} {deep : Bool} {value : Value ν}
    {filed : List (Filed ν)}, location ≠ [] → Node deep value filed →
    (∀ entry ∈ filed, compatible deep entry.1 location = true) →
    Node deep (place msg location value) (filed ++ [(location, msg)])
  | [], _, _, _, hne, _, _ => absurd rfl hne
  | step :: rest, deep, value, filed, _, hnode, hcompat => by
    have hunder := compatible_under hcompat
    have ih : rest ≠ [] → ∀ {value : Value ν} {filed : List (Filed ν)}, Node true value filed →
        (∀ entry ∈ filed, compatible true entry.1 rest = true) →
        Node true (place msg rest value) (filed ++ [(rest, msg)]) :=
      fun hrest _ _ h hc => Node.insert hrest h hc
    cases hnode with
    | @leaf _ msgs hne =>
      obtain ⟨first, hfirst⟩ := List.exists_mem_of_ne_nil _ hne
      have hentry := hcompat ([], first) (List.mem_map_of_mem hfirst)
      cases step <;> simp [compatible] at hentry
    | @object _ fields _ inner heads absent present nodes =>
      cases step with
      | member name =>
        refine Node.place_member inner heads absent present nodes ?_
        exact Node.placed_child (absent name) (fun h => ⟨_, present name h, nodes name h⟩) hunder ih
      | element idx =>
        -- nothing is filed yet: a member and an element never share a node
        have hempty : filed = [] := by
          refine List.eq_nil_iff_forall_not_mem.mpr fun entry hmem => ?_
          obtain ⟨name, tail, heq⟩ := heads entry hmem
          have hentry := hcompat entry hmem
          rw [heq] at hentry
          simp [compatible] at hentry
        subst hempty
        refine Node.place_element (fun _ => .null) (fun _ h => (nomatch h)) (fun _ _ => .inl rfl)
          (fun _ h => absurd rfl h) (fun _ h => absurd rfl h) ?_
        exact Node.placed_child (fun _ => rfl) (fun h => absurd rfl h) (fun _ h => (nomatch h)) ih
    | @array _ items _ inner hne heads absent present nodes =>
      cases step with
      | member name =>
        obtain ⟨entry, hmem⟩ := List.exists_mem_of_ne_nil _ hne
        obtain ⟨idx, tail, heq⟩ := heads entry hmem
        have hentry := hcompat entry hmem
        rw [heq] at hentry
        simp [compatible] at hentry
      | element idx =>
        refine Node.place_element inner heads absent present nodes ?_
        refine Node.placed_child (fun h => ?_) (fun h => ⟨inner idx, ?_, nodes idx h⟩) hunder ih
        · rcases absent idx h with hnone | hnull
          · simp [elements, hnone]
          · simp [elements, hnull, Value.isNull]
        · have hsome : (elements (.array items))[idx]? = some (inner idx) := present idx h
          rw [hsome, Option.filter_some, (nodes idx h).not_null]
          rfl

/-! ### Reports -/

/-- What a report keeps: at every location of an issue stand the rendered failures of all issues
    filed there, in the order of the issues. -/
def Kept (render : ValidationError → Value ν) (report : ValidationReport) : Prop :=
  ∀ issue ∈ report.issues,
    (report.toNestedWith render).locate issue.path.location = some (.array
      ((report.issues.filter fun other => other.path.location = issue.path.location).map
        fun other => render other.invalid))

/-- No two issues are in each other's way. -/
def Compatible (report : ValidationReport) : Prop :=
  report.issues.Pairwise fun first second =>
    compatible false first.path.location second.path.location = true

theorem location_ne_nil (path : Path) : path.location ≠ [] := by
  unfold Path.location Path.filed
  split
  · exact (nomatch ·)
  · next h =>
    obtain ⟨segs⟩ := path
    cases segs with
    | nil => exact absurd rfl h
    | cons seg rest => exact (nomatch ·)

/-- A report of compatible issues files every one of them. -/
theorem Compatible.node (render : ValidationError → Value ν) :
    ∀ {report : ValidationReport}, Compatible report →
      Node false (report.toNestedWith render)
        (report.issues.map fun issue => (issue.path.location, render issue.invalid)) := by
  rintro ⟨issues⟩ h
  rw [toNestedWith_eq]
  simp only [Compatible] at h ⊢
  induction issues using List.reverseRecOn with
  | nil => exact Node.fresh false
  | append_singleton issues issue ih =>
    obtain ⟨hbefore, -, hlast⟩ := List.pairwise_append.mp h
    rw [List.foldl_append, List.map_append]
    refine Node.insert (location_ne_nil _) (ih hbefore) fun entry hmem => ?_
    obtain ⟨other, hother, rfl⟩ := List.mem_map.mp hmem
    exact hlast other hother issue (List.mem_singleton_self _)

theorem Compatible.kept (render : ValidationError → Value ν) {report : ValidationReport}
    (h : Compatible report) : Kept render report := by
  intro issue hmem
  have hholds := (h.node render).holds _ (List.mem_map_of_mem hmem)
  rw [hholds, filedAt, List.filter_map, List.map_map]
  rfl

end Vyuh.Validation
