import Vyuh.Apidocs.Places

/-! What a rewriting leaves: a place that was rewritten has nothing left to rewrite, so that a second pass changes
    nothing, and where two rewritings differ in the places they visit they agree on a value exactly when nothing is
    there to rewrite. -/

namespace Vyuh.Apidocs

open Lib Json

variable {ν κ κ' : Type}
variable {entry : String × Value ν} {types : List (Value ν)} {name : String}

/-! ### References -/

/-- A reference of JSON Schema stands somewhere in the text. -/
def OldRef (reference : String) : Prop :=
  defsPrefix.toList <:+: reference.toList ∨ definitionsPrefix.toList <:+: reference.toList

instance (reference : String) : Decidable (OldRef reference) := inferInstanceAs (Decidable (_ ∨ _))

theorem rewriteRef_new (reference : String) : ¬ OldRef (rewriteRef reference) := by
  have hmarked : Marked '#' schemasPrefix.toList := by decide
  rw [OldRef, rewriteRef, String.toList_ofList]
  rintro (h | h)
  · have hfirst := infix_of_infix_replace hmarked (by decide) (by decide) (by decide) _ h
    exact (infix_of_infix_replace hmarked (by decide) (by decide) (by decide) _ hfirst.1).2 rfl
  · exact (infix_of_infix_replace hmarked (by decide) (by decide) (by decide) _ h).2 rfl

theorem rewriteRef_of_new {reference : String} (h : ¬ OldRef reference) : rewriteRef reference = reference := by
  rw [OldRef, not_or] at h
  rw [rewriteRef, replace_of_not_infix h.1, replace_of_not_infix h.2, String.ofList_toList]

/-! ### What there is to rewrite -/

def NewRef (fields : List (String × Value ν)) : Prop :=
  ∀ reference, fields.lookup "$ref" = some (.string reference) → ¬ OldRef reference

/-- A rewriting leaves the value itself alone: it is no boolean, its type array names nothing but null, and its
    reference is none of JSON Schema. -/
def Inert : Value ν → Prop
  | .bool _ => False
  | .object fields => (∀ types, typesOf fields = some types → nonNull types = []) ∧ NewRef fields
  | _ => True

/-- No boolean schema, no type array and no reference of JSON Schema. -/
def Clean : Value ν → Prop
  | .bool _ => False
  | .object fields => typesOf fields = none ∧ NewRef fields
  | _ => True

/-- The types of a type array are names. -/
def Typed : Value ν → Prop
  | .object fields => ∀ types, typesOf fields = some types → ∀ type ∈ types, ∃ name, type = .string name
  | _ => True

theorem Clean.inert {value : Value ν} (h : Clean value) : Inert value := by
  cases value with
  | bool b => exact h
  | object fields =>
    refine ⟨fun types htypes => ?_, h.2⟩
    rw [h.1] at htypes
    cases htypes
  | _ => trivial

/-! ### One schema -/

theorem mem_insertMember {key : String} {value : Value ν} {fields : List (String × Value ν)}
    (h : entry ∈ insertMember key value fields) :
    entry = (key, value) ∨ entry ∈ fields := by
  induction fields with
  | nil => exact .inl (List.mem_singleton.mp h)
  | cons first rest ih =>
    obtain ⟨other, held⟩ := first
    rw [insertMember, updateEntry] at h
    split at h
    · next hother =>
      rcases List.mem_cons.mp h with rfl | hrest
      · exact .inl (by rw [hother])
      · exact .inr (List.mem_cons_of_mem _ hrest)
    · rcases List.mem_cons.mp h with rfl | hrest
      · exact .inr List.mem_cons_self
      · exact (ih hrest).imp_right (List.mem_cons_of_mem _)

section

variable {fields members : List (String × Value ν)} {types alternatives : List (Value ν)}

theorem lookup_setNullable (h : name ≠ "nullable") :
    (setNullable types fields).lookup name = fields.lookup name := by
  rw [setNullable]
  split
  · rw [lookup_insertMember, if_neg h]
  · rfl

theorem mem_setNullable (h : entry ∈ setNullable types fields) :
    entry = ("nullable", .bool true) ∨ entry ∈ fields := by
  rw [setNullable] at h
  split at h
  · exact mem_insertMember h
  · exact .inr h

theorem lookup_rewriteSchemaRef (h : name ≠ "$ref") :
    (rewriteSchemaRef fields).lookup name = fields.lookup name := by
  rw [rewriteSchemaRef]
  split
  · rw [lookup_insertMember, if_neg h]
  · rfl

theorem newRef_rewriteSchemaRef : NewRef (rewriteSchemaRef fields) := by
  intro reference h
  rw [rewriteSchemaRef] at h
  split at h
  · rw [lookup_insertMember, if_pos rfl] at h
    obtain rfl := Value.string.inj (Option.some.inj h)
    exact rewriteRef_new _
  · next hnone => exact absurd h (hnone reference)

theorem rewriteSchemaRef_of_newRef (h : NewRef fields) : rewriteSchemaRef fields = fields := by
  rw [rewriteSchemaRef]
  split
  · next reference href => rw [rewriteRef_of_new (h reference href), insertMember_self href]
  · rfl

theorem mem_rewriteSchemaRef (h : entry ∈ rewriteSchemaRef fields) :
    (∃ reference, entry = ("$ref", .string reference)) ∨ entry ∈ fields := by
  rw [rewriteSchemaRef] at h
  split at h
  · exact (mem_insertMember h).imp_left fun heq => ⟨_, heq⟩
  · exact .inr h

theorem lookup_transformTypeArray (h : name ∉ ["type", "anyOf", "nullable"]) :
    (transformTypeArray types alternatives fields).lookup name = fields.lookup name := by
  rw [List.mem_cons, List.mem_cons, List.mem_singleton, not_or, not_or] at h
  obtain ⟨htype, hany, hnullable⟩ := h
  rw [transformTypeArray]
  split
  · rfl
  · rw [lookup_setNullable hnullable, lookup_insertMember, if_neg htype]
  · rw [lookup_setNullable hnullable, lookup_insertMember, if_neg hany, lookup_removeMember, if_neg htype]

theorem mem_transformTypeArray (h : entry ∈ transformTypeArray types alternatives fields) :
    (∃ type ∈ types, entry = ("type", type)) ∨ entry = ("anyOf", .array alternatives) ∨
      entry = ("nullable", .bool true) ∨ entry ∈ fields := by
  rw [transformTypeArray] at h
  split at h
  · exact .inr (.inr (.inr h))
  · next type hone =>
    rcases mem_setNullable h with hnullable | hrest
    · exact .inr (.inr (.inl hnullable))
    · rcases mem_insertMember hrest with htype | hfields
      · have hmem : type ∈ nonNull types := hone ▸ List.mem_singleton_self type
        exact .inl ⟨type, List.mem_of_mem_filter hmem, htype⟩
      · exact .inr (.inr (.inr hfields))
  · rcases mem_setNullable h with hnullable | hrest
    · exact .inr (.inr (.inl hnullable))
    · rcases mem_insertMember hrest with hany | hfields
      · exact .inr (.inl hany)
      · exact .inr (.inr (.inr (List.mem_of_mem_filter hfields)))

theorem rewriteSelf_of_inert (htypes : ∀ types, typesOf fields = some types → nonNull types = [])
    (href : NewRef members) : rewriteSelf fields members = members := by
  rw [rewriteSelf]
  split
  · next types hsome => rw [transformTypeArray, htypes types hsome, rewriteSchemaRef_of_newRef href]
  · exact rewriteSchemaRef_of_newRef href

theorem lookup_rewriteSelf (h : name ∉ ["type", "anyOf", "nullable", "$ref"]) :
    (rewriteSelf fields members).lookup name = members.lookup name := by
  have href : name ≠ "$ref" := fun heq => h (by rw [heq]; decide)
  have hother : name ∉ ["type", "anyOf", "nullable"] := fun hmem => h (List.mem_append_left ["$ref"] hmem)
  rw [rewriteSelf]
  split
  · rw [lookup_transformTypeArray hother, lookup_rewriteSchemaRef href]
  · exact lookup_rewriteSchemaRef href

theorem newRef_rewriteSelf : NewRef (rewriteSelf fields members) := by
  rw [rewriteSelf]
  split
  · intro reference h
    rw [lookup_transformTypeArray (by decide)] at h
    exact newRef_rewriteSchemaRef reference h
  · exact newRef_rewriteSchemaRef

/-- What a rewritten schema holds: what it held, and what its type and its reference become. -/
theorem mem_rewriteSelf (h : entry ∈ rewriteSelf fields members) :
    (∃ types, typesOf fields = some types ∧ ((∃ type ∈ types, entry = ("type", type)) ∨
        entry = ("anyOf", .array (Apidocs.alternatives types)))) ∨
      entry = ("nullable", .bool true) ∨ (∃ reference, entry = ("$ref", .string reference)) ∨ entry ∈ members := by
  rw [rewriteSelf] at h
  split at h
  · next types htypes =>
    rcases mem_transformTypeArray h with htype | hany | hnullable | hrest
    · exact .inl ⟨types, htypes, .inl htype⟩
    · exact .inl ⟨types, htypes, .inr hany⟩
    · exact .inr (.inl hnullable)
    · exact .inr (.inr (mem_rewriteSchemaRef hrest))
  · exact .inr (.inr (mem_rewriteSchemaRef h))

theorem typesOf_eq_some (h : typesOf fields = some types) :
    fields.lookup "type" = some (.array types) := by
  rw [typesOf] at h
  split at h
  · next hlookup => rw [hlookup, Option.some.inj h]
  · cases h

theorem typesOf_eq_none {value : Value ν} (h : fields.lookup "type" = some value)
    (hvalue : ∀ types, value ≠ .array types) : typesOf fields = none := by
  rw [typesOf, h]
  split
  · next types heq => exact absurd (Option.some.inj heq) (hvalue types)
  · rfl

theorem typesOf_congr (h : members.lookup "type" = fields.lookup "type") : typesOf members = typesOf fields := by
  rw [typesOf, typesOf, h]

/-- Of a type array a rewriting leaves at most one that names nothing but null. -/
theorem typesOf_rewriteSelf (hsame : members.lookup "type" = fields.lookup "type") (htyped : Typed (.object fields)) :
    typesOf (rewriteSelf fields members) = none ∨
      ∃ types, typesOf fields = some types ∧ nonNull types = [] ∧
        typesOf (rewriteSelf fields members) = some types := by
  have hrest : typesOf (rewriteSchemaRef members) = typesOf fields :=
    typesOf_congr ((lookup_rewriteSchemaRef (by decide)).trans hsame)
  rw [rewriteSelf]
  split
  · next types htypes =>
    rw [transformTypeArray]
    split
    · next hnull => exact .inr ⟨types, htypes, hnull, hrest.trans htypes⟩
    · next type hone =>
      have hmem : type ∈ nonNull types := hone ▸ List.mem_singleton_self type
      obtain ⟨name, rfl⟩ := htyped types htypes type (List.mem_of_mem_filter hmem)
      have hname : (setNullable types (insertMember "type" (.string name) (rewriteSchemaRef members))).lookup "type" =
          some (.string name) := by
        rw [lookup_setNullable (by decide), lookup_insertMember, if_pos rfl]
      exact .inl (typesOf_eq_none hname (by simp))
    · refine .inl ?_
      have hnone : (setNullable types (insertMember "anyOf" (.array (Apidocs.alternatives types))
          (removeMember "type" (rewriteSchemaRef members)))).lookup "type" = none := by
        rw [lookup_setNullable (by decide), lookup_insertMember, if_neg (by decide), lookup_removeMember, if_pos rfl]
      rw [typesOf, hnone]
  · next hnone => exact .inl (hrest.trans hnone)

end

theorem alternatives_typed (h : ∀ type ∈ types, ∃ name, type = .string name) :
    alternatives types = (nonNull types).map typed := by
  rw [alternatives_eq]
  refine List.map_congr_left fun type hmem => ?_
  obtain ⟨name, rfl⟩ := h type (List.mem_of_mem_filter hmem)
  rfl

/-! ### Whole values -/

variable (L : Labels κ)

theorem rewriteFields_eq_self {L : Labels κ} {label : κ} {fields : List (String × Value ν)} :
    rewriteFields L label fields = fields ↔
      ∀ entry ∈ fields, rewriteAt L (L.next label (.member entry.1)) entry.2 = entry.2 := by
  rw [rewriteFields_eq, map_eq_self_iff]
  exact forall₂_congr fun entry _ => ⟨fun h => congrArg Prod.snd h, fun h => congrArg (Prod.mk entry.1) h⟩

theorem lookup_plain {label : κ} (hrewrites : L.rewrites label = true) {key : String}
    (hkey : key ∈ ["type", "$ref", "nullable"]) (fields : List (String × Value ν)) :
    (rewriteFields L label fields).lookup key = fields.lookup key := by
  rw [lookup_rewriteFields, L.plain label hrewrites key hkey]
  cases fields.lookup key with
  | none => rfl
  | some value => exact congrArg some (rewriteAt_idle L value)

/-- The alternatives of type names have nothing to rewrite, whatever their labels. -/
theorem rewriteAt_typed (label : κ) (name : String) :
    rewriteAt L label (typed (.string name) : Value ν) = typed (.string name) := by
  have hmembers : rewriteFields L label [("type", (.string name : Value ν))] = [("type", .string name)] := by
    rw [rewriteFields, rewriteFields, rewriteAt]
  have hself : rewriteSelf [("type", (.string name : Value ν))] [("type", .string name)] = [("type", .string name)] :=
    rfl
  rw [typed, rewriteAt, hmembers, hself, ite_self]

theorem rewriteAt_alternatives (h : ∀ type ∈ types, ∃ name, type = .string name) (label : κ) :
    rewriteAt L label (.array (alternatives types)) = .array (alternatives types) := by
  rw [rewriteAt, rewriteItems_eq, alternatives_typed h, List.map_map]
  refine congrArg Value.array (List.map_congr_left fun type hmem => ?_)
  obtain ⟨name, rfl⟩ := h type (List.mem_of_mem_filter hmem)
  exact rewriteAt_typed L _ name

theorem rewriteAt_empty (label : κ) : rewriteAt L label (.object [] : Value ν) = .object [] := by
  have hself : rewriteSelf [] ([] : List (String × Value ν)) = [] := rfl
  rw [rewriteAt, rewriteFields, hself, ite_self]

theorem rewriteAt_ofBool (label : κ) (b : Bool) : rewriteAt L label (ofBool b : Value ν) = ofBool b := by
  cases b with
  | true => exact rewriteAt_empty L label
  | false =>
    have hmembers : rewriteFields L label [("not", (.object [] : Value ν))] = [("not", .object [])] := by
      rw [rewriteFields, rewriteFields, rewriteAt_empty]
    have hself : rewriteSelf [("not", (.object [] : Value ν))] [("not", .object [])] = [("not", .object [])] := rfl
    rw [ofBool, rewriteAt, hmembers, hself, ite_self]

/-- A value is typed where it is rewritten. -/
def TypedAt (label : κ) (value : Value ν) : Prop :=
  Everywhere L.next (fun label part => L.rewrites label = true → Typed part) label value

/-- A second pass changes nothing. -/
theorem rewriteAt_rewriteAt (value : Value ν) : ∀ label : κ, value.Distinct → TypedAt L label value →
    rewriteAt L label (rewriteAt L label value) = rewriteAt L label value := by
  induction value using Value.induct with
  | bool b =>
    intro label _ _
    rw [rewriteAt]
    cases hrewrites : L.rewrites label with
    | false => rw [if_neg Bool.false_ne_true, rewriteAt, hrewrites, if_neg Bool.false_ne_true]
    | true =>
      rw [if_pos rfl]
      exact rewriteAt_ofBool L label b
  | array items ih =>
    intro label hdistinct htyped
    cases hdistinct with
    | array inner =>
      rw [rewriteAt, rewriteItems_eq, rewriteAt, rewriteItems_eq, List.map_map]
      refine congrArg Value.array (List.map_congr_left fun item hmem => ?_)
      obtain ⟨index, hindex⟩ := List.getElem?_of_mem hmem
      have hitem : TypedAt L (L.next label (.element index)) item := htyped.child hindex
      rw [L.next_element label index 0] at hitem
      exact ih item hmem _ (inner item hmem) hitem
  | object fields ih =>
    intro label hdistinct htyped
    cases hdistinct with
    | object names inner =>
      have hmembers : ∀ entry ∈ rewriteFields L label fields,
          rewriteAt L (L.next label (.member entry.1)) entry.2 = entry.2 := by
        rw [rewriteFields_eq]
        intro entry hmem
        obtain ⟨source, hsource, rfl⟩ := List.mem_map.mp hmem
        exact ih source hsource _ (inner source hsource) (htyped.child (lookup_of_mem names hsource))
      rw [rewriteAt]
      cases hrewrites : L.rewrites label with
      | false =>
        rw [if_neg Bool.false_ne_true, rewriteAt, hrewrites, if_neg Bool.false_ne_true,
          rewriteFields_eq_self.mpr hmembers]
      | true =>
        have hown := htyped.self hrewrites
        have hplain : ∀ key ∈ ["type", "$ref", "nullable"], ∀ part : Value ν,
            rewriteAt L (L.next label (.member key)) part = part := fun key hkey part => by
          rw [L.plain label hrewrites key hkey, rewriteAt_idle]
        have hsettled : rewriteFields L label (rewriteSelf fields (rewriteFields L label fields)) =
            rewriteSelf fields (rewriteFields L label fields) := by
          refine rewriteFields_eq_self.mpr fun entry hmem => ?_
          rcases mem_rewriteSelf hmem with ⟨types, htypes, ⟨type, -, rfl⟩ | rfl⟩ | rfl | ⟨reference, rfl⟩ | hrest
          · exact hplain "type" (by decide) type
          · exact rewriteAt_alternatives L (hown types htypes) _
          · exact hplain "nullable" (by decide) _
          · exact hplain "$ref" (by decide) _
          · exact hmembers entry hrest
        rw [if_pos rfl, rewriteAt, hrewrites, if_pos rfl, hsettled]
        refine congrArg Value.object (rewriteSelf_of_inert (fun types htypes => ?_) newRef_rewriteSelf)
        rcases typesOf_rewriteSelf (lookup_plain L hrewrites (by decide) fields) hown with hnone | ⟨_, -, hnull, hsome⟩
        · rw [hnone] at htypes
          cases htypes
        · rw [hsome] at htypes
          exact Option.some.inj htypes ▸ hnull
  | _ => intro label _ _; rw [rewriteAt, rewriteAt]

/-! ### What is clean afterwards -/

/-- A value is clean where it is rewritten. -/
def CleanAt (label : κ) (value : Value ν) : Prop :=
  Everywhere L.next (fun label part => L.rewrites label = true → Clean part) label value

/-- Where a value is rewritten, a type array names a type that is not null. -/
def NamesType (value : Value ν) : Prop :=
  ∀ fields types, value = .object fields → typesOf fields = some types → nonNull types ≠ []

theorem clean_empty : Clean (.object [] : Value ν) := by
  refine ⟨rfl, fun _ h => ?_⟩
  cases h

theorem cleanAt_string (label : κ) (text : String) : CleanAt L label (.string text : Value ν) :=
  .leaf (fun _ => trivial) fun step => by cases step <;> rfl

theorem cleanAt_ofBool (label : κ) (b : Bool) : CleanAt L label (ofBool b : Value ν) := by
  have hempty : ∀ label : κ, CleanAt L label (.object [] : Value ν) := fun label =>
    .object (fun _ => clean_empty) fun entry hmem => absurd hmem List.not_mem_nil
  cases b with
  | true => exact hempty label
  | false =>
    refine .object (fun _ => ⟨rfl, fun _ h => ?_⟩) (List.forall_mem_singleton.mpr (hempty _))
    cases h

theorem cleanAt_alternatives (h : ∀ type ∈ types, ∃ name, type = .string name) (label : κ) :
    CleanAt L label (.array (alternatives types)) := by
  rw [alternatives_typed h]
  refine .array (fun _ => trivial) fun index item hitem => ?_
  obtain ⟨type, hmem, rfl⟩ := List.mem_map.mp (List.mem_of_getElem? hitem)
  obtain ⟨name, rfl⟩ := h type (List.mem_of_mem_filter hmem)
  refine .object (fun _ => ⟨rfl, fun _ h => ?_⟩) (List.forall_mem_singleton.mpr (cleanAt_string L _ name))
  cases h

/-- A rewriting leaves no boolean, no type array and no old reference where it goes, if every type array there
    names a type. -/
theorem cleanAt_rewriteAt (value : Value ν) : ∀ label : κ, value.Distinct →
    Everywhere L.next (fun label part => L.rewrites label = true → Typed part ∧ NamesType part) label value →
    CleanAt L label (rewriteAt L label value) := by
  induction value using Value.induct with
  | bool b =>
    intro label _ _
    rw [rewriteAt]
    cases hrewrites : L.rewrites label with
    | false =>
      rw [if_neg Bool.false_ne_true]
      refine .leaf (fun h => ?_) fun step => by cases step <;> rfl
      rw [hrewrites] at h
      cases h
    | true =>
      rw [if_pos rfl]
      exact cleanAt_ofBool L label b
  | array items ih =>
    intro label hdistinct htyped
    cases hdistinct with
    | array inner =>
      rw [rewriteAt, rewriteItems_eq]
      refine .array (fun _ => trivial) fun index part hpart => ?_
      rw [List.getElem?_map] at hpart
      obtain ⟨item, hitem, rfl⟩ := Option.map_eq_some_iff.mp hpart
      have hmem := List.mem_of_getElem? hitem
      rw [← L.next_element label index 0]
      exact ih item hmem _ (inner item hmem) (htyped.child hitem)
  | object fields ih =>
    intro label hdistinct htyped
    cases hdistinct with
    | object names inner =>
      have hmembers : ∀ entry ∈ rewriteFields L label fields, CleanAt L (L.next label (.member entry.1)) entry.2 := by
        rw [rewriteFields_eq]
        intro entry hmem
        obtain ⟨source, hsource, rfl⟩ := List.mem_map.mp hmem
        exact ih source hsource _ (inner source hsource) (htyped.child (lookup_of_mem names hsource))
      rw [rewriteAt]
      cases hrewrites : L.rewrites label with
      | false =>
        rw [if_neg Bool.false_ne_true]
        refine .object (fun h => ?_) hmembers
        rw [hrewrites] at h
        cases h
      | true =>
        obtain ⟨hown, hnames⟩ := htyped.self hrewrites
        rw [if_pos rfl]
        refine .object (fun _ => ⟨?_, newRef_rewriteSelf⟩) fun entry hmem => ?_
        · rcases typesOf_rewriteSelf (lookup_plain L hrewrites (by decide) fields) hown with
            hnone | ⟨types, htypes, hnull, -⟩
          · exact hnone
          · exact absurd hnull (hnames fields types rfl htypes)
        · rcases mem_rewriteSelf hmem with ⟨types, htypes, ⟨type, htype, rfl⟩ | rfl⟩ | rfl | ⟨reference, rfl⟩ | hrest
          · obtain ⟨name, rfl⟩ := hown types htypes type htype
            exact cleanAt_string L _ name
          · exact cleanAt_alternatives L (hown types htypes) _
          · rw [L.plain label hrewrites "nullable" (by decide)]
            refine .leaf (fun h => ?_) fun step => by cases step <;> rfl
            rw [L.rewrites_idle] at h
            cases h
          · exact cleanAt_string L _ reference
          · exact hmembers entry hrest
  | string s => exact fun label _ _ => cleanAt_string L label s
  | _ => intro label _ _; exact .leaf (fun _ => trivial) fun step => by cases step <;> rfl

/-! ### Where two rewritings agree -/

theorem newRef_rewriteFields {label : κ} (hrewrites : L.rewrites label = true) {fields : List (String × Value ν)}
    (h : NewRef fields) : NewRef (rewriteFields L label fields) := by
  intro reference href
  rw [lookup_plain L hrewrites (by decide)] at href
  exact h reference href

/-- Two rewritings of a value agree when it is inert at every place that only one of them rewrites. -/
theorem rewriteAt_congr (L : Labels κ) (M : Labels κ') (value : Value ν) : ∀ (label : κ) (label' : κ'),
    value.Distinct →
    Everywhere (pairNext L.next M.next) (fun labels part => L.rewrites labels.1 ≠ M.rewrites labels.2 → Inert part)
      (label, label') value →
    rewriteAt L label value = rewriteAt M label' value := by
  induction value using Value.induct with
  | bool b =>
    intro label label' _ hinert
    have hsame : L.rewrites label = M.rewrites label' := not_not.mp hinert.self
    rw [rewriteAt, rewriteAt, hsame]
  | array items ih =>
    intro label label' hdistinct hinert
    cases hdistinct with
    | array inner =>
      rw [rewriteAt, rewriteAt, rewriteItems_eq, rewriteItems_eq]
      refine congrArg Value.array (List.map_congr_left fun item hmem => ?_)
      obtain ⟨index, hindex⟩ := List.getElem?_of_mem hmem
      have hitem : Everywhere (pairNext L.next M.next) _ (L.next label (.element index), M.next label' (.element index))
          item := hinert.child hindex
      rw [← L.next_element label index 0, ← M.next_element label' index 0]
      exact ih item hmem _ _ (inner item hmem) hitem
  | object fields ih =>
    intro label label' hdistinct hinert
    cases hdistinct with
    | object names inner =>
      have hmembers : rewriteFields L label fields = rewriteFields M label' fields := by
        rw [rewriteFields_eq, rewriteFields_eq]
        exact List.map_congr_left fun entry hmem => congrArg (Prod.mk entry.1)
          (ih entry hmem _ _ (inner entry hmem) (hinert.child (lookup_of_mem names hmem)))
      rw [rewriteAt, rewriteAt]
      cases hleft : L.rewrites label <;> cases hright : M.rewrites label'
      · rw [if_neg Bool.false_ne_true, if_neg Bool.false_ne_true, hmembers]
      · obtain ⟨htypes, href⟩ := hinert.self (by rw [hleft, hright]; decide)
        rw [if_neg Bool.false_ne_true, if_pos rfl, hmembers,
          rewriteSelf_of_inert htypes (newRef_rewriteFields M hright href)]
      · obtain ⟨htypes, href⟩ := hinert.self (by rw [hleft, hright]; decide)
        rw [if_neg Bool.false_ne_true, if_pos rfl, ← hmembers,
          rewriteSelf_of_inert htypes (newRef_rewriteFields L hleft href)]
      · rw [if_pos rfl, if_pos rfl, hmembers]
  | _ => intro label label' _ _; rw [rewriteAt, rewriteAt]

/-! ### What a rewriting leaves as it is -/

theorem nonNull_of_rewriteSelf_eq {fields members : List (String × Value ν)}
    (htypes : typesOf fields = some types) (h : rewriteSelf fields members = fields) :
    nonNull types = [] := by
  have hlookup := typesOf_eq_some htypes
  rw [rewriteSelf, htypes] at h
  simp only [transformTypeArray] at h
  split at h
  · next hnull => exact hnull
  · next type hone =>
    have hmem : type ∈ types := List.mem_of_mem_filter (hone ▸ List.mem_singleton_self type : type ∈ nonNull types)
    rw [← h, lookup_setNullable (by decide), lookup_insertMember, if_pos rfl] at hlookup
    obtain rfl := Option.some.inj hlookup
    have hsize := List.sizeOf_lt_of_mem hmem
    rw [Value.array.sizeOf_spec] at hsize
    omega
  · rw [← h, lookup_setNullable (by decide), lookup_insertMember, if_neg (by decide), lookup_removeMember,
      if_pos rfl] at hlookup
    cases hlookup

/-- A value that a rewriting leaves as it is has nothing to rewrite where it goes. -/
theorem inert_of_rewriteAt_eq (value : Value ν) : ∀ label : κ, rewriteAt L label value = value →
    Everywhere L.next (fun label part => L.rewrites label = true → Inert part) label value := by
  induction value using Value.induct with
  | bool b =>
    intro label h
    refine .leaf (fun hrewrites => ?_) fun step => by cases step <;> rfl
    rw [rewriteAt, hrewrites, if_pos rfl] at h
    cases b <;> cases h
  | array items ih =>
    intro label h
    rw [rewriteAt, rewriteItems_eq, Value.array.injEq, map_eq_self_iff] at h
    refine .array (fun _ => trivial) fun index item hitem => ?_
    have hmem := List.mem_of_getElem? hitem
    rw [L.next_element label index 0]
    exact ih item hmem _ (h item hmem)
  | object fields ih =>
    intro label h
    rw [rewriteAt, Value.object.injEq] at h
    cases hrewrites : L.rewrites label with
    | false =>
      rw [hrewrites, if_neg Bool.false_ne_true] at h
      refine .object (fun hfalse => ?_) fun entry hmem => ih entry hmem _ (rewriteFields_eq_self.mp h entry hmem)
      rw [hrewrites] at hfalse
      cases hfalse
    | true =>
      rw [hrewrites, if_pos rfl] at h
      have htypes : ∀ types, typesOf fields = some types → nonNull types = [] :=
        fun types htypes => nonNull_of_rewriteSelf_eq htypes h
      have href : NewRef fields := fun reference href => newRef_rewriteSelf reference (by rw [h]; exact href)
      rw [rewriteSelf_of_inert htypes (newRef_rewriteFields L hrewrites href)] at h
      exact .object (fun _ => ⟨htypes, href⟩) fun entry hmem => ih entry hmem _ (rewriteFields_eq_self.mp h entry hmem)
  | _ => intro label _; exact .leaf (fun _ => trivial) fun step => by cases step <;> rfl

end Vyuh.Apidocs
