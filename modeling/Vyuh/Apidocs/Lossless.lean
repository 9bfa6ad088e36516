import Vyuh.Apidocs.Settled

/-! When `transform_for_openapi` is complete and loses nothing: at the places of schemas, which it lists by hand. -/

namespace Vyuh.Apidocs

open Lib Json

variable {ν κ : Type} {value part : Value ν} {label : κ} {fields : List (String × Value ν)} {visit : Visit}
  {position : Position} {location : Location}

/-! ### Schemas -/

/-- A schema is a boolean or an object; its type is a name or an array of names, its reference a text. -/
def SchemaShaped (value : Value ν) : Prop :=
  (∃ b, value = .bool b) ∨ ∃ fields, value = .object fields ∧
    (∀ type, fields.lookup "type" = some type → (∃ name, type = .string name) ∨
      ∃ types, type = .array types ∧ ∀ member ∈ types, ∃ name, member = .string name) ∧
    ∀ reference, fields.lookup "$ref" = some reference → ∃ text, reference = .string text

/-- What stands at a position has the shape that the position asks for. -/
def Shaped : Position → Value ν → Prop
  | .schema, value => SchemaShaped value
  | .either, value => (∃ items, value = .array items) ∨ SchemaShaped value
  | .schemas, value => ∃ items, value = .array items
  | .named, value => ∃ entries, value = .object entries
  | .data, _ => True

def IsSchema (value : Value ν) : Prop := Everywhere Position.next Shaped .schema value

theorem Shaped.holds (h : Shaped position (.object fields)) (hholds : position.holdsSchema = true) :
    SchemaShaped (.object fields) := by
  cases position with
  | schema => exact h
  | either =>
    rcases h with ⟨items, hitems⟩ | hshaped
    · cases hitems
    · exact hshaped
  | _ => cases hholds

theorem SchemaShaped.typed (h : SchemaShaped value) : Typed value := by
  rcases h with ⟨b, rfl⟩ | ⟨fields, rfl, htype, -⟩
  · trivial
  · intro types htypes
    rcases htype _ (typesOf_eq_some htypes) with ⟨name, hname⟩ | ⟨names, hnames, hall⟩
    · cases hname
    · exact Value.array.inj hnames ▸ hall

theorem Inert.typed (h : Inert value) : Typed value := by
  cases value with
  | object fields =>
    intro types htypes type hmem
    have hnull := List.filter_eq_nil_iff.mp (h.1 types htypes) type hmem
    cases type with
    | string name => exact ⟨name, rfl⟩
    | _ => exact absurd rfl hnull
  | _ => trivial

/-! ### The alternatives of a type, spelled out -/

/-- An alternative says what a type says. -/
def SpellsOut (alternative type : Value ν) : Prop := alternative = typed type ∨ alternative = typed (.array [type])

theorem isNullType_of_mem_nonNull {types : List (Value ν)} {type : Value ν} (h : type ∈ nonNull types) :
    isNullType type = false := by
  have hnot := (List.mem_filter.mp h).2
  rw [Bool.not_eq_true'] at hnot
  exact hnot

theorem rewriteAt_spellsOut (L : Labels κ) (hrewrites : L.rewrites label = true) {item : Value ν}
    {name : String} (hnull : isNullType (.string name : Value ν) = false) (h : SpellsOut item (.string name)) :
    rewriteAt L label item = typed (.string name) := by
  rcases h with rfl | rfl
  · exact rewriteAt_typed L label name
  · have hmembers : rewriteFields L label [("type", (.array [.string name] : Value ν))] =
        [("type", .array [.string name])] := by
      rw [rewriteFields, rewriteFields, L.plain label hrewrites "type" (by decide), rewriteAt_idle]
    have hself : rewriteSelf [("type", (.array [.string name] : Value ν))] [("type", .array [.string name])] =
        [("type", .string name)] := by
      simp [rewriteSelf, typesOf, transformTypeArray, nonNull, hnull, setNullable, rewriteSchemaRef, insertMember,
        updateEntry, List.lookup]
    rw [typed, rewriteAt, hrewrites, if_pos rfl, hmembers, hself, typed]

theorem rewriteSchemaRef_eq_singleton (h : rewriteSchemaRef fields = [("type", value)]) :
    fields = [("type", value)] := by
  rw [rewriteSchemaRef] at h
  split at h
  · next reference href =>
    have hsome := lookup_insertMember "$ref" (.string (rewriteRef reference)) fields "$ref"
    rw [h, if_pos rfl] at hsome
    cases hsome
  · exact h

theorem insertMember_eq_singleton {key : String} {value held : Value ν}
    (h : insertMember key value fields = [(key, held)]) (hsome : fields.lookup key ≠ none) :
    value = held ∧ ∃ before, fields = [(key, before)] := by
  cases fields with
  | nil => exact absurd rfl hsome
  | cons first rest =>
    obtain ⟨other, before⟩ := first
    rw [insertMember, updateEntry] at h
    split at h
    · next hother =>
      obtain ⟨hfirst, rfl⟩ := List.cons_eq_cons.mp h
      exact ⟨(Prod.mk.inj hfirst).2, before, by rw [hother]⟩
    · next hother =>
      obtain ⟨hfirst, -⟩ := List.cons_eq_cons.mp h
      exact absurd (Prod.mk.inj hfirst).1 hother

theorem rewriteFields_eq_singleton (L : Labels κ) (hrewrites : L.rewrites label = true)
    (h : rewriteFields L label fields = [("type", value)]) :
    fields = [("type", value)] := by
  cases fields with
  | nil => cases h
  | cons first rest =>
    obtain ⟨key, held⟩ := first
    rw [rewriteFields] at h
    obtain ⟨hfirst, hrest⟩ := List.cons_eq_cons.mp h
    obtain ⟨rfl, hvalue⟩ := Prod.mk.inj hfirst
    rw [L.plain label hrewrites "type" (by decide), rewriteAt_idle] at hvalue
    rw [rewriteFields_eq, List.map_eq_nil_iff] at hrest
    rw [hvalue, hrest]

/-- Only what spells a type out becomes its alternative. -/
theorem spellsOut_of_rewriteAt (L : Labels κ) (hrewrites : L.rewrites label = true) {item : Value ν}
    {name : String} (h : rewriteAt L label item = typed (.string name)) :
    SpellsOut item (.string name) := by
  cases item with
  | bool b =>
    rw [rewriteAt, hrewrites, if_pos rfl] at h
    cases b <;> simp [ofBool, typed] at h
  | object fields =>
    rw [rewriteAt, hrewrites, if_pos rfl, typed, Value.object.injEq] at h
    have hmembers : ∀ {value : Value ν}, rewriteSchemaRef (rewriteFields L label fields) = [("type", value)] →
        fields = [("type", value)] :=
      fun hsingle => rewriteFields_eq_singleton L hrewrites (rewriteSchemaRef_eq_singleton hsingle)
    rw [rewriteSelf] at h
    split at h
    · next types htypes =>
      have hlookup : (rewriteSchemaRef (rewriteFields L label fields)).lookup "type" = some (.array types) := by
        rw [lookup_rewriteSchemaRef (by decide), lookup_plain L hrewrites (by decide), typesOf_eq_some htypes]
      rw [transformTypeArray] at h
      split at h
      · rw [h] at hlookup
        cases hlookup
      · next type hone =>
        have hnullable : types.any isNullType = false := by
          by_contra hany
          rw [setNullable, if_pos (Bool.of_not_eq_false hany)] at h
          have hsome := lookup_insertMember "nullable" (.bool true) (insertMember "type" type
            (rewriteSchemaRef (rewriteFields L label fields))) "nullable"
          rw [h, if_pos rfl] at hsome
          cases hsome
        rw [setNullable, hnullable, if_neg Bool.false_ne_true] at h
        obtain ⟨rfl, before, hbefore⟩ := insertMember_eq_singleton h (by rw [hlookup]; exact Option.some_ne_none _)
        rw [hbefore] at hlookup
        obtain rfl := Option.some.inj hlookup
        have hall : nonNull types = types := List.filter_eq_self.mpr fun type hmem => by
          have hnot := List.any_eq_false.mp hnullable type hmem
          rw [Bool.not_eq_true] at hnot
          rw [hnot]
          rfl
        rw [hmembers hbefore, ← hall, hone]
        exact .inr rfl
      · have hnone := congrArg (List.lookup "type") h
        rw [lookup_setNullable (by decide), lookup_insertMember, if_neg (by decide), lookup_removeMember,
          if_pos rfl] at hnone
        cases hnone
    · rw [hmembers h]
      exact .inl rfl
  | _ => rw [rewriteAt] at h; cases h

theorem map_spellsOut_iff (L : Labels κ) (hrewrites : L.rewrites label = true) {types : List (Value ν)}
    (htypes : ∀ type ∈ types, ∃ name, type = .string name) (items : List (Value ν)) :
    items.map (rewriteAt L label) = alternatives types ↔ List.Forall₂ SpellsOut items (nonNull types) := by
  have hnames : ∀ type ∈ nonNull types, isNullType type = false ∧ ∃ name, type = .string name :=
    fun type hmem => ⟨isNullType_of_mem_nonNull hmem, htypes type (List.mem_of_mem_filter hmem)⟩
  rw [alternatives_typed htypes]
  generalize nonNull types = named at hnames
  induction items generalizing named with
  | nil => cases named <;> simp
  | cons item rest ih =>
    cases named with
    | nil => simp
    | cons type others =>
      rw [List.forall_mem_cons] at hnames
      obtain ⟨⟨hnull, name, rfl⟩, hothers⟩ := hnames
      rw [List.map_cons, List.map_cons, List.cons.injEq, List.forall₂_cons]
      exact and_congr ⟨spellsOut_of_rewriteAt L hrewrites, rewriteAt_spellsOut L hrewrites hnull⟩ (ih others hothers)

/-! ### One step down -/

/-- A member that the rewriting of its schema does not set. The alternatives of several types take the place of
    `anyOf`. -/
def Spared (L : Labels κ) (label : κ) (value part : Value ν) (step : Step) : Prop :=
  Inert value ∨ ∀ key, step = .member key → key ∉ ["type", "$ref", "nullable"] ∧
    (key = "anyOf" → ∀ fields types, value = .object fields → typesOf fields = some types →
      2 ≤ (nonNull types).length → rewriteAt L (L.next label step) part = .array (alternatives types))

section

variable {fields members : List (String × Value ν)}

theorem lookup_anyOf_several {types : List (Value ν)} (htypes : typesOf fields = some types)
    (hseveral : 2 ≤ (nonNull types).length) :
    (rewriteSelf fields members).lookup "anyOf" = some (.array (alternatives types)) := by
  rw [rewriteSelf, htypes]
  simp only [transformTypeArray]
  split
  · next hnull => rw [hnull] at hseveral; cases hseveral
  · next hone => rw [hone, List.length_singleton] at hseveral; omega
  · rw [lookup_setNullable (by decide), lookup_insertMember, if_pos rfl]

theorem lookup_anyOf_kept (hfew : ∀ types, typesOf fields = some types → (nonNull types).length < 2) :
    (rewriteSelf fields members).lookup "anyOf" = members.lookup "anyOf" := by
  rw [rewriteSelf]
  split
  · next types htypes =>
    have hlength := hfew types htypes
    rw [transformTypeArray]
    split
    · exact lookup_rewriteSchemaRef (by decide)
    · rw [lookup_setNullable (by decide), lookup_insertMember, if_neg (by decide), lookup_rewriteSchemaRef (by decide)]
    · next hseveral =>
      rw [hseveral, List.length_cons, List.length_cons] at hlength
      omega
  · exact lookup_rewriteSchemaRef (by decide)

/-- What the code sets `nullable` to, if it does. -/
theorem lookup_nullable_rewriteSelf : (rewriteSelf fields members).lookup "nullable" = members.lookup "nullable" ∨
    (rewriteSelf fields members).lookup "nullable" = some (.bool true) := by
  have hset : ∀ (types : List (Value ν)) {inner : List (String × Value ν)},
      inner.lookup "nullable" = members.lookup "nullable" →
      (setNullable types inner).lookup "nullable" = members.lookup "nullable" ∨
        (setNullable types inner).lookup "nullable" = some (.bool true) := by
    intro types inner hinner
    rw [setNullable]
    split
    · exact .inr (by rw [lookup_insertMember, if_pos rfl])
    · exact .inl hinner
  have href : (rewriteSchemaRef members).lookup "nullable" = members.lookup "nullable" :=
    lookup_rewriteSchemaRef (by decide)
  rw [rewriteSelf]
  split
  · rw [transformTypeArray]
    split
    · exact .inl href
    · exact hset _ (by rw [lookup_insertMember, if_neg (by decide), href])
    · exact hset _ (by rw [lookup_insertMember, if_neg (by decide), lookup_removeMember, if_neg (by decide), href])
  · exact .inl href

end

theorem child_rewriteAt (L : Labels κ) {value part : Value ν} {step : Step}
    (hchild : value.child step = some part) (hspared : L.rewrites label = true → Spared L label value part step) :
    (rewriteAt L label value).child step = some (rewriteAt L (L.next label step) part) := by
  cases value with
  | array items =>
    cases step with
    | member key => cases hchild
    | element index =>
      have hitem : items[index]? = some part := hchild
      rw [rewriteAt, rewriteItems_eq, Value.child, List.getElem?_map, hitem, L.next_element label index 0]
      rfl
  | object fields =>
    cases step with
    | element index => cases hchild
    | member key =>
      have hpart : fields.lookup key = some part := hchild
      have hmember : (rewriteFields L label fields).lookup key =
          some (rewriteAt L (L.next label (.member key)) part) := by
        rw [lookup_rewriteFields, hpart, Option.map_some]
      rw [rewriteAt, Value.child]
      cases hrewrites : L.rewrites label with
      | false => rw [if_neg Bool.false_ne_true, hmember]
      | true =>
        rw [if_pos rfl]
        rcases hspared hrewrites with ⟨htypes, href⟩ | hkey
        · rw [rewriteSelf_of_inert htypes (newRef_rewriteFields L hrewrites href), hmember]
        · obtain ⟨hplain, hany⟩ := hkey key rfl
          by_cases hanyOf : key = "anyOf"
          · subst hanyOf
            by_cases hseveral : ∃ types, typesOf fields = some types ∧ 2 ≤ (nonNull types).length
            · obtain ⟨types, htypes, hlength⟩ := hseveral
              rw [lookup_anyOf_several htypes hlength, hany rfl fields types rfl htypes hlength]
            · rw [not_exists] at hseveral
              rw [lookup_anyOf_kept fun types htypes => not_le.mp fun hlength => hseveral types ⟨htypes, hlength⟩,
                hmember]
          · have hother : key ∉ ["type", "anyOf", "nullable", "$ref"] := by
              simp only [List.mem_cons, List.not_mem_nil, or_false, not_or] at hplain ⊢
              exact ⟨hplain.1, hanyOf, hplain.2.2, hplain.2.1⟩
            rw [lookup_rewriteSelf hother, hmember]
  | _ => cases step <;> cases hchild

/-! ### The condition -/

/-- What should become of a value at a position: every schema in it is rewritten, and nothing else. -/
def completed (position : Position) (value : Value ν) : Value ν := rewriteAt positions position value

/-- What the transformation promises: in every schema position of the outcome no boolean, no type array and no
    reference of JSON Schema; every keyword of the source but the type and the reference at its place, with its
    schemas transformed (and `nullable` set where the type array has null); and a second pass changes nothing. -/
structure Lossless (value outcome : Value ν) : Prop where
  clean : ∀ location part, (Position.schema.along location).holdsSchema = true →
    outcome.locate location = some part → Clean part
  kept : ∀ location fields keyword part, (Position.schema.along location).holdsSchema = true →
    value.locate location = some (.object fields) → fields.lookup keyword = some part →
    keyword ≠ "type" → keyword ≠ "$ref" →
    outcome.locate (location ++ [.member keyword]) = some (completed (.ofKeyword keyword) part) ∨
      keyword = "nullable" ∧ outcome.locate (location ++ [.member keyword]) = some (.bool true)
  idempotent : transformForOpenapi outcome = outcome

/-- What a part must be, by its position and by how the code takes it: inert, if it is a schema that the code does
    not take for one or the other way round; and as a schema it has no type array that names nothing but null, and
    no `anyOf` beside several types, unless it spells them out. -/
def Safe (labels : Position × Visit) (part : Value ν) : Prop :=
  (positions.rewrites labels.1 ≠ visits.rewrites labels.2 → Inert part) ∧
  (labels.1.holdsSchema = true → ∀ fields types, part = .object fields → typesOf fields = some types →
    nonNull types ≠ [] ∧ (2 ≤ (nonNull types).length → ∀ held, fields.lookup "anyOf" = some held →
      ∃ items, held = .array items ∧ List.Forall₂ SpellsOut items (nonNull types)))

/-- Every part is safe: the schemas are where the code looks for them. -/
def SchemasReached (value : Value ν) : Prop :=
  Everywhere (pairNext Position.next Visit.next) Safe (.schema, .transformed) value

theorem Safe.typed {labels : Position × Visit} (h : Safe labels part) (hshaped : Shaped labels.1 part)
    (hrewrites : visits.rewrites labels.2 = true) : Typed part := by
  by_cases hholds : labels.1.holdsSchema = true
  · cases part with
    | object fields => exact (hshaped.holds hholds).typed
    | _ => trivial
  · exact (h.1 fun heq => hholds (heq.trans hrewrites)).typed

/-! ### Schemas that are reached are transformed -/

theorem plain_of_ofKeyword {key : String} (h : Position.ofKeyword key ≠ .data) :
    key ∉ ["type", "$ref", "nullable"] := by
  intro hmem
  simp only [List.mem_cons, List.not_mem_nil, or_false] at hmem
  rcases hmem with rfl | rfl | rfl <;> exact h (by decide)

/-- A member of a safe schema is spared, unless the rewriting sets it. -/
theorem spared_of_schema (L : Labels κ) {key : String} (hpart : fields.lookup key = some part)
    (hplain : key ∉ ["type", "$ref", "nullable"])
    (helements : L.rewrites (L.next (L.next label (.member "anyOf")) (.element 0)) = true)
    (htyped : Typed (.object fields))
    (hany : ∀ types, typesOf fields = some types → 2 ≤ (nonNull types).length →
      ∀ held, fields.lookup "anyOf" = some held → ∃ items, held = .array items ∧
        List.Forall₂ SpellsOut items (nonNull types)) :
    Spared L label (.object fields) part (.member key) := by
  refine .inr fun other hother => ?_
  obtain rfl := Step.member.inj hother
  refine ⟨hplain, ?_⟩
  rintro rfl _ types ⟨⟩ htypes hseveral
  obtain ⟨items, rfl, hspells⟩ := hany types htypes hseveral part hpart
  rw [rewriteAt, rewriteItems_eq, (map_spellsOut_iff L helements (htyped types htypes) items).mpr hspells]

/-- A step from what is no data to what is no data is spared, if the place is safe. -/
theorem Safe.spared {value part : Value ν} {step : Step} (h : Safe (position, visit) value)
    (hshaped : Shaped position value) (hpart : value.child step = some part)
    (hnext : position.next step ≠ .data) :
    (positions.rewrites position = true → Spared positions position value part step) ∧
      (visits.rewrites visit = true → Spared visits visit value part step) := by
  cases value with
  | array items =>
    cases step with
    | member key => cases hpart
    | element index => exact ⟨fun _ => .inl trivial, fun _ => .inl trivial⟩
  | object fields =>
    cases step with
    | element index => cases hpart
    | member key =>
      by_cases hholds : position.holdsSchema = true
      · have htyped := (hshaped.holds hholds).typed
        rw [Position.next_member hholds] at hnext
        have hplain := plain_of_ofKeyword hnext
        have hany := fun types htypes => ((h.2 hholds) fields types rfl htypes).2
        refine ⟨fun _ => spared_of_schema positions hpart hplain ?_ htyped hany, fun hrewrites => ?_⟩
        · show ((position.next (.member "anyOf")).next (.element 0)).holdsSchema = true
          rw [Position.next_member hholds]
          decide
        · obtain rfl := of_decide_eq_true hrewrites
          exact spared_of_schema visits hpart hplain (by decide) htyped hany
      · exact ⟨fun hrewrites => absurd hrewrites hholds,
          fun hrewrites => .inl (h.1 fun heq => hholds (heq.trans hrewrites))⟩
  | _ => cases step <;> cases hpart

theorem locate_completed {location : Location} : ∀ {position : Position} {visit : Visit} {value part : Value ν},
    Everywhere (pairNext Position.next Visit.next) Safe (position, visit) value →
    Everywhere Position.next Shaped position value → position.along location ≠ .data →
    value.locate location = some part →
    (completed position value).locate location = some (completed (position.along location) part) := by
  induction location with
  | nil =>
    intro position visit value part _ _ _ hpart
    rw [Option.some.inj hpart]
    rfl
  | cons step rest ih =>
    intro position visit value part hsafe hshaped hposition hpart
    rw [Position.along_cons] at hposition
    have hnext : position.next step ≠ .data := fun hdata => hposition (by rw [hdata, Position.along_data])
    obtain ⟨middle, hmiddle, hrest⟩ := Option.bind_eq_some_iff.mp hpart
    have hchild := child_rewriteAt positions hmiddle (hsafe.self.spared hshaped.self hmiddle hnext).1
    rw [Value.locate_cons, completed, hchild, Option.bind_some]
    exact ih (hsafe.child hmiddle) (hshaped.child hmiddle) hposition hrest

/-- Every keyword of a safe schema stays, with its schemas transformed. -/
theorem child_completed {keyword : String} (hsafe : Safe (position, visit) (.object fields))
    (hshaped : Shaped position (.object fields)) (hholds : position.holdsSchema = true)
    (hpart : fields.lookup keyword = some part) (htype : keyword ≠ "type") (href : keyword ≠ "$ref") :
    (completed position (.object fields)).child (.member keyword) = some (completed (.ofKeyword keyword) part) ∨
      keyword = "nullable" ∧ (completed position (.object fields)).child (.member keyword) = some (.bool true) := by
  have hmember : (Value.object fields).child (.member keyword) = some part := hpart
  by_cases hnullable : keyword = "nullable"
  · subst hnullable
    have hrewrites : positions.rewrites position = true := hholds
    rw [completed, rewriteAt, hrewrites, if_pos rfl, Value.child]
    rcases @lookup_nullable_rewriteSelf _ fields (rewriteFields positions position fields) with hkept | hset
    · rw [hkept, lookup_rewriteFields, hpart, Option.map_some]
      exact .inl (congrArg (fun inner => some (rewriteAt positions inner part)) (Position.next_member hholds "nullable"))
    · exact .inr ⟨rfl, hset⟩
  · have hspared : Spared positions position (.object fields) part (.member keyword) := by
      refine spared_of_schema positions hpart (by simp [htype, href, hnullable]) ?_ (hshaped.holds hholds).typed
        fun types htypes => (hsafe.2 hholds fields types rfl htypes).2
      show ((position.next (.member "anyOf")).next (.element 0)).holdsSchema = true
      rw [Position.next_member hholds]
      decide
    refine .inl ((child_rewriteAt positions hmember fun _ => hspared).trans ?_)
    exact congrArg (fun inner => some (rewriteAt positions inner part)) (Position.next_member hholds keyword)

/-- On safe values the transformation is the one that the positions of schemas ask for. -/
theorem transform_eq_completed (hdistinct : value.Distinct) (hsafe : SchemasReached value) :
    transformForOpenapi value = completed .schema value := by
  rw [transform_eq_rewriteAt]
  exact (rewriteAt_congr positions visits value _ _ hdistinct (hsafe.mono fun labels part h => h.1)).symm

theorem SchemasReached.lossless (hdistinct : value.Distinct) (hschema : IsSchema value)
    (hsafe : SchemasReached value) : Lossless value (transformForOpenapi value) := by
  have hpair := everywhere_pair.mp hsafe
  refine ⟨fun location part hholds hpart => ?_, fun location fields keyword part hholds hfields hpart htype href => ?_,
    ?_⟩
  · rw [transform_eq_completed hdistinct hsafe] at hpart
    refine cleanAt_rewriteAt positions value .schema hdistinct ?_ location part hpart hholds
    intro location part hpart hholds
    refine ⟨?_, fun fields types hobject htypes => ((hpair location part hpart).2 hholds fields types hobject htypes).1⟩
    cases part with
    | object fields => exact ((hschema location _ hpart).holds hholds).typed
    | _ => trivial
  · have hposition : Position.schema.along location ≠ .data := fun hdata => by rw [hdata] at hholds; cases hholds
    have hself := locate_completed hsafe hschema hposition hfields
    rw [transform_eq_completed hdistinct hsafe, Value.locate_append, hself, Option.bind_some, Value.locate_singleton]
    exact child_completed (hpair location _ hfields) (hschema location _ hfields) hholds hpart htype href
  · rw [transform_eq_rewriteAt, transform_eq_rewriteAt]
    refine rewriteAt_rewriteAt visits value .transformed hdistinct fun location part hpart hrewrites => ?_
    exact (hpair location part hpart).typed (hschema location part hpart) hrewrites

/-! ### What the transformation leaves is where the schemas are -/

theorem foldl_idle (L : Labels κ) (location : Location) : location.foldl L.next L.idle = L.idle := by
  induction location with
  | nil => rfl
  | cons step rest ih => rw [List.foldl_cons, L.next_idle, ih]

theorem everywhere_idle (L : Labels κ) {Q : Value ν → Prop} (value : Value ν) :
    Everywhere L.next (fun label part => L.rewrites label = true → Q part) L.idle value := by
  intro location part _ hrewrites
  rw [foldl_idle, L.rewrites_idle] at hrewrites
  cases hrewrites

/-- A value that is not rewritten itself is clean when it is afterwards. -/
theorem clean_of_rewriteAt (L : Labels κ) (hrewrites : L.rewrites label = false)
    (h : Clean (rewriteAt L label value)) : Clean value := by
  cases value with
  | bool b =>
    rw [rewriteAt, hrewrites, if_neg Bool.false_ne_true] at h
    exact h
  | object fields =>
    rw [rewriteAt, hrewrites, if_neg Bool.false_ne_true] at h
    obtain ⟨htypes, href⟩ := h
    constructor
    · by_contra hsome
      obtain ⟨types, hsome⟩ := Option.ne_none_iff_exists'.mp hsome
      have hlookup : (rewriteFields L label fields).lookup "type" =
          some (rewriteAt L (L.next label (.member "type")) (.array types)) := by
        rw [lookup_rewriteFields, typesOf_eq_some hsome, Option.map_some]
      rw [typesOf, hlookup] at htypes
      cases htypes
    · intro reference hreference
      refine href reference ?_
      rw [lookup_rewriteFields, hreference, Option.map_some, rewriteAt]
  | _ => trivial

section

variable {value : Value ν}

/-- A map of schemas has no type array and no reference of its own. -/
theorem inert_of_named (hschema : IsSchema value) {entries : List (String × Value ν)}
    (hat : Position.schema.along location = .named)
    (hpart : value.locate location = some (.object entries)) :
    Inert (.object entries) := by
  have hentry : ∀ name entry, entries.lookup name = some entry → SchemaShaped entry := by
    intro name entry hlookup
    have hinner : value.locate (location ++ [.member name]) = some entry := by
      rw [Value.locate_append, hpart, Option.bind_some, Value.locate_singleton, Value.child, hlookup]
    have hshaped := hschema _ entry hinner
    rwa [← Position.along, Position.along_concat, hat] at hshaped
  constructor
  · intro types htypes
    rcases hentry "type" _ (typesOf_eq_some htypes) with ⟨b, hb⟩ | ⟨fields, hfields, -⟩
    · cases hb
    · cases hfields
  · intro reference href
    rcases hentry "$ref" _ href with ⟨b, hb⟩ | ⟨fields, hfields, -⟩
    · cases hb
    · cases hfields

theorem Lossless.safe (hschema : IsSchema value) (h : Lossless value (transformForOpenapi value))
    (hpart : value.locate location = some part) (hposition : Position.schema.along location ≠ .data)
    (houtcome : (transformForOpenapi value).locate location = some (rewriteAt visits visit part)) :
    Safe (Position.schema.along location, visit) part := by
  have hshaped : Shaped (Position.schema.along location) part := hschema location part hpart
  have hclean : (Position.schema.along location).holdsSchema = true → Clean (rewriteAt visits visit part) :=
    fun hholds => h.clean location _ hholds houtcome
  refine ⟨fun hdiffer => ?_, ?_⟩
  · by_cases hholds : (Position.schema.along location).holdsSchema = true
    · refine (clean_of_rewriteAt visits ?_ (hclean hholds)).inert
      exact Bool.eq_false_of_not_eq_true fun hrewrites => hdiffer (hholds.trans hrewrites.symm)
    · cases hat : Position.schema.along location with
      | schemas =>
        rw [hat] at hshaped
        obtain ⟨items, rfl⟩ := hshaped
        trivial
      | named =>
        rw [hat] at hshaped
        obtain ⟨entries, rfl⟩ := hshaped
        exact inert_of_named hschema hat hpart
      | data => exact absurd hat hposition
      | _ => rw [hat] at hholds; exact absurd rfl hholds
  · rintro hholds fields types rfl htypes
    cases hrewrites : visits.rewrites visit with
    | false =>
      have hnone := (clean_of_rewriteAt visits hrewrites (hclean hholds)).1
      rw [hnone] at htypes
      cases htypes
    | true =>
      have hself : rewriteAt visits visit (.object fields) =
          .object (rewriteSelf fields (rewriteFields visits visit fields)) := by
        rw [rewriteAt, hrewrites, if_pos rfl]
      rw [hself] at houtcome hclean
      refine ⟨fun hnull => ?_, fun hseveral held hheld => ?_⟩
      · have hkept : rewriteSelf fields (rewriteFields visits visit fields) =
            rewriteSchemaRef (rewriteFields visits visit fields) := by
          rw [rewriteSelf, htypes]
          simp only [transformTypeArray, hnull]
        have hsame : (rewriteSchemaRef (rewriteFields visits visit fields)).lookup "type" = fields.lookup "type" :=
          (lookup_rewriteSchemaRef (by decide)).trans (lookup_plain visits hrewrites (by decide) fields)
        have hnone := (hclean hholds).1
        rw [hkept, typesOf_congr hsame, htypes] at hnone
        cases hnone
      · have hlocated := h.kept location fields "anyOf" held hholds hpart hheld (by decide) (by decide)
        rw [Value.locate_append, houtcome, Option.bind_some, Value.locate_singleton, Value.child,
          lookup_anyOf_several htypes hseveral] at hlocated
        have hinner : value.locate (location ++ [.member "anyOf"]) = some held := by
          rw [Value.locate_append, hpart, Option.bind_some, Value.locate_singleton, Value.child, hheld]
        have hheldShaped := hschema _ held hinner
        rw [← Position.along, Position.along_concat, Position.next_member hholds] at hheldShaped
        obtain ⟨items, rfl⟩ := hheldShaped
        refine ⟨items, rfl, ?_⟩
        rcases hlocated with heq | ⟨hnullable, -⟩
        · have hitems := Value.array.inj (Option.some.inj heq)
          rw [rewriteItems_eq] at hitems
          exact (map_spellsOut_iff positions rfl ((hshaped.holds hholds).typed types htypes) items).mp hitems.symm
        · exact absurd hnullable (by decide)

/-- Data lies below a keyword of a schema. -/
theorem Shaped.data {part inner : Value ν} {step : Step} (h : Shaped position part)
    (hposition : position ≠ .data) (hinner : part.child step = some inner) (hnext : position.next step = .data) :
    ∃ fields key, part = .object fields ∧ step = .member key ∧ position.holdsSchema = true ∧
      Position.ofKeyword key = .data := by
  cases part with
  | array items =>
    cases step with
    | member key => cases hinner
    | element index =>
      cases position with
      | schema =>
        rcases h with ⟨b, hb⟩ | ⟨fields, hfields, -⟩
        · cases hb
        · cases hfields
      | named =>
        obtain ⟨entries, hentries⟩ := h
        cases hentries
      | data => exact absurd rfl hposition
      | _ => cases hnext
  | object fields =>
    cases step with
    | element index => cases hinner
    | member key =>
      cases position with
      | schema => exact ⟨fields, key, rfl, rfl, rfl, hnext⟩
      | either => exact ⟨fields, key, rfl, rfl, rfl, hnext⟩
      | schemas =>
        obtain ⟨items, hitems⟩ := h
        cases hitems
      | named => cases hnext
      | data => exact absurd rfl hposition
  | _ => cases step <;> cases hinner

theorem untouched_of_data {key : String} (h : Position.ofKeyword key = .data) : Visit.ofKeyword key = .untouched := by
  rw [Visit.ofKeyword]
  split_ifs with hproperties hnested hcomposition
  · rw [hproperties] at h
    exact absurd h (by decide)
  · simp only [nestedKeywords, List.mem_cons, List.not_mem_nil, or_false] at hnested
    rcases hnested with rfl | rfl | rfl | rfl | rfl <;> exact absurd h (by decide)
  · simp only [compositionKeywords, List.mem_cons, List.not_mem_nil, or_false] at hcomposition
    rcases hcomposition with rfl | rfl | rfl <;> exact absurd h (by decide)
  · rfl

/-- Type names are no schemas, whatever the code takes them for. -/
theorem rewriteAt_typeNames (L : Labels κ) {type : Value ν}
    (h : (∃ name, type = .string name) ∨ ∃ types, type = .array types ∧
      ∀ member ∈ types, ∃ name, member = .string name) :
    rewriteAt L label type = type := by
  rcases h with ⟨name, rfl⟩ | ⟨types, rfl, hnames⟩
  · rw [rewriteAt]
  · rw [rewriteAt, rewriteItems_eq, Value.array.injEq, map_eq_self_iff]
    intro member hmem
    obtain ⟨name, rfl⟩ := hnames member hmem
    rw [rewriteAt]

theorem transformed_ne_bool {b : Bool} : rewriteAt visits .transformed value ≠ .bool b := by
  intro h
  cases value with
  | bool b' => cases b' <;> cases h
  | _ => rw [rewriteAt] at h; cases h

/-- Data that the code takes for a schema is one that it leaves as it is. -/
theorem Lossless.inert_data (hschema : IsSchema value) (h : Lossless value (transformForOpenapi value))
    {part inner : Value ν} {step : Step} (hpart : value.locate location = some part)
    (hposition : Position.schema.along location ≠ .data)
    (houtcome : (transformForOpenapi value).locate location = some (rewriteAt visits visit part))
    (hinner : part.child step = some inner) (hnext : (Position.schema.along location).next step = .data) :
    Everywhere visits.next (fun label part => visits.rewrites label = true → Inert part) (visit.next step) inner := by
  have hshaped : Shaped (Position.schema.along location) part := hschema location part hpart
  obtain ⟨fields, key, rfl, rfl, hholds, hdata⟩ := hshaped.data hposition hinner hnext
  cases visit with
  | transformed =>
    show Everywhere _ _ (Visit.ofKeyword key) inner
    rw [untouched_of_data hdata]
    exact everywhere_idle visits inner
  | elements => exact everywhere_idle visits inner
  | untouched => exact everywhere_idle visits inner
  | members =>
    refine inert_of_rewriteAt_eq visits inner .transformed ?_
    have hlookup : fields.lookup key = some inner := hinner
    obtain ⟨b, hb⟩ | ⟨_, hfields, htype, href⟩ := hshaped.holds hholds
    · cases hb
    obtain rfl := Value.object.inj hfields
    by_cases hkeytype : key = "type"
    · subst hkeytype
      exact rewriteAt_typeNames visits (htype inner hlookup)
    by_cases hkeyref : key = "$ref"
    · subst hkeyref
      obtain ⟨text, rfl⟩ := href inner hlookup
      exact rewriteAt_typeNames visits (.inl ⟨text, rfl⟩)
    have hmember : (rewriteAt visits .members (.object fields)).child (.member key) =
        some (rewriteAt visits .transformed inner) := child_rewriteAt visits hinner fun hrewrites => by cases hrewrites
    have hkept := h.kept location fields key inner hholds hpart hlookup hkeytype hkeyref
    rw [Value.locate_append, houtcome, Option.bind_some, Value.locate_singleton, hmember] at hkept
    rcases hkept with heq | ⟨-, heq⟩
    · rw [Option.some.inj heq, hdata]
      exact rewriteAt_idle positions inner
    · exact absurd (Option.some.inj heq) transformed_ne_bool

theorem safe_of_data {inner : Value ν}
    (h : Everywhere visits.next (fun label part => visits.rewrites label = true → Inert part) visit inner) :
    Everywhere (pairNext Position.next Visit.next) Safe (.data, visit) inner := by
  refine everywhere_pair.mpr fun location part hpart => ⟨fun hdiffer => h location part hpart ?_, fun hholds => ?_⟩
  · rw [← Position.along, Position.along_data] at hdiffer
    exact Bool.eq_true_of_not_eq_false fun hfalse => hdiffer hfalse.symm
  · rw [← Position.along, Position.along_data] at hholds
    cases hholds

theorem Lossless.everywhere_safe (hschema : IsSchema value) (h : Lossless value (transformForOpenapi value))
    (part : Value ν) : ∀ (location : Location) (visit : Visit), value.locate location = some part →
    Position.schema.along location ≠ .data →
    (transformForOpenapi value).locate location = some (rewriteAt visits visit part) →
    Everywhere (pairNext Position.next Visit.next) Safe (Position.schema.along location, visit) part := by
  induction part using Value.child_induct with
  | inside part ih =>
    intro location visit hpart hposition houtcome
    have hsafe := h.safe hschema hpart hposition houtcome
    refine everywhere_iff.mpr ⟨hsafe, fun step inner hinner => ?_⟩
    show Everywhere _ Safe ((Position.schema.along location).next step, visit.next step) inner
    by_cases hnext : (Position.schema.along location).next step = .data
    · rw [hnext]
      exact safe_of_data (h.inert_data hschema hpart hposition houtcome hinner hnext)
    · have hlocated : value.locate (location ++ [step]) = some inner := by
        rw [Value.locate_append, hpart, Option.bind_some, Value.locate_singleton, hinner]
      have hspared := (hsafe.spared (hschema location part hpart) hinner hnext).2
      have hchild := child_rewriteAt visits hinner hspared
      rw [← Position.along_concat] at hnext ⊢
      refine ih step inner hinner (location ++ [step]) (visit.next step) hlocated hnext ?_
      rw [Value.locate_append, houtcome, Option.bind_some, Value.locate_singleton, hchild]
      rfl

end

/-- The transformation of a schema is complete and loses nothing exactly when the code takes for schemas what are
    schemas with something to rewrite, no type array names null alone, and no schema with several types has an
    `anyOf` of its own. -/
theorem transform_lossless_iff (value : Value ν) (hdistinct : value.Distinct) (hschema : IsSchema value) :
    Lossless value (transformForOpenapi value) ↔ SchemasReached value := by
  refine ⟨fun h => ?_, SchemasReached.lossless hdistinct hschema⟩
  refine h.everywhere_safe hschema value [] .transformed rfl (by decide) ?_
  rw [Value.locate_nil, transform_eq_rewriteAt]

/-! ### A name that may be null, and a text or a number that has bounds -/

def namesNull : List (String × Value ℕ) := [("type", .array [.string "string", .string "null"])]

def namedSchema : Value ℕ := .object [("properties", .object [("name", .object namesNull)])]

theorem namedSchema_distinct : namedSchema.Distinct := by
  refine .object (by decide) (List.forall_mem_singleton.mpr (.object (by decide) (List.forall_mem_singleton.mpr ?_)))
  refine .object (by decide) (List.forall_mem_singleton.mpr (.array ?_))
  rw [List.forall_mem_cons, List.forall_mem_singleton]
  exact ⟨.string _, .string _⟩

theorem namedSchema_isSchema : IsSchema namedSchema := by
  have hdata : ∀ value : Value ℕ, Everywhere Position.next Shaped .data value := fun value location part _ => by
    rw [← Position.along, Position.along_data]
    trivial
  have hname : Everywhere Position.next Shaped .schema (.object namesNull) := by
    refine .object (.inr ⟨_, rfl, fun type htype => ?_, fun _ h => by cases h⟩)
      (List.forall_mem_singleton.mpr (hdata _))
    obtain rfl := Option.some.inj htype
    exact .inr ⟨_, rfl, by simp⟩
  refine .object (.inr ⟨_, rfl, fun _ h => (by cases h), fun _ h => by cases h⟩) (List.forall_mem_singleton.mpr ?_)
  exact .object ⟨_, rfl⟩ (List.forall_mem_singleton.mpr hname)

theorem namedSchema_is_transformed : Lossless namedSchema (transformForOpenapi namedSchema) := by
  refine (transform_lossless_iff _ namedSchema_distinct namedSchema_isSchema).mpr ?_
  have hname : Everywhere (pairNext Position.next Visit.next) Safe (.schema, .transformed) (.object namesNull) := by
    refine .object ⟨fun h => absurd rfl h, ?_⟩
      (List.forall_mem_singleton.mpr (safe_of_data (everywhere_idle visits _)))
    rintro - _ types ⟨⟩ ⟨⟩
    refine ⟨by decide, fun hseveral => ?_⟩
    exact absurd hseveral (by decide)
  refine .object ⟨fun h => absurd rfl h, ?_⟩ (List.forall_mem_singleton.mpr ?_)
  · rintro - _ types ⟨⟩ h
    cases h
  · refine .object ⟨fun h => absurd rfl h, fun h => by cases h⟩ (List.forall_mem_singleton.mpr hname)

/-- A text of at least one character, or a number. -/
def textOrNumber : Value ℕ :=
  .object [("type", .array [.string "string", .string "integer"]),
    ("anyOf", .array [.object [("minLength", .number 1)], .object [("minimum", .number 1)]])]

/-- The alternatives of the type take the place of the bounds. -/
theorem bounds_are_dropped : ¬ Lossless textOrNumber (transformForOpenapi textOrNumber) := by
  intro h
  rcases h.kept [] _ "anyOf" _ rfl rfl rfl (by decide) (by decide) with heq | ⟨hnullable, -⟩
  · have hminLength := congrArg (·.bind (Value.locate [.element 0, .member "minLength"])) heq
    cases hminLength
  · exact absurd hnullable (by decide)

end Vyuh.Apidocs
