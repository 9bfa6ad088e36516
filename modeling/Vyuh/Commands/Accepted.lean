import Vyuh.Commands.Misread
import Vyuh.Commands.Settable

/-! The arguments of an accepted schema, and what becomes of every list of flags for them. -/

namespace Vyuh.Commands

open Lib Json

/-! ### The arguments of a schema -/

section

variable {ν : Type}

theorem distinct_of_lookup {fields : Fields ν} {name : String} {value : Value ν} (h : (Value.object fields).Distinct)
    (hlookup : fields.lookup name = some value) : value.Distinct := by
  cases h with
  | object names inner =>
    obtain ⟨before, after, rfl, -⟩ := List.lookup_eq_some_iff.mp hlookup
    exact inner (name, value) (List.mem_append_right _ List.mem_cons_self)

theorem asObject_eq_some {value : Value ν} {fields : Fields ν} (h : asObject value = some fields) :
    value = .object fields := by
  cases value with
  | object fields' => exact congrArg _ (Option.some.inj h)
  | _ => exact nomatch h

theorem resolveRootSchemaObject_distinct {root fields : Fields ν} (hroot : (Value.object root).Distinct)
    (h : resolveRootSchemaObject root = .ok fields) : (Value.object fields).Distinct := by
  have hpath : ∀ (path : List (List Char)) (value value' : Value ν), value.Distinct →
      path.foldlM (fun value segment =>
        (asObject value).bind fun fields => fields.lookup (decodePointer segment)) value = some value' →
      value'.Distinct := by
    intro path
    induction path with
    | nil => exact fun value value' hvalue hrun => Option.some.inj hrun ▸ hvalue
    | cons segment path ih =>
      intro value value' hvalue hrun
      rw [List.foldlM_cons] at hrun
      obtain ⟨next, hnext, hrest⟩ := Option.bind_eq_some_iff.mp hrun
      obtain ⟨inner, hinner, hlookup⟩ := Option.bind_eq_some_iff.mp hnext
      exact ih next value' (distinct_of_lookup (asObject_eq_some hinner ▸ hvalue) hlookup) hrest
  rw [resolveRootSchemaObject] at h
  split at h
  next => exact Except.ok.inj h ▸ hroot
  next =>
    split at h
    next => exact nomatch h
    next =>
      split at h
      next => exact nomatch h
      next value hvalue =>
        split at h
        next => exact nomatch h
        next fields' hfields =>
          obtain rfl := Except.ok.inj h
          exact asObject_eq_some hfields ▸ hpath _ _ _ hroot hvalue

theorem scalarType_ok {type : String} {argType : CommandArgType} (h : scalarType type = .ok argType) :
    ¬argType.isArray = true := by
  unfold scalarType at h
  split at h <;> cases h <;> exact Bool.false_ne_true

theorem parseArgType_ok {property : Fields ν} {item : CommandArgType}
    (h : parseArgType property = .ok (.array item)) : ¬item.isArray = true := by
  rw [parseArgType] at h
  obtain ⟨type, -, h⟩ := Step.except_bind_ok.mp h
  split at h
  next =>
    rw [parseArrayType] at h
    split at h
    next => exact nomatch h
    next =>
      split at h
      next => exact nomatch h
      next =>
        obtain ⟨itemType, -, h⟩ := Step.except_bind_ok.mp h
        obtain ⟨inner, hinner, h⟩ := Step.except_bind_ok.mp h
        cases h
        exact scalarType_ok hinner
  next => exact absurd rfl (scalarType_ok h)

theorem parseProperty_ok {required : List String} {entry : String × Value ν} {arg : CommandArg}
    (h : parseProperty required entry = .ok arg) :
    arg.name = entry.1.toList ∧ arg.flag = toFlagName arg.name ∧
      ∀ item, arg.argType = .array item → ¬item.isArray = true := by
  rw [parseProperty] at h
  split at h
  next => exact nomatch h
  next =>
    obtain ⟨argType, hargType, h⟩ := Step.except_bind_ok.mp h
    cases h
    refine ⟨rfl, rfl, fun item hitem => ?_⟩
    dsimp only at hitem
    exact parseArgType_ok (hitem ▸ hargType)

/-- The arguments of a schema have names of their own, flags that are made of them, and values that are not
    nested. -/
theorem parseSchemaToArgs_declared {schema : Value ν} {args : List CommandArg} (hschema : schema.Distinct)
    (h : parseSchemaToArgs schema = .ok args) : Declared args := by
  rw [parseSchemaToArgs] at h
  split at h
  next => exact nomatch h
  next root hroot =>
    obtain ⟨fields, hfields, h⟩ := Step.except_bind_ok.mp h
    have hdistinct := resolveRootSchemaObject_distinct (asObject_eq_some hroot ▸ hschema) hfields
    split at h
    next properties hproperties =>
      obtain ⟨value, hvalue, hobject⟩ := Option.bind_eq_some_iff.mp hproperties
      have hnames : (properties.map (·.1)).Nodup := by
        have hinner := distinct_of_lookup hdistinct hvalue
        rw [asObject_eq_some hobject] at hinner
        cases hinner with
        | object names inner => exact names
      refine ⟨?_, fun arg harg => ?_, fun arg harg => ?_⟩
      · have heq : args.map CommandArg.name = (properties.map (·.1)).map String.toList := by
          rw [List.map_map, ← List.forall₂_eq_eq_eq, List.forall₂_map_left_iff, List.forall₂_map_right_iff]
          exact (Step.except_mapM_forall₂ h).flip.imp fun arg entry hentry => (parseProperty_ok hentry).1
        rw [heq]
        exact hnames.map fun s t hst => String.toList_injective hst
      · obtain ⟨entry, -, hentry⟩ := Step.except_mapM_mem h harg
        exact (parseProperty_ok hentry).2.1
      · obtain ⟨entry, -, hentry⟩ := Step.except_mapM_mem h harg
        exact (parseProperty_ok hentry).2.2
    next =>
      split at h
      next =>
        cases h
        exact ⟨List.nodup_nil, nofun, nofun⟩
      next => exact nomatch h

end

/-! ### Every list of flags -/

/-- Numbers that are all whole. -/
instance : Numbers ℤ where
  parseF64 text := (parseI64 text).map some
  ofInt n := n
  display := decimal

theorem wholeNumbers_lawful : Numbers.Lawful ℤ := by
  refine ⟨⟨0, by decide⟩, fun _ _ h => h, fun _ => rfl, fun text x h => ⟨?_, not_isFlag_decimal x⟩⟩
  have htext : parseI64 text = .ok x := by
    change (parseI64 text).map some = .ok (some x) at h
    cases hparse : parseI64 text with
    | error e =>
      rw [hparse] at h
      exact nomatch h
    | ok n =>
      rw [hparse] at h
      rw [Option.some.inj (Except.ok.inj h)]
  obtain ⟨hlower, hupper⟩ := parseI64_range htext
  show (parseI64 (decimal x)).map some = .ok (some x)
  rw [parseI64_decimal hlower hupper]
  rfl

-- A switch whose only key begins with `no-` can be turned off, and not on.
example : ¬Settable ℤ "build".toList [⟨"no-cache".toList, "no-cache".toList, .boolean, false⟩]
    ⟨"no-cache".toList, "no-cache".toList, .boolean, false⟩ := by
  have hargs : Declared [⟨"no-cache".toList, "no-cache".toList, .boolean, false⟩] := ⟨by decide, by decide, by simp⟩
  rw [settable_iff wholeNumbers_lawful hargs List.mem_cons_self]
  rintro ⟨⟨key, hkey⟩, -⟩
  obtain ⟨-, hname⟩ := mem_of_buildArgMap hkey.found
  exact hkey.notNegated (hname.elim id id ▸ by decide)

/-- A name and a switch. -/
def greetingSchema : Value ℤ :=
  .object [("properties", .object [("name", .object [("type", .string "string")]),
    ("loud", .object [("type", .string "boolean")])]), ("required", .array [.string "name"])]

def greetingArgs : List CommandArg :=
  [⟨"name".toList, "name".toList, .string, true⟩, ⟨"loud".toList, "loud".toList, .boolean, false⟩]

def greeting (name : String) : Members ℤ :=
  (FMap.empty.insert "name".toList (.string name)).insert "loud".toList (.bool true)

theorem greetingArgs_eq : parseSchemaToArgs greetingSchema = .ok greetingArgs := by decide +kernel

theorem greetingSchema_distinct : greetingSchema.Distinct := by
  have hscalar : ∀ type : String, (Value.object [("type", Value.string type)] : Value ℤ).Distinct := fun type =>
    .object (List.nodup_singleton _) (List.forall_mem_singleton.mpr (.string type))
  refine .object (by decide) (List.forall_mem_cons.mpr ⟨?_, List.forall_mem_singleton.mpr ?_⟩)
  · exact .object (by decide) (List.forall_mem_cons.mpr ⟨hscalar _, List.forall_mem_singleton.mpr (hscalar _)⟩)
  · exact .array (List.forall_mem_singleton.mpr (.string "name"))

theorem greeting_eq_some {name : String} {key : List Char} {value : Value ℤ} (h : greeting name key = some value) :
    key = "loud".toList ∧ value = .bool true ∨ key = "name".toList ∧ value = .string name := by
  rw [greeting, FMap.insert_apply, FMap.insert_apply] at h
  split at h
  next hloud => exact .inl ⟨hloud, (Option.some.inj h).symm⟩
  next =>
    split at h
    next hname => exact .inr ⟨hname, (Option.some.inj h).symm⟩
    next => exact nomatch h

theorem greeting_assigns (name : String) : Assigns greetingArgs (greeting name) := by
  refine ⟨fun key value hvalue => ?_, fun arg harg _ => ?_⟩
  · rcases greeting_eq_some hvalue with ⟨rfl, rfl⟩ | ⟨rfl, rfl⟩
    · exact ⟨_, List.mem_cons_of_mem _ List.mem_cons_self, rfl, trivial⟩
    · exact ⟨_, List.mem_cons_self, rfl, trivial⟩
  · rw [greetingArgs, List.mem_cons, List.mem_singleton] at harg
    rcases harg with rfl | rfl <;> rfl

theorem greetingName_readable : Readable greetingArgs ⟨"name".toList, "name".toList, .string, true⟩ :=
  ⟨⟨[], _, rfl, .inl rfl, by decide⟩, by decide, by decide, by decide⟩

theorem greetingLoud_readable : Readable greetingArgs ⟨"loud".toList, "loud".toList, .boolean, false⟩ :=
  ⟨⟨[_], [], rfl, .inl rfl, nofun⟩, by decide, by decide, by decide⟩

theorem greeting_faithful {name : String} (hname : ¬isFlag name.toList = true) :
    Faithful greetingArgs (greeting name) := by
  refine ⟨fun arg harg _ => ?_, fun arg harg value hvalue => ?_, fun key value hvalue => ?_⟩
  · rw [greetingArgs, List.mem_cons, List.mem_singleton] at harg
    rcases harg with rfl | rfl
    · exact greetingName_readable
    · exact greetingLoud_readable
  · rw [greetingArgs, List.mem_cons, List.mem_singleton] at harg
    rcases harg with rfl | rfl <;> trivial
  · rcases greeting_eq_some hvalue with ⟨-, rfl⟩ | ⟨-, rfl⟩
    · simp only [NoDashes]
    · rw [NoDashes]
      exact hname

end Vyuh.Commands
