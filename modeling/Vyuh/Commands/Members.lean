import Vyuh.Commands.Tokens

/-! The object that the values of an argument list are converted to, and the texts of its members. -/

namespace Vyuh.Commands

open Lib Json

/-! ### Integers -/

/-- A number of digits, with its sign. -/
def signed (negative : Bool) (n : ℕ) : ℤ := if negative then -n else n

/-- Digits are read as long as the number they make is one of 64 bits. -/
theorem foldlM_pushI64 (negative : Bool) {digits : List Char} (hdigits : ∀ c ∈ digits, c.isDigit = true) {n : ℕ}
    (hlower : -2 ^ 63 ≤ signed negative (Nat.ofDigitChars 10 digits n))
    (hupper : signed negative (Nat.ofDigitChars 10 digits n) < 2 ^ 63) :
    digits.foldlM (pushI64 negative) (signed negative n) = .ok (signed negative (Nat.ofDigitChars 10 digits n)) := by
  have hgrows : ∀ (digits : List Char) (n : ℕ), n ≤ Nat.ofDigitChars 10 digits n := by
    intro digits
    induction digits with
    | nil => exact fun n => (Nat.ofDigitChars_nil).ge
    | cons c digits ih =>
      intro n
      rw [Nat.ofDigitChars_cons]
      exact le_trans (by omega) (ih _)
  induction digits generalizing n with
  | nil =>
    rw [Nat.ofDigitChars_nil]
    rfl
  | cons c digits ih =>
    obtain ⟨hc, hrest⟩ := List.forall_mem_cons.mp hdigits
    rw [Nat.ofDigitChars_cons] at hlower hupper ⊢
    have hle := hgrows digits (10 * n + (c.toNat - '0'.toNat))
    have hzero : '0'.toNat ≤ c.toNat := by
      have hdigit := hc
      simp only [Char.isDigit, Bool.and_eq_true, decide_eq_true_eq] at hdigit
      exact hdigit.1
    have hpush : pushI64 negative (signed negative n) c =
        .ok (signed negative (10 * n + (c.toNat - '0'.toNat))) := by
      rw [pushI64, if_neg (by rw [hc]; decide)]
      cases negative with
      | true =>
        simp only [signed, if_true] at hlower hupper ⊢
        rw [if_neg (by omega), if_neg (by omega)]
        exact congrArg _ (by omega)
      | false =>
        simp only [signed, Bool.false_eq_true, if_false] at hlower hupper ⊢
        rw [if_neg (by omega), if_neg (by omega)]
        exact congrArg _ (by omega)
    rw [List.foldlM_cons, hpush]
    exact ih hrest hlower hupper

theorem pushI64_range {negative : Bool} {n m : ℤ} {c : Char} (h : pushI64 negative n c = .ok m) :
    -2 ^ 63 ≤ m ∧ m < 2 ^ 63 := by
  rw [pushI64] at h
  obtain ⟨-, h⟩ := Step.except_check_ok.mp h
  obtain ⟨hlower, h⟩ := Step.except_check_ok.mp h
  obtain ⟨hupper, h⟩ := Step.except_check_ok.mp h
  obtain rfl := Except.ok.inj h
  exact ⟨not_lt.mp hlower, not_le.mp hupper⟩

theorem parseI64_range {text : List Char} {n : ℤ} (h : parseI64 text = .ok n) : -2 ^ 63 ≤ n ∧ n < 2 ^ 63 := by
  have hfold : ∀ {negative : Bool} {digits : List Char} {m : ℤ}, -2 ^ 63 ≤ m ∧ m < 2 ^ 63 →
      digits.foldlM (pushI64 negative) m = .ok n → -2 ^ 63 ≤ n ∧ n < 2 ^ 63 := by
    intro negative digits
    induction digits with
    | nil => exact fun hm hrun => Except.ok.inj hrun ▸ hm
    | cons c digits ih =>
      intro m _ hrun
      rw [List.foldlM_cons] at hrun
      obtain ⟨next, hnext, hrest⟩ := Step.except_bind_ok.mp hrun
      exact ih (pushI64_range hnext) hrest
  have hzero : (-2 ^ 63 : ℤ) ≤ 0 ∧ (0 : ℤ) < 2 ^ 63 := by decide
  unfold parseI64 at h
  split at h
  next => exact nomatch h
  next => exact nomatch h
  next => exact nomatch h
  next => exact hfold hzero h
  next => exact hfold hzero h
  next => exact hfold hzero h

/-- An integer of 64 bits is read from its decimal text. -/
theorem parseI64_decimal {n : ℤ} (hlower : -2 ^ 63 ≤ n) (hupper : n < 2 ^ 63) : parseI64 (decimal n) = .ok n := by
  have hdigits : ∀ (m : ℕ), ∀ c ∈ Nat.toDigits 10 m, c.isDigit = true := fun m c hmem =>
    Nat.isDigit_of_mem_toDigits (by decide) (by decide) hmem
  have hne : ∀ (m : ℕ) (c : Char) (rest : List Char), c.isDigit = false → Nat.toDigits 10 m ≠ c :: rest := by
    intro m c rest hc heq
    rw [hdigits m c (heq ▸ List.mem_cons_self)] at hc
    exact nomatch hc
  cases n with
  | ofNat m =>
    have hrun := foldlM_pushI64 false (hdigits m) (n := 0)
    rw [Nat.ofDigitChars_ten_toDigits] at hrun
    rw [decimal, parseI64]
    · exact hrun hlower hupper
    · exact Nat.toDigits_ne_nil
    · exact hne m '-' [] rfl
    · exact hne m '+' [] rfl
    · exact fun rest => hne m '-' rest rfl
    · exact fun rest => hne m '+' rest rfl
  | negSucc m =>
    have hrun := foldlM_pushI64 true (hdigits (m + 1)) (n := 0)
    rw [Nat.ofDigitChars_ten_toDigits] at hrun
    rw [decimal, parseI64]
    · exact hrun hlower hupper
    · exact Nat.toDigits_ne_nil

/-! ### Texts of members -/

section

variable {ν : Type} [Numbers ν]

/-- What is documented of the texts of numbers: an integer is written in decimal, a zero is read as a float,
    and what is read as a float is read back from its own text, which is no flag. -/
structure Numbers.Lawful (ν : Type) [Numbers ν] : Prop where
  parseF64_zero : ∃ x : ν, Numbers.parseF64 "0".toList = .ok (some x)
  ofInt_injective : Function.Injective (Numbers.ofInt (ν := ν))
  display_ofInt : ∀ n, Numbers.display (Numbers.ofInt n : ν) = decimal n
  display_float : ∀ text (x : ν), Numbers.parseF64 text = .ok (some x) →
    Numbers.parseF64 (Numbers.display x) = .ok (some x) ∧ ¬isFlag (Numbers.display x) = true

/-- The values of a declared type. -/
def HasType : CommandArgType → Value ν → Prop
  | .string, .string _ => True
  | .number, .number x => ∃ text, Numbers.parseF64 text = .ok (some x)
  | .integer, .number x => ∃ n, x = Numbers.ofInt n
  | .boolean, .bool _ => True
  | .array item, .array items => ∀ value ∈ items, HasType item value
  | _, _ => False

def textOf : Value ν → List Char
  | .string s => s.toList
  | .number x => Numbers.display x
  | .bool b => if b then "true".toList else "false".toList
  | _ => []

/-- The values that a member is given by, one after the other. -/
def texts : Option (Value ν) → List (List Char)
  | none => []
  | some (.array items) => items.map textOf
  | some value => [textOf value]

/-- No integer is out of the range of 64 bits, and no array is empty. -/
def InRange : CommandArgType → Value ν → Prop
  | .integer, .number x => ∃ n : ℤ, x = Numbers.ofInt n ∧ -2 ^ 63 ≤ n ∧ n < 2 ^ 63
  | .array item, .array items => items ≠ [] ∧ ∀ value ∈ items, InRange item value
  | _, _ => True

/-- No string looks like a flag. -/
def NoDashes : Value ν → Prop
  | .string s => ¬isFlag s.toList = true
  | .array items => ∀ value ∈ items, NoDashes value
  | _ => True

variable {flag text : List Char} {values : List (List Char)} {argType : CommandArgType} {value : Value ν}

/-- A value in range is read from its text. -/
theorem convertSingleValue_textOf (hν : Numbers.Lawful ν) (htype : HasType argType value)
    (hrange : InRange argType value) (hscalar : ¬argType.isArray = true) :
    convertSingleValue flag (textOf value) argType = .ok value := by
  cases argType with
  | string =>
    cases value with
    | string s => exact congrArg (fun s => Except.ok (Value.string s)) String.ofList_toList
    | _ => exact htype.elim
  | number =>
    cases value with
    | number x =>
      obtain ⟨text, htext⟩ := htype
      rw [convertSingleValue, textOf, (hν.display_float text x htext).1]
    | _ => exact htype.elim
  | integer =>
    cases value with
    | number x =>
      obtain ⟨n, rfl, hlower, hupper⟩ := hrange
      rw [convertSingleValue, textOf, hν.display_ofInt, parseI64_decimal hlower hupper]
    | _ => exact htype.elim
  | boolean =>
    cases value with
    | bool b => cases b <;> rfl
    | _ => exact htype.elim
  | array item => exact absurd rfl hscalar

/-- What is read is of the type, in range, and for a string its text. -/
theorem convertSingleValue_ok (h : convertSingleValue flag text argType = .ok value) :
    InRange argType value ∧ (argType = .string → text = textOf value) ∧ (texts (some value)).length = 1 := by
  cases argType with
  | string =>
    cases h
    exact ⟨trivial, fun _ => String.toList_ofList.symm, rfl⟩
  | number =>
    rw [convertSingleValue] at h
    split at h
    next => exact nomatch h
    next => exact nomatch h
    next =>
      cases h
      exact ⟨trivial, nofun, rfl⟩
  | integer =>
    rw [convertSingleValue] at h
    split at h
    next => exact nomatch h
    next n hn =>
      cases h
      exact ⟨⟨n, rfl, parseI64_range hn⟩, nofun, rfl⟩
  | boolean =>
    rw [convertSingleValue] at h
    split at h
    next => exact nomatch h
    next =>
      cases h
      exact ⟨trivial, nofun, rfl⟩
  | array item => exact nomatch h

theorem validateArgValues_scalar (hscalar : ¬argType.isArray = true) :
    validateArgValues flag values argType = .ok () ↔ values.length = 1 := by
  cases argType with
  | array item => exact absurd rfl hscalar
  | boolean =>
    rw [validateArgValues]
    exact ⟨fun h => not_not.mp (Step.except_check_ok.mp h).1, fun h => if_neg (not_not.mpr h)⟩
  | _ =>
    show (if values.isEmpty then _ else if 1 < values.length then _ else _) = _ ↔ _
    constructor
    · intro h
      obtain ⟨hne, h⟩ := Step.except_check_ok.mp h
      obtain ⟨hle, -⟩ := Step.except_check_ok.mp h
      have hpos := List.length_pos_of_ne_nil (mt List.isEmpty_iff.mpr hne)
      omega
    · intro h
      refine Step.except_check_ok.mpr ⟨fun hempty => ?_, Step.except_check_ok.mpr ⟨by omega, rfl⟩⟩
      rw [List.isEmpty_iff.mp hempty] at h
      exact nomatch h

theorem convertValue_scalar (hscalar : ¬argType.isArray = true) (text : List Char) :
    (convertValue flag [text] argType : Except _ (Value ν)) = convertSingleValue flag text argType := by
  cases argType with
  | array item => exact absurd rfl hscalar
  | _ => rfl

/-- The values of a member in range are read from its texts. -/
theorem convert_texts (hν : Numbers.Lawful ν) (htype : HasType argType value) (hrange : InRange argType value)
    (hitems : ∀ item, argType = .array item → ¬item.isArray = true) :
    validateArgValues flag (texts (some value)) argType = .ok () ∧
      convertValue flag (texts (some value)) argType = .ok value := by
  by_cases harray : argType.isArray = true
  · obtain ⟨item, rfl⟩ : ∃ item, argType = .array item := by
      cases argType with
      | array item => exact ⟨item, rfl⟩
      | _ => exact nomatch harray
    cases value with
    | array items =>
      obtain ⟨hne, hall⟩ := hrange
      have hmap : (items.map textOf).mapM (fun text => convertSingleValue flag text item) = .ok items := by
        clear hne
        induction items with
        | nil => rfl
        | cons first items ih =>
          obtain ⟨hfirst, hrest⟩ := List.forall_mem_cons.mp hall
          obtain ⟨htypeFirst, htypes⟩ := List.forall_mem_cons.mp htype
          rw [List.map_cons, List.mapM_cons]
          exact Step.except_bind_ok.mpr ⟨first, convertSingleValue_textOf hν htypeFirst hfirst (hitems item rfl),
            Step.except_bind_ok.mpr ⟨items, ih htypes hrest, rfl⟩⟩
      refine ⟨if_neg ?_, ?_⟩
      · rw [texts, List.isEmpty_map, List.isEmpty_iff]
        exact hne
      · rw [convertValue, texts, hmap]
        rfl
    | _ => exact htype.elim
  · have htexts : texts (some value) = [textOf value] := by
      cases value with
      | array items => cases argType <;> first | exact htype.elim | exact absurd rfl harray
      | _ => rfl
    rw [htexts, convertValue_scalar harray]
    exact ⟨(validateArgValues_scalar harray).mpr rfl, convertSingleValue_textOf hν htype hrange harray⟩

/-- Values that are converted are as many as the texts of the member. -/
theorem convert_ok (hvalid : validateArgValues flag values argType = .ok ())
    (h : convertValue flag values argType = .ok value) :
    InRange argType value ∧ values.length = (texts (some value)).length ∧
      ((argType = .string ∨ argType = .array .string) → values = texts (some value)) := by
  by_cases harray : argType.isArray = true
  · obtain ⟨item, rfl⟩ : ∃ item, argType = .array item := by
      cases argType with
      | array item => exact ⟨item, rfl⟩
      | _ => exact nomatch harray
    rw [convertValue] at h
    obtain ⟨items, hitems, hvalue⟩ := Step.except_bind_ok.mp h
    obtain rfl := Except.ok.inj hvalue
    have heach := Step.except_mapM_forall₂ hitems
    refine ⟨⟨?_, fun value hmem => ?_⟩, ?_, ?_⟩
    · rintro rfl
      rw [List.forall₂_nil_right_iff.mp heach] at hvalid
      exact nomatch hvalid
    · obtain ⟨text, -, htext⟩ := Step.except_mapM_mem hitems hmem
      exact (convertSingleValue_ok htext).1
    · rw [texts, List.length_map, heach.length_eq]
    · rintro (hstring | hstring)
      · exact nomatch hstring
      · cases hstring
        rw [texts, ← List.forall₂_eq_eq_eq, List.forall₂_map_right_iff]
        exact heach.imp fun text value htext => (convertSingleValue_ok htext).2.1 rfl
  · have hone := (validateArgValues_scalar harray).mp hvalid
    obtain ⟨text, rfl⟩ := List.length_eq_one_iff.mp hone
    rw [convertValue_scalar harray] at h
    obtain ⟨hrange, htext, hlength⟩ := convertSingleValue_ok h
    refine ⟨hrange, hlength.symm, ?_⟩
    rintro (rfl | rfl)
    · cases h
      exact congrArg (fun text => [text]) (htext rfl)
    · exact absurd rfl harray

end

/-! ### Members -/

theorem lookup_eq_some_of_mem {store : Store} (hnodup : (store.map (·.1)).Nodup) {entry : List Char × List (List Char)}
    (h : entry ∈ store) : store.lookup entry.1 = some entry.2 := by
  induction store with
  | nil => exact nomatch h
  | cons first store ih =>
    obtain ⟨key, values⟩ := first
    obtain ⟨hnot, hrest⟩ := List.nodup_cons.mp hnodup
    rw [List.lookup_cons]
    obtain rfl | hmem := List.mem_cons.mp h
    · rw [beq_self_eq_true]
    · have hkey : entry.1 ∈ store.map (·.1) := List.mem_map_of_mem hmem
      have hne : entry.1 ≠ key := fun heq => hnot (heq ▸ hkey)
      rw [beq_false_of_ne hne]
      exact ih hrest hmem

theorem mem_of_lookup_eq_some {store : Store} {name : List Char} {values : List (List Char)}
    (h : store.lookup name = some values) : (name, values) ∈ store := by
  obtain ⟨before, after, rfl, -⟩ := List.lookup_eq_some_iff.mp h
  exact List.mem_append_right _ List.mem_cons_self

section

variable {ν : Type} [Numbers ν] {args : List CommandArg} {arg : CommandArg} {command name : List Char} {store : Store}
  {members members' : Members ν}

/-- A member that the values of an argument are converted to. -/
structure Converts (arg : CommandArg) (values : List (List Char)) (value : Value ν) : Prop where
  valid : validateArgValues arg.flag values arg.argType = .ok ()
  convert : convertValue arg.flag values arg.argType = .ok value

theorem convertEntry_ok_iff {entry : List Char × List (List Char)} (h : buildArgMap args entry.1 = some arg) :
    convertEntry command (buildArgMap args) members entry = .ok members' ↔
      ∃ value, Converts arg entry.2 value ∧ members' = members.insert arg.name value := by
  rw [convertEntry, h]
  dsimp only
  rw [Step.except_bind_ok]
  constructor
  · rintro ⟨_, hvalid, hrest⟩
    obtain ⟨value, hconvert, hmembers⟩ := Step.except_bind_ok.mp hrest
    exact ⟨value, ⟨hvalid, hconvert⟩, (Except.ok.inj hmembers).symm⟩
  · rintro ⟨value, hconverts, rfl⟩
    exact ⟨(), hconverts.valid, Step.except_bind_ok.mpr ⟨value, hconverts.convert, rfl⟩⟩

theorem StoreOf.find (hargs : Declared args) (hstore : StoreOf args store) {entry : List Char × List (List Char)}
    (h : entry ∈ store) : ∃ arg, buildArgMap args entry.1 = some arg ∧ arg.name = entry.1 := by
  obtain ⟨arg, hname, hfilled⟩ := hstore.filled entry h
  obtain ⟨key, hfound⟩ := hfilled.found
  exact ⟨arg, hname ▸ hargs.find_name hfound, hname⟩

/-- The members after the store is converted: those of its arguments, and the ones there before. -/
theorem convertEntries_ok (hargs : Declared args) (hstore : StoreOf args store)
    (h : store.foldlM (convertEntry command (buildArgMap args)) members = .ok members') (name : List Char) :
    (store.lookup name = none → members' name = members name) ∧ ∀ values, store.lookup name = some values →
      ∃ arg value, buildArgMap args name = some arg ∧ arg.name = name ∧ Converts arg values value ∧
        members' name = some value := by
  induction store generalizing members with
  | nil => exact ⟨fun _ => congrFun (Except.ok.inj h).symm name, fun _ hlookup => nomatch hlookup⟩
  | cons entry store ih =>
    obtain ⟨arg, hfound, hname⟩ := hstore.find hargs List.mem_cons_self
    obtain ⟨key, values⟩ := entry
    obtain ⟨hnot, hnodup⟩ := List.nodup_cons.mp hstore.nodup
    have hrest : StoreOf args store := ⟨hnodup, fun entry hmem => hstore.filled entry (List.mem_cons_of_mem _ hmem)⟩
    rw [List.foldlM_cons] at h
    obtain ⟨members₁, hfirst, hlater⟩ := Step.except_bind_ok.mp h
    obtain ⟨value, hconverts, rfl⟩ := (convertEntry_ok_iff hfound).mp hfirst
    obtain ⟨hnone, hsome⟩ := ih hrest hlater
    rw [List.lookup_cons]
    by_cases heq : name = key
    · subst heq
      rw [beq_self_eq_true]
      refine ⟨fun h => (nomatch h), fun values' hvalues => ?_⟩
      cases hvalues
      have habsent : store.lookup name = none := by
        rw [Option.eq_none_iff_forall_ne_some]
        exact fun _ hlookup => hnot (List.mem_map_of_mem (mem_of_lookup_eq_some hlookup) :)
      refine ⟨arg, value, hfound, hname, hconverts, ?_⟩
      rw [hnone habsent, hname, FMap.insert_self]
    · rw [beq_false_of_ne heq]
      refine ⟨fun h => ?_, hsome⟩
      rw [hnone h, FMap.insert_of_ne]
      exact fun h => heq (h.trans hname)

theorem convertEntries_total (hargs : Declared args) (hstore : StoreOf args store)
    (h : ∀ entry ∈ store, ∀ arg, buildArgMap args entry.1 = some arg → ∃ value : Value ν, Converts arg entry.2 value) :
    ∃ members', store.foldlM (convertEntry command (buildArgMap args)) members = .ok members' := by
  induction store generalizing members with
  | nil => exact ⟨members, rfl⟩
  | cons entry store ih =>
    obtain ⟨arg, hfound, -⟩ := hstore.find hargs List.mem_cons_self
    obtain ⟨value, hconverts⟩ := h entry List.mem_cons_self arg hfound
    have hrest : StoreOf args store :=
      ⟨(List.nodup_cons.mp hstore.nodup).2, fun entry hmem => hstore.filled entry (List.mem_cons_of_mem _ hmem)⟩
    obtain ⟨members', hrun⟩ := @ih (members.insert arg.name value) hrest
      fun entry hmem => h entry (List.mem_cons_of_mem _ hmem)
    refine ⟨members', ?_⟩
    rw [List.foldlM_cons]
    exact Step.except_bind_ok.mpr ⟨_, (convertEntry_ok_iff hfound).mpr ⟨value, hconverts, rfl⟩, hrun⟩

omit [Numbers ν] in
theorem checkRequiredArgs_ok_iff : checkRequiredArgs args members = .ok () ↔
    ∀ arg ∈ args, arg.required → arg.argType ≠ .boolean → (members arg.name).isSome := by
  rw [checkRequiredArgs]
  induction args with
  | nil => exact iff_of_true rfl nofun
  | cons arg args ih =>
    rw [List.forM_cons, List.forall_mem_cons, ← ih, Step.except_bind_ok]
    refine Iff.trans ⟨fun ⟨_, hfirst, hrest⟩ => ⟨hfirst, hrest⟩, fun ⟨hfirst, hrest⟩ => ⟨(), hfirst, hrest⟩⟩
      (and_congr_left fun _ => ?_)
    by_cases hboolean : arg.argType = .boolean
    · rw [if_pos hboolean]
      exact iff_of_true rfl fun _ h => absurd hboolean h
    · rw [if_neg hboolean, FMap.contains]
      cases arg.required <;> cases members arg.name <;> simp [hboolean]

omit [Numbers ν] in
/-- Only a switch is given a member that it has no values for. -/
theorem injectFalse_of_some {value : Value ν} (h : members name = some value) : injectFalse args members name = some value := by
  rw [injectFalse]
  induction args generalizing members with
  | nil => exact h
  | cons arg args ih =>
    refine ih ?_
    dsimp only
    split
    next hmissing =>
      rw [FMap.insert_of_ne, h]
      rintro rfl
      exact hmissing.2 (by rw [FMap.contains, h]; rfl)
    next => exact h

omit [Numbers ν] in
theorem injectFalse_of_none (h : members name = none)
    (hname : ∀ arg ∈ args, arg.argType = .boolean → arg.name ≠ name) : injectFalse args members name = none := by
  rw [injectFalse]
  induction args generalizing members with
  | nil => exact h
  | cons arg args ih =>
    obtain ⟨hfirst, hrest⟩ := List.forall_mem_cons.mp hname
    refine ih ?_ hrest
    dsimp only
    split
    next hmissing => rw [FMap.insert_of_ne _ _ (Ne.symm (hfirst hmissing.1)), h]
    next => exact h

omit [Numbers ν] in
/-- A switch that is not given is off. -/
theorem injectFalse_of_switch (h : members arg.name = none) (harg : arg ∈ args) (hboolean : arg.argType = .boolean) :
    injectFalse args members arg.name = some (.bool false) := by
  induction args generalizing members with
  | nil => exact nomatch harg
  | cons first args ih =>
    by_cases hname : first.argType = .boolean ∧ first.name = arg.name
    · have hfirst : ¬members.contains first.name = true := by rw [hname.2, FMap.contains, h]; exact Bool.false_ne_true
      show injectFalse args (if _ then _ else _) arg.name = _
      rw [if_pos ⟨hname.1, hfirst⟩, hname.2]
      exact injectFalse_of_some (FMap.insert_self _ _ _)
    · have hrest : arg ∈ args := (List.mem_cons.mp harg).resolve_left fun heq => hname ⟨heq ▸ hboolean, heq ▸ rfl⟩
      refine ih ?_ hrest
      dsimp only
      split
      next hmissing => rw [FMap.insert_of_ne _ _ fun heq => hname ⟨hmissing.1, heq.symm⟩, h]
      next => exact h

theorem parseMembers_required {argv : List (List Char)} (h : parseMembers command argv args = .ok members)
    (harg : arg ∈ args) (hrequired : arg.required) (hboolean : arg.argType ≠ .boolean) :
    (members arg.name).isSome := by
  rw [parseMembers] at h
  obtain ⟨_, -, h⟩ := Step.except_bind_ok.mp h
  obtain ⟨converted, -, h⟩ := Step.except_bind_ok.mp h
  obtain ⟨_, hcheck, h⟩ := Step.except_bind_ok.mp h
  obtain ⟨value, hvalue⟩ := Option.isSome_iff_exists.mp (checkRequiredArgs_ok_iff.mp hcheck arg harg hrequired hboolean)
  rw [← Except.ok.inj h]
  exact Option.isSome_of_eq_some (injectFalse_of_some hvalue)

/-- The store behind the members that are parsed. -/
theorem parseMembers_ok {argv : List (List Char)} (hargs : Declared args)
    (h : parseMembers command argv args = .ok members) : ∃ store,
      parseFlagArgs command (buildArgMap args) argv = .ok store ∧ StoreOf args store ∧ ∀ arg ∈ args,
        (∀ values, store.lookup arg.name = some values → ∃ value, Converts arg values value ∧
          members arg.name = some value) ∧
        (store.lookup arg.name = none → arg.argType ≠ .boolean → members arg.name = none) ∧
        (store.lookup arg.name = none → arg.argType = .boolean → members arg.name = some (.bool false)) := by
  rw [parseMembers] at h
  obtain ⟨store, hstore, h⟩ := Step.except_bind_ok.mp h
  obtain ⟨converted, hconverted, h⟩ := Step.except_bind_ok.mp h
  obtain ⟨_, -, h⟩ := Step.except_bind_ok.mp h
  obtain rfl := Except.ok.inj h
  have hof := parseFlagArgs_storeOf hstore
  refine ⟨store, hstore, hof, fun arg harg => ⟨fun values hvalues => ?_, fun hnone hboolean => ?_,
    fun hnone hboolean => ?_⟩⟩
  · obtain ⟨other, value, hfound, hname, hconverts, hmember⟩ :=
      (convertEntries_ok hargs hof hconverted arg.name).2 values hvalues
    obtain rfl := hargs.eq_of_name (mem_of_buildArgMap hfound).1 harg hname
    exact ⟨value, hconverts, injectFalse_of_some hmember⟩
  · refine injectFalse_of_none ((convertEntries_ok hargs hof hconverted arg.name).1 hnone) ?_
    intro other hother hswitch hname
    rw [hargs.eq_of_name hother harg hname] at hswitch
    exact hboolean hswitch
  · exact injectFalse_of_switch ((convertEntries_ok hargs hof hconverted arg.name).1 hnone) harg hboolean

end

end Vyuh.Commands
