import Mathlib
import Vyuh.Commands.RoundTrip

/-! Arguments that are not read as they are written: a flag that another argument takes, and a string that looks
    like a flag. -/

namespace Vyuh.Commands

open Lib Json

/-! ### Flags with a value of their own -/

/-- The value that a flag with a value of its own puts into the store. -/
def Setting.inlineText (setting : Setting) : List Char :=
  if "no-".toList <+: flagKey setting.arg.flag then "false".toList
  else (splitFlag setting.arg.flag).2.elim setting.text (· ++ '=' :: setting.text)

/-- What is put into the store for an argument, whose flag so ever it is. -/
def received (args : List CommandArg) (settings : List Setting) (name : List Char) : List (List Char) :=
  (settings.filter fun setting => (receiver args (flagKey setting.arg.flag)).any (·.name = name)).map
    Setting.inlineText

section

variable {args : List CommandArg} {arg : CommandArg} {command flag text : List Char} {store : Store}
  {next : Option (List Char)} {settings : List Setting}

theorem received_cons (setting : Setting) (settings : List Setting) (name : List Char) :
    received args (setting :: settings) name =
      (if (receiver args (flagKey setting.arg.flag)).any (·.name = name) then [setting.inlineText] else []) ++
        received args settings name := by
  rw [received, List.filter_cons]
  split <;> rfl

theorem handleFlag_inline_ok {setting : Setting} {cursor : Cursor}
    (h : handleFlag command ("--".toList ++ setting.arg.flag ++ '=' :: setting.text) next store (buildArgMap args) =
      .ok cursor) :
    ∃ arg, receiver args (flagKey setting.arg.flag) = some arg ∧
      cursor = ⟨pushValues arg.name [setting.inlineText] store, none, false⟩ := by
  have hinsert : ∀ {arg value}, (do
      let store ← insertFlagValue command store arg value
      Except.ok (Cursor.mk store none false)) = .ok cursor → cursor = ⟨pushValues arg.name [value] store, none, false⟩ := by
    intro arg value hrun
    obtain ⟨store', hinsert, hcursor⟩ := Step.except_bind_ok.mp hrun
    obtain ⟨-, rfl⟩ := insertFlagValue_ok_iff.mp hinsert
    exact (Except.ok.inj hcursor).symm
  rw [handleFlag, splitFlag_inline] at h
  dsimp only at h
  rw [receiver, Setting.inlineText]
  cases hstripped : (flagKey setting.arg.flag).dropPrefix? "no-".toList with
  | some stripped =>
    rw [hstripped] at h
    have hno : "no-".toList <+: flagKey setting.arg.flag := by
      by_contra hnot
      rw [dropPrefix?_no.mpr hnot] at hstripped
      cases hstripped
    rw [if_pos hno]
    dsimp only at h
    split at h
    next arg harg => exact ⟨arg, harg, hinsert h⟩
    next => cases h
  | none =>
    rw [hstripped] at h
    rw [if_neg (dropPrefix?_no.mp hstripped)]
    dsimp only at h
    split at h
    next => cases h
    next arg harg => exact ⟨arg, harg, hinsert h⟩

/-- Flags with values of their own put them into the store, one after the other. -/
theorem parseTokens_inline {cursor final : Cursor} {rest : List (List Char)}
    (hinline : ∀ setting ∈ settings, setting.form = .inline) (hskip : cursor.skip = false)
    (h : parseTokens command (buildArgMap args) cursor (settings.flatMap Setting.tokens ++ rest) = .ok final) :
    (∀ setting ∈ settings, (receiver args (flagKey setting.arg.flag)).isSome) ∧ ∃ between,
      parseTokens command (buildArgMap args) between rest = .ok final ∧ between.skip = false ∧
      ∀ name, between.store.values name = cursor.store.values name ++ received args settings name := by
  induction settings generalizing cursor with
  | nil => exact ⟨nofun, cursor, h, hskip, fun name => (List.append_nil _).symm⟩
  | cons setting settings ih =>
    obtain ⟨hform, hforms⟩ := List.forall_mem_cons.mp hinline
    have htokens : setting.tokens = ["--".toList ++ setting.arg.flag ++ '=' :: setting.text] := by
      rw [Setting.tokens, hform]
    rw [List.flatMap_cons, htokens, List.singleton_append, List.cons_append, parseTokens, parseToken, hskip,
      if_neg (by decide), if_pos (by rw [List.append_assoc]; exact isFlag_dashes _)] at h
    obtain ⟨first, hfirst, hlater⟩ := Step.except_bind_ok.mp h
    obtain ⟨arg, hreceiver, rfl⟩ := handleFlag_inline_ok hfirst
    obtain ⟨hsome, between, hrun, hbetween, hvalues⟩ := ih hforms rfl hlater
    refine ⟨List.forall_mem_cons.mpr ⟨hreceiver ▸ rfl, hsome⟩, between, hrun, hbetween, fun name => ?_⟩
    rw [hvalues, values_pushValues, received_cons, hreceiver, Option.any_some, List.append_assoc]
    by_cases hname : name = arg.name
    · rw [if_pos hname, if_pos (decide_eq_true hname.symm)]
    · rw [if_neg hname, if_neg (by simpa using Ne.symm hname)]

/-- Flags that are read as their own put the values of their own arguments there. -/
theorem received_of_readable (h : ∀ setting ∈ settings, Readable args setting.arg) (name : List Char) :
    received args settings name = valuesFor settings name := by
  induction settings with
  | nil => rfl
  | cons setting settings ih =>
    obtain ⟨hfirst, hrest⟩ := List.forall_mem_cons.mp h
    have hkey : flagKey setting.arg.flag = setting.arg.flag := by
      rw [flagKey, splitFlag_key hfirst.noDashes hfirst.noEquals]
    have hreceiver : receiver args setting.arg.flag = some setting.arg := by
      rw [receiver, dropPrefix?_no.mpr hfirst.notNegated]
      exact hfirst.found
    have htext : setting.inlineText = setting.text := by
      rw [Setting.inlineText, hkey, if_neg hfirst.notNegated, splitFlag_key hfirst.noDashes hfirst.noEquals]
      rfl
    rw [received_cons, valuesFor_cons, ih hrest, hkey, hreceiver, htext, Option.any_some]
    by_cases hname : name = setting.arg.name
    · rw [if_pos hname, if_pos (decide_eq_true hname.symm)]
    · rw [if_neg hname, if_neg (by simpa using Ne.symm hname)]

/-- A flag that another argument takes is the flag that has this argument's length, or longer. -/
theorem flagKey_cases (flag : List Char) : flagKey flag = flag ∨ (flagKey flag).length < flag.length := by
  obtain ⟨-, hdashes, hstart⟩ := flagKey_spec flag
  rcases hstart.length_le.lt_or_eq with hlt | heq
  · exact .inr (lt_of_lt_of_le hlt (trimDashes_length flag))
  · rw [hstart.eq_of_length heq]
    by_cases hflag : isFlag flag = true
    · obtain ⟨rest, rfl⟩ := isFlag_iff.mp hflag
      have hle := trimDashes_length rest
      refine .inr ?_
      rw [trimDashes, List.length_cons, List.length_cons]
      omega
    · exact .inl (trimDashes_of_not_isFlag hflag)

/-- A flag that sets its own argument is read as its own. -/
theorem Declared.readable (hargs : Declared args) (h : receiver args (flagKey arg.flag) = some arg) :
    Readable args arg := by
  obtain ⟨hequals, hdashes, -⟩ := flagKey_spec arg.flag
  have hcases := flagKey_cases arg.flag
  rcases receiver_cases h with ⟨stripped, hkey, hfound, -⟩ | ⟨hno, hfound⟩
  · have hlength := hargs.length_eq hfound
    have hlonger : (flagKey arg.flag).length = 3 + stripped.length := by rw [hkey, List.length_append]; rfl
    rcases hcases with heq | hlt
    · rw [heq] at hlonger
      omega
    · omega
  · have hlength := hargs.length_eq hfound
    rcases hcases with heq | hlt
    · rw [heq] at hfound hno hdashes hequals
      exact ⟨buildArgMap_eq_some_iff.mp hfound, hno, hdashes, hequals⟩
    · omega

/-- What takes another argument's flag has a shorter flag, or the same. -/
theorem Declared.receiver_flag (hargs : Declared args) (hmem : arg ∈ args) {other : CommandArg}
    (h : receiver args (flagKey arg.flag) = some other) :
    other.flag = arg.flag ∨ other.flag.length < arg.flag.length := by
  have hcases := flagKey_cases arg.flag
  rcases receiver_cases h with ⟨stripped, hkey, hfound, -⟩ | ⟨-, hfound⟩
  · have hlength := hargs.length_eq hfound
    have hlonger : (flagKey arg.flag).length = 3 + stripped.length := by rw [hkey, List.length_append]; rfl
    rcases hcases with heq | hlt
    · rw [heq] at hlonger
      omega
    · omega
  · rcases hcases with heq | hlt
    · rw [heq] at hfound
      exact .inl (hargs.flag_eq hfound (hargs.flags arg hmem ▸ not_mem_toFlagName _))
    · exact .inr (hargs.length_eq hfound ▸ hlt)

end

/-! ### What is read back is faithful -/

section

variable {ν : Type} [Numbers ν] {args : List CommandArg} {arg : CommandArg} {members : Members ν}
  {settings : List Setting} {command : List Char}

/-- However the members are written, they are read back. -/
def RoundTrips (command : List Char) (args : List CommandArg) (members : Members ν) : Prop :=
  ∀ {T : Type} (fromValue : Members ν → Except String T) (settings : List Setting), Renders args members settings →
    parseArgs fromValue command (settings.flatMap Setting.tokens) args =
      (fromValue members).mapError .deserializeError

theorem RoundTrips.parseMembers_eq (h : RoundTrips command args members) (hrenders : Renders args members settings) :
    parseMembers command (settings.flatMap Setting.tokens) args = .ok members := by
  have hok := h Except.ok settings hrenders
  rw [parseArgs] at hok
  obtain ⟨read, hread, heq⟩ := Step.except_bind_ok.mp hok
  obtain rfl := Except.ok.inj heq
  exact hread

/-- Every value behind an equals sign. -/
def inlineSettings (args : List CommandArg) (members : Members ν) : List Setting :=
  args.flatMap fun arg => (texts (members arg.name)).map fun text => ⟨arg, text, .inline⟩

theorem valuesFor_append (before after : List Setting) (name : List Char) :
    valuesFor (before ++ after) name = valuesFor before name ++ valuesFor after name := by
  rw [valuesFor, List.filter_append, List.map_append]
  rfl

theorem inlineSettings_renders (hargs : Declared args) (hassigns : Assigns args members) :
    Renders args members (inlineSettings args members) := by
  have hmem : ∀ setting ∈ inlineSettings args members, setting.arg ∈ args ∧ setting.form = .inline := by
    intro setting h
    obtain ⟨arg, harg, hsetting⟩ := List.mem_flatMap.mp h
    obtain ⟨text, -, rfl⟩ := List.mem_map.mp hsetting
    exact ⟨harg, rfl⟩
  have hown : ∀ (arg : CommandArg) (values : List (List Char)) (name : List Char),
      valuesFor (values.map fun text => ⟨arg, text, .inline⟩) name = if name = arg.name then values else [] := by
    intro arg values name
    induction values with
    | nil => rw [ite_self]; rfl
    | cons text values ih =>
      rw [List.map_cons, valuesFor_cons, ih]
      split <;> rfl
  have hvalues : ∀ (args : List CommandArg) (name : List Char), (args.map CommandArg.name).Nodup →
      valuesFor (inlineSettings args members) name =
        if name ∈ args.map CommandArg.name then texts (members name) else [] := by
    intro args name
    induction args with
    | nil => exact fun _ => rfl
    | cons arg args ih =>
      intro hnodup
      obtain ⟨hnot, hrest⟩ := List.nodup_cons.mp hnodup
      rw [inlineSettings, List.flatMap_cons, valuesFor_append, hown]
      refine (congrArg _ (ih hrest)).trans ?_
      have hiff : name ∈ (arg :: args).map CommandArg.name ↔ name = arg.name ∨ name ∈ args.map CommandArg.name :=
        List.mem_cons
      by_cases hname : name = arg.name
      · rw [if_pos hname, if_pos (hiff.mpr (.inl hname)), if_neg (hname ▸ hnot), List.append_nil, hname]
      · rw [if_neg hname, List.nil_append]
        exact if_congr (hiff.trans (or_iff_right hname)).symm rfl rfl
  refine ⟨fun setting h => (hmem setting h).1, fun setting h hform => ?_, fun name => ?_⟩
  · rw [(hmem setting h).2] at hform
    exact nomatch hform
  · rw [hvalues args name hargs.names]
    split
    next => rfl
    next hnot =>
      cases hmember : members name with
      | none => rfl
      | some value =>
        obtain ⟨arg, harg, rfl, -⟩ := hassigns.typed name value hmember
        exact absurd (List.mem_map_of_mem harg) hnot

/-- The store behind members that are read back: what was put there for an argument are the values of its member. -/
theorem stored_values {argv : List (List Char)} (hargs : Declared args)
    (h : parseMembers command argv args = .ok members) : ∃ cursor,
      parseTokens command (buildArgMap args) ⟨[], none, false⟩ argv = .ok cursor ∧ ∀ arg ∈ args,
        (cursor.store.values arg.name ≠ [] → (members arg.name).isSome) ∧ ∀ value, members arg.name = some value →
          cursor.store.values arg.name ≠ [] ∨ arg.argType ≠ .boolean →
            InRange arg.argType value ∧ (cursor.store.values arg.name).length = (texts (some value)).length ∧
              ((arg.argType = .string ∨ arg.argType = .array .string) →
                cursor.store.values arg.name = texts (some value)) := by
  obtain ⟨store, hstore, -, hmembers⟩ := parseMembers_ok hargs h
  obtain ⟨cursor, hcursor, rfl⟩ := parseFlagArgs_ok_iff.mp hstore
  refine ⟨cursor, hcursor, fun arg harg => ?_⟩
  obtain ⟨hsome, hnone, -⟩ := hmembers arg harg
  rw [Store.values]
  cases hlookup : cursor.store.lookup arg.name with
  | none =>
    refine ⟨fun hvalues => absurd rfl hvalues, fun value hmember hgiven => ?_⟩
    rw [hnone hlookup (hgiven.resolve_left fun h => h rfl)] at hmember
    cases hmember
  | some values =>
    obtain ⟨value, hconverts, hmember⟩ := hsome values hlookup
    refine ⟨fun _ => hmember ▸ rfl, fun value' hmember' _ => ?_⟩
    obtain rfl := Option.some.inj (hmember.symm.trans hmember')
    exact convert_ok hconverts.valid hconverts.convert

/-- What two kinds of settings put there is at least what they are. -/
theorem valuesFor_length_add (settings : List Setting) {name other : List Char} (hne : name ≠ other)
    (hname : ∀ setting ∈ settings, setting.arg.name = name ∨ setting.arg.name = other →
      (receiver args (flagKey setting.arg.flag)).any (·.name = name) = true) :
    (valuesFor settings name).length + (valuesFor settings other).length ≤ (received args settings name).length := by
  induction settings with
  | nil => exact le_refl _
  | cons setting settings ih =>
    obtain ⟨hfirst, hrest⟩ := List.forall_mem_cons.mp hname
    have hle := ih hrest
    rw [valuesFor_cons, valuesFor_cons, received_cons, List.length_append, List.length_append, List.length_append]
    by_cases hown : name = setting.arg.name
    · rw [if_pos hown, if_neg (fun h => hne (hown.trans h.symm)), if_pos (hfirst (.inl hown.symm))]
      simp only [List.length_singleton, List.length_nil]
      omega
    · by_cases hother : other = setting.arg.name
      · rw [if_neg hown, if_pos hother, if_pos (hfirst (.inr hother.symm))]
        simp only [List.length_singleton, List.length_nil]
        omega
      · rw [if_neg hown, if_neg hother]
        simp only [List.length_nil]
        omega

theorem RoundTrips.inRange (hargs : Declared args) (hassigns : Assigns args members)
    (h : RoundTrips command args members) (harg : arg ∈ args) {value : Value ν}
    (hmember : members arg.name = some value) : InRange arg.argType value := by
  obtain ⟨cursor, -, hstored⟩ := stored_values hargs (h.parseMembers_eq (inlineSettings_renders hargs hassigns))
  by_cases hboolean : arg.argType = .boolean
  · rw [hboolean]
    trivial
  · exact ((hstored arg harg).2 value hmember (.inr hboolean)).1

theorem texts_ne_nil {argType : CommandArgType} {value : Value ν} (htype : HasType argType value)
    (hrange : InRange argType value) : texts (some value) ≠ [] := by
  cases value with
  | array items =>
    cases argType with
    | array item => exact fun hnil => hrange.1 (List.map_eq_nil_iff.mp hnil)
    | _ => exact htype.elim
  | _ => exact List.cons_ne_nil _ _

/-- The flag of a member that is read back is its argument's own. -/
theorem RoundTrips.readable (hargs : Declared args) (hassigns : Assigns args members)
    (h : RoundTrips command args members) (harg : arg ∈ args) (hgiven : (members arg.name).isSome) :
    Readable args arg := by
  have hrenders := inlineSettings_renders hargs hassigns
  obtain ⟨cursor, hrun, hstored⟩ := stored_values hargs (h.parseMembers_eq hrenders)
  have hinline : ∀ setting ∈ inlineSettings args members, setting.form = .inline := by
    intro setting hmem
    obtain ⟨arg, -, hsetting⟩ := List.mem_flatMap.mp hmem
    obtain ⟨text, -, rfl⟩ := List.mem_map.mp hsetting
    rfl
  obtain ⟨hreceivers, between, hbetween, -, hvalues⟩ := @parseTokens_inline args command _ ⟨[], none, false⟩ cursor [] hinline rfl
    ((congrArg _ (List.append_nil _)).trans hrun)
  obtain rfl := (Except.ok.inj hbetween).symm
  have hmember : ∀ {arg}, arg ∈ args → (members arg.name).isSome → ∃ value, members arg.name = some value ∧
      HasType arg.argType value ∧ texts (some value) ≠ [] := by
    intro arg harg hgiven
    obtain ⟨value, hvalue⟩ := Option.isSome_iff_exists.mp hgiven
    obtain ⟨other, hother, hname, htype⟩ := hassigns.typed _ value hvalue
    rw [hargs.eq_of_name hother harg hname] at htype
    exact ⟨value, hvalue, htype, texts_ne_nil htype (h.inRange hargs hassigns harg hvalue)⟩
  -- Whoever takes a flag that is not its own has settings of its own, and so too many.
  have hself : ∀ (n : ℕ) (arg : CommandArg), arg ∈ args → (members arg.name).isSome → arg.flag.length ≤ n →
      receiver args (flagKey arg.flag) = some arg := by
    intro n
    induction n using Nat.strong_induction_on with
    | _ n ih =>
      intro arg harg hgiven hlength
      obtain ⟨value, hvalue, htype, hne⟩ := hmember harg hgiven
      obtain ⟨text, htext⟩ := List.exists_mem_of_ne_nil _ hne
      have hsetting : (⟨arg, text, .inline⟩ : Setting) ∈ inlineSettings args members :=
        List.mem_flatMap.mpr ⟨arg, harg, List.mem_map.mpr ⟨text, hvalue ▸ htext, rfl⟩⟩
      obtain ⟨other, hother⟩ := Option.isSome_iff_exists.mp (hreceivers _ hsetting)
      dsimp only at hother
      by_contra hnot
      obtain ⟨key, hfound⟩ := found_of_receiver hother
      have hmem := (mem_of_buildArgMap hfound).1
      have hdiff : other.name ≠ arg.name := by
        intro hname
        rw [hargs.eq_of_name hmem harg hname] at hother
        exact hnot hother
      have hreceived : cursor.store.values other.name ≠ [] := by
        rw [hvalues other.name]
        exact List.append_ne_nil_of_right_ne_nil _ (List.ne_nil_of_mem (List.mem_map_of_mem
          (List.mem_filter.mpr ⟨hsetting, hother ▸ decide_eq_true rfl⟩)))
      have hgivenOther := (hstored other hmem).1 hreceived
      have hotherSelf : receiver args (flagKey other.flag) = some other := by
        rcases hargs.receiver_flag harg hother with heq | hlt
        · rw [heq]
          exact hother
        · exact ih other.flag.length (lt_of_lt_of_le hlt hlength) other hmem hgivenOther le_rfl
      have hcount := @valuesFor_length_add args (inlineSettings args members) _ _ hdiff fun setting hin hwhich => by
        have hdeclared := hrenders.declared setting hin
        rcases hwhich with hname | hname
        · rw [hargs.eq_of_name hdeclared hmem hname, hotherSelf]
          exact decide_eq_true rfl
        · rw [hargs.eq_of_name hdeclared harg hname, hother]
          exact decide_eq_true rfl
      obtain ⟨valueOther, hvalueOther, -, -⟩ := hmember hmem hgivenOther
      obtain ⟨-, hexact, -⟩ := (hstored other hmem).2 valueOther hvalueOther (.inl hreceived)
      rw [hvalues other.name] at hexact
      rw [hrenders.values, hrenders.values, hvalueOther, hvalue, ← hexact] at hcount
      have hpos := List.length_pos_of_ne_nil hne
      have hempty : (Store.values [] other.name).length = 0 := rfl
      rw [List.length_append] at hcount
      omega
  exact hargs.readable (hself _ arg harg hgiven le_rfl)

/-- A value that is read as a flag is not what is put into the store. -/
theorem FlagRead.ne_text {args : List CommandArg} {other : CommandArg} {text : List Char} {store : Store}
    {next : Option (List Char)} {cursor : Cursor} (h : FlagRead text store next other cursor) (hargs : Declared args)
    (hother : other ∈ args) (harg : arg ∈ args) (hboolean : arg.argType ≠ .boolean)
    (hnext : ∀ token, next = some token → isFlag token = true) :
    cursor.skip = false ∧ ∃ values, cursor.store.values arg.name = store.values arg.name ++ values ∧
      values ≠ [text] := by
  cases h with
  | @own value hvalue =>
    refine ⟨rfl, if arg.name = other.name then [value] else [], values_pushValues _ _ _ _, ?_⟩
    split
    next hname =>
      rw [← hargs.eq_of_name harg hother hname] at hvalue
      rintro hsame
      rw [(List.cons.inj hsame).1] at hvalue
      exact (hvalue.resolve_left hboolean).false
    next => exact (List.cons_ne_nil _ _).symm
  | next hnext' hvalue => exact absurd (hnext _ hnext') hvalue
  | started =>
    refine ⟨rfl, [], ?_, (List.cons_ne_nil _ _).symm⟩
    rw [values_pushValues, ite_self]

/-- No string of members that are read back looks like a flag. -/
theorem RoundTrips.not_isFlag (hargs : Declared args) (hassigns : Assigns args members)
    (h : RoundTrips command args members) (harg : arg ∈ args)
    (hstring : arg.argType = .string ∨ arg.argType = .array .string) {value : Value ν} {text : List Char}
    (hmember : members arg.name = some value) (htext : text ∈ texts (some value)) : ¬isFlag text = true := by
  intro hflag
  have hrenders := inlineSettings_renders hargs hassigns
  have hsetting : (⟨arg, text, .inline⟩ : Setting) ∈ inlineSettings args members :=
    List.mem_flatMap.mpr ⟨arg, harg, List.mem_map.mpr ⟨text, hmember ▸ htext, rfl⟩⟩
  have hinline : ∀ setting ∈ inlineSettings args members, setting.form = .inline ∧ Readable args setting.arg := by
    intro setting hmem
    obtain ⟨value, hvalue, -, -⟩ := hrenders.member hargs hassigns hmem
    refine ⟨?_, h.readable hargs hassigns (hrenders.declared setting hmem) (hvalue ▸ rfl)⟩
    obtain ⟨arg, -, hsetting⟩ := List.mem_flatMap.mp hmem
    obtain ⟨text, -, rfl⟩ := List.mem_map.mp hsetting
    rfl
  obtain ⟨before, after, hsplit⟩ := List.append_of_mem hsetting
  -- The same settings, but for the value that is a token of its own.
  have hspaced : Renders args members (before ++ ⟨arg, text, .spaced⟩ :: after) := by
    rw [hsplit] at hrenders
    refine ⟨fun setting hmem => ?_, fun setting hmem hform => ?_, fun name => ?_⟩
    · obtain hmem | hmem := List.mem_append.mp hmem
      · exact hrenders.declared setting (List.mem_append_left _ hmem)
      · obtain rfl | hmem := List.mem_cons.mp hmem
        · exact harg
        · exact hrenders.declared setting (List.mem_append_right _ (List.mem_cons_of_mem _ hmem))
    · obtain hmem | hmem := List.mem_append.mp hmem
      · exact hrenders.switches setting (List.mem_append_left _ hmem) hform
      · obtain rfl | hmem := List.mem_cons.mp hmem
        · cases hform
        · exact hrenders.switches setting (List.mem_append_right _ (List.mem_cons_of_mem _ hmem)) hform
    · rw [← hrenders.values name, valuesFor_append, valuesFor_append, valuesFor_cons, valuesFor_cons]
  have hboolean : arg.argType ≠ .boolean := by
    rintro hboolean
    rw [hboolean] at hstring
    exact hstring.elim (fun h => by cases h) (fun h => by cases h)
  obtain ⟨cursor, hrun, hstored⟩ := stored_values hargs (h.parseMembers_eq hspaced)
  rw [List.flatMap_append, List.flatMap_cons] at hrun
  rw [hsplit] at hinline
  obtain ⟨-, first, hfirst, hskip, hvaluesFirst⟩ := @parseTokens_inline args command _ ⟨[], none, false⟩ cursor _
    (fun setting hmem => (hinline setting (List.mem_append_left _ hmem)).1) rfl hrun
  have hreadable := (hinline _ (List.mem_append_right _ List.mem_cons_self)).2
  dsimp only at hreadable
  rw [Setting.tokens, List.cons_append, List.singleton_append, parseTokens, parseToken, hskip, if_neg (by decide),
    if_pos (isFlag_dashes _), handleFlag_bare hreadable, if_neg hboolean] at hfirst
  obtain ⟨started, hstarted, hfirst⟩ := Step.except_bind_ok.mp hfirst
  obtain rfl : started = ⟨pushValues arg.name [] first.store, some arg.name, false⟩ := by
    cases hensure : ensureFlagCanStart command first.store arg with
    | error e =>
      rw [hensure] at hstarted
      cases hstarted
    | ok _ =>
      rw [hensure] at hstarted
      exact (Except.ok.inj hstarted).symm
  rw [parseTokens, parseToken, if_neg Bool.false_ne_true, if_pos hflag] at hfirst
  obtain ⟨second, hsecond, hlast⟩ := Step.except_bind_ok.mp hfirst
  obtain ⟨other, hother, -, hread, -⟩ := handleFlag_ok hsecond
  obtain ⟨key, hfound⟩ := found_of_receiver hother
  obtain ⟨hskip', values, hvalues, hne⟩ := hread.ne_text hargs (mem_of_buildArgMap hfound).1 harg hboolean
    (tokens_head after)
  obtain ⟨-, last, hfinal, -, hvaluesLast⟩ := @parseTokens_inline args command _ _ cursor []
    (fun setting hmem => (hinline setting (List.mem_append_right _ (List.mem_cons_of_mem _ hmem))).1) hskip'
    ((congrArg _ (List.append_nil _)).trans hlast)
  obtain rfl := (Except.ok.inj hfinal).symm
  have hread : cursor.store.values arg.name = valuesFor before arg.name ++ (values ++ valuesFor after arg.name) := by
    have hempty : Store.values [] arg.name = [] := rfl
    rw [hvaluesLast, hvalues, values_pushValues, ite_self, List.append_nil, hvaluesFirst, hempty, List.nil_append,
      List.append_assoc,
      received_of_readable (fun setting hmem => (hinline setting (List.mem_append_left _ hmem)).2),
      received_of_readable (fun setting hmem =>
        (hinline setting (List.mem_append_right _ (List.mem_cons_of_mem _ hmem))).2)]
  have hwritten : cursor.store.values arg.name = valuesFor before arg.name ++ ([text] ++ valuesFor after arg.name) := by
    rw [((hstored arg harg).2 value hmember (.inr hboolean)).2.2 hstring, ← hmember, ← hspaced.values, valuesFor_append,
      valuesFor_cons, if_pos rfl]
  exact hne (List.append_cancel_right (List.append_cancel_left (hread.symm.trans hwritten)))

/-- Members are read back however they are written exactly when they are faithful. -/
theorem roundTrips_iff (hν : Numbers.Lawful ν) (hargs : Declared args) (hassigns : Assigns args members) :
    RoundTrips command args members ↔ Faithful args members := by
  constructor
  · intro h
    refine ⟨fun arg harg => h.readable hargs hassigns harg, fun arg harg value => h.inRange hargs hassigns harg,
      fun name value hmember => ?_⟩
    obtain ⟨arg, harg, rfl, htype⟩ := hassigns.typed name value hmember
    cases value with
    | string s =>
      have hstring : arg.argType = .string := by
        cases hargType : arg.argType <;> rw [hargType] at htype <;> first | rfl | exact htype.elim
      rw [NoDashes]
      exact h.not_isFlag hargs hassigns harg (.inl hstring) hmember (List.mem_singleton_self _)
    | array items =>
      rw [NoDashes]
      intro value hvalue
      cases hargType : arg.argType with
      | array item =>
        rw [hargType] at htype
        have hitem := htype value hvalue
        cases value with
        | string s =>
          have hstring : item = .string := by cases item <;> first | rfl | exact hitem.elim
          rw [hstring] at hargType
          rw [NoDashes]
          exact h.not_isFlag hargs hassigns harg (.inr hargType) hmember (List.mem_map_of_mem hvalue)
        | array inner =>
          cases item with
          | array innerItem => exact absurd rfl (hargs.items arg harg _ hargType)
          | _ => exact hitem.elim
        | _ => simp only [NoDashes]
      | _ =>
        rw [hargType] at htype
        exact htype.elim
    | _ => simp only [NoDashes]
  · intro h T fromValue settings hrenders
    rw [parseArgs, h.parseMembers_eq hν hargs hassigns hrenders]
    rfl

end

end Vyuh.Commands
