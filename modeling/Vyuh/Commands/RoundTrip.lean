import Vyuh.Commands.Members

/-! Arguments that are written as flags and read again. -/

namespace Vyuh.Commands

open Lib Json

/-! ### Writing arguments -/

/-- How a value is written: behind an equals sign, as a token of its own, or as a switch. -/
inductive Form
  | inline
  | spaced
  | switch
  deriving DecidableEq

structure Setting where
  arg : CommandArg
  text : List Char
  form : Form

def Setting.tokens (setting : Setting) : List (List Char) :=
  match setting.form with
  | .inline => ["--".toList ++ setting.arg.flag ++ '=' :: setting.text]
  | .spaced => ["--".toList ++ setting.arg.flag, setting.text]
  | .switch =>
    ["--".toList ++ (if setting.text = "true".toList then setting.arg.flag else "no-".toList ++ setting.arg.flag)]

/-- The values that settings have for an argument. -/
def valuesFor (settings : List Setting) (name : List Char) : List (List Char) :=
  (settings.filter (·.arg.name = name)).map Setting.text

/-- The settings write the members: each of them by its own flag, an array by a flag for each item. -/
structure Renders {ν : Type} [Numbers ν] (args : List CommandArg) (members : Members ν) (settings : List Setting) :
    Prop where
  declared : ∀ setting ∈ settings, setting.arg ∈ args
  switches : ∀ setting ∈ settings, setting.form = .switch → setting.arg.argType = .boolean
  values : ∀ name, valuesFor settings name = texts (members name)

/-- The members have values of their declared types; what is required is there, and every switch is. -/
structure Assigns {ν : Type} [Numbers ν] (args : List CommandArg) (members : Members ν) : Prop where
  typed : ∀ name value, members name = some value → ∃ arg ∈ args, arg.name = name ∧ HasType arg.argType value
  given : ∀ arg ∈ args, arg.required ∨ arg.argType = .boolean → (members arg.name).isSome

/-- The flag of an argument is read as its own. -/
abbrev Readable (args : List CommandArg) (arg : CommandArg) : Prop := Enters args arg.flag arg

/-! ### Reading one setting -/

section

variable {args : List CommandArg} {arg : CommandArg} {command text : List Char} {store : Store}
  {next : Option (List Char)}

theorem handleFlag_inline {key : List Char} (h : Enters args key arg) :
    handleFlag command ("--".toList ++ key ++ '=' :: text) next store (buildArgMap args) =
      (insertFlagValue command store arg text).map fun store => ⟨store, none, false⟩ := by
  rw [handleFlag, splitFlag_inline, flagKey, splitFlag_key h.noDashes h.noEquals]
  dsimp only [Option.elim_none]
  rw [dropPrefix?_no.mpr h.notNegated]
  dsimp only
  rw [h.found]
  dsimp only
  generalize insertFlagValue command store arg text = result
  cases result <;> rfl

theorem handleFlag_bare (h : Readable args arg) :
    handleFlag command ("--".toList ++ arg.flag) next store (buildArgMap args) =
      if arg.argType = .boolean then handleBoolFlag command arg next store
      else (ensureFlagCanStart command store arg).map fun _ => ⟨pushValues arg.name [] store, some arg.name, false⟩ := by
  rw [handleFlag, splitFlag_dashes, splitFlag_key h.noDashes h.noEquals]
  dsimp only
  rw [dropPrefix?_no.mpr h.notNegated]
  dsimp only
  rw [h.found]
  dsimp only
  split
  next => rfl
  next =>
    generalize ensureFlagCanStart command store arg = result
    cases result <;> rfl

theorem handleFlag_no (h : Readable args arg) (hboolean : arg.argType = .boolean) :
    handleFlag command ("--".toList ++ ("no-".toList ++ arg.flag)) next store (buildArgMap args) =
      (insertFlagValue command store arg "false".toList).map fun store => ⟨store, none, false⟩ := by
  have hkey : ¬isFlag ("no-".toList ++ arg.flag) = true := by
    intro hflag
    obtain ⟨rest, hrest⟩ := isFlag_iff.mp hflag
    exact absurd (List.cons.inj hrest).1 (by decide)
  rw [handleFlag, splitFlag_dashes, splitFlag_key hkey fun hmem =>
    (List.mem_append.mp hmem).elim (by decide) h.noEquals]
  dsimp only
  rw [List.dropPrefix?_append_of_beq _ (beq_self_eq_true _)]
  dsimp only
  rw [h.found, Option.filter_some, if_pos (decide_eq_true hboolean)]
  dsimp only
  generalize insertFlagValue command store arg "false".toList = result
  cases result <;> rfl

/-- A setting that is read as it was meant. -/
structure Sound (args : List CommandArg) (setting : Setting) : Prop where
  readable : Readable args setting.arg
  noDashes : ¬isFlag setting.text = true
  boolean : setting.arg.argType = .boolean → setting.text = "true".toList ∨ setting.text = "false".toList
  switch : setting.form = .switch → setting.arg.argType = .boolean

theorem insertFlagValue_map (h : CanStart store arg) (text : List Char) :
    ((insertFlagValue command store arg text).map fun store => Cursor.mk store none false) =
      .ok ⟨pushValues arg.name [text] store, none, false⟩ := by
  rw [insertFlagValue_ok_iff.mpr ⟨h, rfl⟩]
  rfl

/-- The tokens of a setting put its value into the store, when a flag follows or nothing. -/
theorem parseTokens_setting {cursor : Cursor} {setting : Setting} {rest : List (List Char)}
    (hsound : Sound args setting) (hstart : CanStart cursor.store setting.arg) (hskip : cursor.skip = false)
    (hrest : ∀ token, rest.head? = some token → isFlag token = true) :
    ∃ key, parseTokens command (buildArgMap args) cursor (setting.tokens ++ rest) =
      parseTokens command (buildArgMap args)
        ⟨pushValues setting.arg.name [setting.text] cursor.store, key, false⟩ rest := by
  obtain ⟨arg, text, form⟩ := setting
  have hflag : ∀ {flag cursor'} (tokens : List (List Char)),
      handleFlag command ("--".toList ++ flag) tokens.head? cursor.store (buildArgMap args) = .ok cursor' →
      parseTokens command (buildArgMap args) cursor (("--".toList ++ flag) :: tokens) =
        parseTokens command (buildArgMap args) cursor' tokens := by
    intro flag cursor' tokens hhandle
    rw [parseTokens, parseToken, hskip, if_neg (by decide), if_pos (isFlag_dashes flag), hhandle]
    rfl
  cases form with
  | inline =>
    refine ⟨none, hflag rest ?_⟩
    exact (handleFlag_inline hsound.readable).trans (insertFlagValue_map hstart text)
  | spaced =>
    have hbare := @handleFlag_bare args arg command cursor.store (some text) hsound.readable
    by_cases hboolean : arg.argType = .boolean
    · have htext : (some text).filter (fun next => !isFlag next && (next = "true".toList || next = "false".toList)) =
          some text := by
        rw [Option.filter_some, if_pos]
        rw [Bool.and_eq_true, Bool.not_eq_true', Bool.or_eq_true, decide_eq_true_eq, decide_eq_true_eq]
        exact ⟨Bool.eq_false_of_not_eq_true hsound.noDashes, hsound.boolean hboolean⟩
      rw [if_pos hboolean, handleBoolFlag, htext] at hbare
      dsimp only at hbare
      rw [insertFlagValue_ok_iff.mpr ⟨hstart, rfl⟩] at hbare
      refine ⟨none, (hflag (text :: rest) hbare).trans ?_⟩
      rfl
    · rw [if_neg hboolean, ensureFlagCanStart_ok_iff.mpr hstart] at hbare
      refine ⟨some arg.name, (hflag (text :: rest) hbare).trans ?_⟩
      have hpush := (pushValues_pushValues cursor.store arg.name [] [text]).symm
      rw [List.nil_append] at hpush
      show parseTokens command _ ⟨pushValues arg.name [] cursor.store, some arg.name, false⟩ (text :: rest) =
        parseTokens command _ ⟨pushValues arg.name [text] cursor.store, some arg.name, false⟩ rest
      rw [hpush, parseTokens, parseToken, if_neg Bool.false_ne_true, if_neg hsound.noDashes]
      rfl
  | switch =>
    have hboolean := hsound.switch rfl
    by_cases htrue : text = "true".toList
    · have hbare := @handleFlag_bare args arg command cursor.store rest.head? hsound.readable
      have hnone : rest.head?.filter (fun next => !isFlag next && (next = "true".toList || next = "false".toList)) =
          none := by
        rw [Option.filter_eq_none_iff]
        intro token htoken
        rw [hrest token htoken, Bool.not_true, Bool.false_and]
        exact Bool.false_ne_true
      rw [if_pos hboolean, handleBoolFlag, hnone] at hbare
      dsimp only at hbare
      rw [insertFlagValue_ok_iff.mpr ⟨hstart, rfl⟩] at hbare
      refine ⟨none, ?_⟩
      rw [Setting.tokens]
      dsimp only
      rw [if_pos htrue, htrue]
      exact hflag rest hbare
    · obtain rfl := (hsound.boolean hboolean).resolve_left htrue
      refine ⟨none, ?_⟩
      rw [Setting.tokens]
      dsimp only
      rw [if_neg htrue]
      exact hflag rest ((handleFlag_no hsound.readable hboolean).trans (insertFlagValue_map hstart _))

theorem tokens_head (settings : List Setting) :
    ∀ token, (settings.flatMap Setting.tokens).head? = some token → isFlag token = true := by
  intro token h
  cases settings with
  | nil => exact nomatch h
  | cons setting settings =>
    obtain ⟨arg, text, form⟩ := setting
    cases form with
    | inline =>
      obtain rfl := Option.some.inj h
      rw [List.append_assoc]
      exact isFlag_dashes _
    | spaced =>
      obtain rfl := Option.some.inj h
      exact isFlag_dashes _
    | switch =>
      obtain rfl := Option.some.inj h
      exact isFlag_dashes _

/-- The store with the values of settings. -/
def pushSettings (store : Store) (settings : List Setting) : Store :=
  settings.foldl (fun store setting => pushValues setting.arg.name [setting.text] store) store

theorem valuesFor_cons (setting : Setting) (settings : List Setting) (name : List Char) :
    valuesFor (setting :: settings) name =
      (if name = setting.arg.name then [setting.text] else []) ++ valuesFor settings name := by
  rw [valuesFor, List.filter_cons]
  by_cases h : setting.arg.name = name
  · rw [if_pos (decide_eq_true h), if_pos h.symm]
    rfl
  · rw [if_neg (by simpa using h), if_neg (Ne.symm h)]
    rfl

theorem values_pushSettings (store : Store) (settings : List Setting) (name : List Char) :
    (pushSettings store settings).values name = store.values name ++ valuesFor settings name := by
  induction settings generalizing store with
  | nil => exact (List.append_nil _).symm
  | cons setting settings ih =>
    rw [pushSettings, List.foldl_cons]
    refine (ih _).trans ?_
    rw [values_pushValues, valuesFor_cons, List.append_assoc]

theorem lookup_pushSettings (settings : List Setting) (name : List Char) :
    (pushSettings [] settings).lookup name =
      if valuesFor settings name = [] then none else some (valuesFor settings name) := by
  have hsome : ∀ (settings : List Setting) (store : Store), (store.lookup name).isSome ∨ valuesFor settings name ≠ [] ↔
      ((pushSettings store settings).lookup name).isSome := by
    intro settings
    induction settings with
    | nil => exact fun store => or_iff_left fun h => h rfl
    | cons setting settings ih =>
      intro store
      rw [pushSettings, List.foldl_cons]
      refine Iff.trans ?_ (ih _)
      rw [lookup_pushValues, valuesFor_cons]
      by_cases h : name = setting.arg.name
      · rw [if_pos h, if_pos h]
        exact iff_of_true (.inr (List.cons_ne_nil _ _)) (.inl rfl)
      · rw [if_neg h, if_neg h, List.nil_append]
  have hvalues := values_pushSettings [] settings name
  rw [Store.values, Store.values, List.lookup_nil, Option.getD_none, List.nil_append] at hvalues
  have hiff := hsome settings []
  cases hlookup : (pushSettings [] settings).lookup name with
  | none =>
    rw [hlookup] at hiff
    rw [if_pos (not_not.mp fun hne => (by cases hiff.mp (.inr hne)))]
  | some values =>
    rw [hlookup] at hvalues hiff
    rw [if_neg ((hiff.mpr rfl).resolve_left (fun h => by cases h))]
    exact congrArg some hvalues

/-- Settings of different arguments, or of arrays, are read one after the other. -/
theorem parseTokens_settings {settings : List Setting} {cursor : Cursor} (hsound : ∀ setting ∈ settings, Sound args setting)
    (hstart : ∀ setting ∈ settings, CanStart cursor.store setting.arg)
    (hpair : settings.Pairwise fun s t => t.arg.argType.isArray = true ∨ t.arg.name ≠ s.arg.name)
    (hskip : cursor.skip = false) :
    ∃ key, parseTokens command (buildArgMap args) cursor (settings.flatMap Setting.tokens) =
      .ok ⟨pushSettings cursor.store settings, key, false⟩ := by
  induction settings generalizing cursor with
  | nil => exact ⟨cursor.key, congrArg Except.ok (by rw [← hskip]; rfl)⟩
  | cons setting settings ih =>
    obtain ⟨hfirst, hsounds⟩ := List.forall_mem_cons.mp hsound
    obtain ⟨hstartFirst, hstarts⟩ := List.forall_mem_cons.mp hstart
    obtain ⟨hapart, hpairs⟩ := List.pairwise_cons.mp hpair
    obtain ⟨key, hrun⟩ := @parseTokens_setting args command _ _ _ hfirst hstartFirst hskip (tokens_head settings)
    rw [List.flatMap_cons, hrun]
    refine ih hsounds (fun other hmem => ?_) hpairs rfl
    rcases hapart other hmem with harray | hne
    · exact .inl harray
    · refine (hstarts other hmem).imp_right fun hnone => ?_
      rw [lookup_pushValues, if_neg hne]
      exact hnone

end

/-! ### Arguments that are read as they are written -/

section

variable {ν : Type} [Numbers ν] {args : List CommandArg} {members : Members ν} {settings : List Setting}
  {command : List Char}

/-- Every member that is given is in range, looks like no flag, and has a flag of its own. -/
structure Faithful (args : List CommandArg) (members : Members ν) : Prop where
  readable : ∀ arg ∈ args, (members arg.name).isSome → Readable args arg
  inRange : ∀ arg ∈ args, ∀ value, members arg.name = some value → InRange arg.argType value
  noDashes : ∀ name value, members name = some value → NoDashes value

theorem not_isFlag_decimal (n : ℤ) : ¬isFlag (decimal n) = true := by
  intro hflag
  obtain ⟨rest, hrest⟩ := isFlag_iff.mp hflag
  have hdigit : ∀ {m : ℕ} {rest : List Char}, Nat.toDigits 10 m ≠ '-' :: rest := fun heq =>
    absurd (Nat.isDigit_of_mem_toDigits (b := 10) (by decide) (by decide) (heq ▸ List.mem_cons_self)) (by decide)
  cases n with
  | ofNat m => exact hdigit hrest
  | negSucc m => exact hdigit (List.cons.inj hrest).2

theorem not_isFlag_textOf (hν : Numbers.Lawful ν) {argType : CommandArgType} {value : Value ν}
    (htype : HasType argType value) (hdashes : NoDashes value) : ¬isFlag (textOf value) = true := by
  cases value with
  | string s => rwa [NoDashes] at hdashes
  | number x =>
    rw [textOf]
    cases argType with
    | number =>
      obtain ⟨text, htext⟩ := htype
      exact (hν.display_float text x htext).2
    | integer =>
      obtain ⟨n, rfl⟩ := htype
      rw [hν.display_ofInt]
      exact not_isFlag_decimal n
    | _ => exact htype.elim
  | bool b => cases b <;> exact Bool.false_ne_true
  | _ => exact Bool.false_ne_true

/-- The texts of a member, one by one. -/
theorem mem_texts {argType : CommandArgType} {value : Value ν} {text : List Char} (htype : HasType argType value)
    (h : text ∈ texts (some value)) : (∃ item items, argType = .array item ∧ value = .array items ∧
      ∃ inner ∈ items, text = textOf inner ∧ HasType item inner) ∨ ¬argType.isArray = true ∧ text = textOf value := by
  cases value with
  | array items =>
    cases argType with
    | array item =>
      obtain ⟨inner, hinner, htext⟩ := List.mem_map.mp h
      exact .inl ⟨item, items, rfl, rfl, inner, hinner, htext.symm, htype inner hinner⟩
    | _ => exact htype.elim
  | _ =>
    cases argType with
    | array item => exact htype.elim
    | _ => exact .inr ⟨Bool.false_ne_true, List.mem_singleton.mp h⟩

theorem Renders.member (hargs : Declared args) (hassigns : Assigns args members) (h : Renders args members settings)
    {setting : Setting} (hmem : setting ∈ settings) : ∃ value, members setting.arg.name = some value ∧
      HasType setting.arg.argType value ∧ setting.text ∈ texts (some value) := by
  have htext : setting.text ∈ valuesFor settings setting.arg.name :=
    List.mem_map_of_mem (List.mem_filter.mpr ⟨hmem, decide_eq_true rfl⟩)
  rw [h.values] at htext
  cases hmember : members setting.arg.name with
  | none =>
    rw [hmember] at htext
    exact nomatch htext
  | some value =>
    rw [hmember] at htext
    obtain ⟨arg, harg, hname, htype⟩ := hassigns.typed _ value hmember
    rw [hargs.eq_of_name harg (h.declared setting hmem) hname] at htype
    exact ⟨value, rfl, htype, htext⟩

theorem Faithful.sound (hν : Numbers.Lawful ν) (hargs : Declared args) (hassigns : Assigns args members)
    (h : Faithful args members) (hrenders : Renders args members settings) {setting : Setting}
    (hmem : setting ∈ settings) : Sound args setting := by
  obtain ⟨value, hmember, htype, htext⟩ := hrenders.member hargs hassigns hmem
  have hdashes := h.noDashes _ value hmember
  refine ⟨h.readable _ (hrenders.declared setting hmem) (hmember ▸ rfl), ?_, fun hboolean => ?_,
    hrenders.switches setting hmem⟩
  · rcases mem_texts htype htext with ⟨item, items, -, rfl, inner, hinner, htextOf, htypeInner⟩ | ⟨-, htextOf⟩
    · rw [NoDashes] at hdashes
      rw [htextOf]
      exact not_isFlag_textOf hν htypeInner (hdashes inner hinner)
    · rw [htextOf]
      exact not_isFlag_textOf hν htype hdashes
  · rw [hboolean] at htype
    cases value with
    | bool b =>
      obtain rfl | rfl := Bool.eq_false_or_eq_true b
      · exact .inl (List.mem_singleton.mp htext)
      · exact .inr (List.mem_singleton.mp htext)
    | _ => exact htype.elim

/-- What is no array is written once. -/
theorem Renders.pairwise (hargs : Declared args) (hassigns : Assigns args members)
    (h : Renders args members settings) :
    settings.Pairwise fun s t => t.arg.argType.isArray = true ∨ t.arg.name ≠ s.arg.name := by
  have honce : ∀ setting ∈ settings, ¬setting.arg.argType.isArray = true →
      (valuesFor settings setting.arg.name).length = 1 := by
    intro setting hmem hscalar
    obtain ⟨value, hmember, htype, htext⟩ := h.member hargs hassigns hmem
    rw [h.values, hmember]
    cases value with
    | array items =>
      cases harg : setting.arg.argType with
      | array item =>
        rw [harg] at hscalar
        exact absurd rfl hscalar
      | _ =>
        rw [harg] at htype
        exact htype.elim
    | _ => rfl
  have hsub : ∀ (front back : List Setting), front ++ back = settings →
      back.Pairwise fun s t => t.arg.argType.isArray = true ∨ t.arg.name ≠ s.arg.name := by
    intro front back
    induction back generalizing front with
    | nil => exact fun _ => .nil
    | cons setting back ih =>
      intro heq
      refine .cons (fun other hother => ?_) (ih (front ++ [setting]) (by rw [List.append_assoc]; exact heq))
      by_contra hboth
      obtain ⟨hscalar, hname⟩ := not_or.mp hboth
      rw [not_not] at hname
      have hlength := honce other (heq ▸ List.mem_append_right _ (List.mem_cons_of_mem _ hother)) hscalar
      have hlater : 0 < (valuesFor back other.arg.name).length := by
        rw [valuesFor, List.length_map]
        exact List.length_pos_of_mem (List.mem_filter.mpr ⟨hother, decide_eq_true rfl⟩)
      have hall : valuesFor settings other.arg.name =
          valuesFor front other.arg.name ++ valuesFor (setting :: back) other.arg.name := by
        rw [← heq, valuesFor, List.filter_append, List.map_append]
        rfl
      rw [hall, valuesFor_cons, if_pos hname, List.length_append, List.length_append, List.length_singleton] at hlength
      omega
  exact hsub [] settings rfl

/-- Members that are faithful are read back from whatever writes them. -/
theorem Faithful.parseMembers_eq (hν : Numbers.Lawful ν) (hargs : Declared args) (hassigns : Assigns args members)
    (h : Faithful args members) (hrenders : Renders args members settings) :
    parseMembers command (settings.flatMap Setting.tokens) args = .ok members := by
  obtain ⟨key, hrun⟩ := @parseTokens_settings args command settings ⟨[], none, false⟩
    (fun setting hmem => h.sound hν hargs hassigns hrenders hmem) (fun _ _ => .inr rfl)
    (hrenders.pairwise hargs hassigns) rfl
  have hparse : parseFlagArgs command (buildArgMap args) (settings.flatMap Setting.tokens) =
      .ok (pushSettings [] settings) := parseFlagArgs_ok_iff.mpr ⟨_, hrun, rfl⟩
  have hstore := parseFlagArgs_storeOf hparse
  have hlookup : ∀ name, (pushSettings [] settings).lookup name =
      if texts (members name) = [] then none else some (texts (members name)) := fun name => by
    rw [lookup_pushSettings, hrenders.values]
  have hconverts : ∀ arg ∈ args, ∀ value, members arg.name = some value →
      Converts arg (texts (some value)) value ∧ texts (some value) ≠ [] := by
    intro arg harg value hmember
    obtain ⟨other, hother, hname, htype⟩ := hassigns.typed _ value hmember
    rw [hargs.eq_of_name hother harg hname] at htype
    obtain ⟨hvalid, hconvert⟩ := @convert_texts ν _ arg.flag _ _ hν htype (h.inRange arg harg value hmember)
      (hargs.items arg harg)
    refine ⟨⟨hvalid, hconvert⟩, fun hnil => ?_⟩
    rw [hnil] at hvalid
    cases hargType : arg.argType <;> rw [hargType] at hvalid <;> exact nomatch hvalid
  obtain ⟨converted, hconverted⟩ : ∃ converted : Members ν, (pushSettings [] settings).foldlM
      (convertEntry command (buildArgMap args)) FMap.empty = .ok converted := by
    refine convertEntries_total hargs hstore fun entry hmem arg hfound => ?_
    have hentry := hlookup entry.1
    rw [lookup_eq_some_of_mem hstore.nodup hmem] at hentry
    split at hentry
    next => exact nomatch hentry
    next hne =>
      rw [Option.some.inj hentry]
      cases hmember : members entry.1 with
      | none => exact absurd (by rw [hmember]; rfl) hne
      | some value =>
        obtain ⟨other, hother, hname⟩ := hstore.find hargs hmem
        obtain rfl := Option.some.inj (hfound.symm.trans hother)
        exact ⟨value, (hconverts _ (mem_of_buildArgMap hfound).1 value (hname ▸ hmember)).1⟩
  obtain rfl : converted = members := by
    funext name
    obtain ⟨hnone, hsome⟩ := convertEntries_ok hargs hstore hconverted name
    rw [hlookup] at hnone hsome
    cases hmember : members name with
    | none =>
      rw [hmember] at hnone
      exact hnone (if_pos rfl)
    | some value =>
      obtain ⟨arg, harg, rfl, -⟩ := hassigns.typed name value hmember
      obtain ⟨hvalue, hne⟩ := hconverts arg harg value hmember
      rw [hmember] at hsome
      obtain ⟨other, value', hfound, hname, hconverts', hmember'⟩ := hsome _ (if_neg hne)
      obtain rfl := hargs.eq_of_name (mem_of_buildArgMap hfound).1 harg hname
      rw [hmember', Except.ok.inj (hvalue.convert.symm.trans hconverts'.convert)]
  have hinject : injectFalse args converted = converted := by
    funext name
    cases hmember : converted name with
    | some value => exact injectFalse_of_some hmember
    | none =>
      refine injectFalse_of_none hmember fun arg harg hboolean hname => ?_
      have hgiven := hassigns.given arg harg (.inr hboolean)
      rw [hname, hmember] at hgiven
      exact nomatch hgiven
  refine Step.except_bind_ok.mpr ⟨_, hparse, Step.except_bind_ok.mpr ⟨_, hconverted, ?_⟩⟩
  refine Step.except_bind_ok.mpr ⟨(), checkRequiredArgs_ok_iff.mpr fun arg harg hrequired _ => ?_, congrArg _ hinject⟩
  exact hassigns.given arg harg (.inl hrequired)

end

end Vyuh.Commands
