import Vyuh.Commands.RoundTrip

/-! The arguments that a command's argument list can set. -/

namespace Vyuh.Commands

open Lib Json

/-- Some argument list that is accepted gives the argument a value, and turns it on if it is a switch. -/
def Settable (ν : Type) [Numbers ν] (command : List Char) (args : List CommandArg) (arg : CommandArg) : Prop :=
  ∃ (argv : List (List Char)) (members : Members ν) (value : Value ν),
    parseArgs Except.ok command argv args = .ok members ∧ members arg.name = some value ∧
      (arg.argType = .boolean → value = .bool true)

section

variable {ν : Type} [Numbers ν] {args : List CommandArg} {arg : CommandArg} {command : List Char}
  {members : Members ν}

theorem parseArgs_ok_iff {argv : List (List Char)} :
    parseArgs Except.ok command argv args = .ok members ↔ parseMembers command argv args = .ok members := by
  rw [parseArgs, Step.except_bind_ok]
  constructor
  · rintro ⟨parsed, hparsed, hread⟩
    obtain rfl := Except.ok.inj hread
    exact hparsed
  · exact fun h => ⟨members, h, rfl⟩

/-! ### What is set can be entered -/

/-- A switch that was only turned off is not on. -/
theorem not_converts_off {values : List (List Char)} (hboolean : arg.argType = .boolean)
    (hoff : ∀ value ∈ values, value = "false".toList) : ¬Converts arg values (.bool true : Value ν) := by
  intro h
  have hvalid := h.valid
  have hconvert := h.convert
  rw [hboolean] at hvalid hconvert
  have hscalar : ¬CommandArgType.boolean.isArray = true := Bool.false_ne_true
  obtain ⟨text, rfl⟩ := List.length_eq_one_iff.mp ((validateArgValues_scalar hscalar).mp hvalid)
  rw [convertValue_scalar hscalar, hoff text (List.mem_singleton_self _)] at hconvert
  cases hconvert

/-- A member that some value of the store stands behind has a key that enters it. -/
theorem enterable_of_member {argv : List (List Char)} (hargs : Declared args)
    (h : parseMembers command argv args = .ok members) (harg : arg ∈ args) {value : Value ν}
    (hmember : members arg.name = some value) (hon : arg.argType = .boolean → value = .bool true) :
    Enterable args arg := by
  obtain ⟨store, -, hof, hall⟩ := parseMembers_ok hargs h
  obtain ⟨hsome, hnone, hinjected⟩ := hall arg harg
  cases hlookup : store.lookup arg.name with
  | none =>
    by_cases hboolean : arg.argType = .boolean
    · rw [hinjected hlookup hboolean, hon hboolean] at hmember
      cases hmember
    · rw [hnone hlookup hboolean] at hmember
      exact nomatch hmember
  | some values =>
    obtain ⟨value', hconverts, hvalue⟩ := hsome values hlookup
    obtain rfl := Option.some.inj (hvalue.symm.trans hmember)
    obtain ⟨other, hname, hfilled⟩ := hof.filled _ (mem_of_lookup_eq_some hlookup)
    obtain ⟨key, hfound⟩ := hfilled.found
    obtain rfl := hargs.eq_of_name (mem_of_buildArgMap hfound).1 harg hname
    refine hfilled.values.resolve_right fun ⟨hboolean, hoff⟩ => ?_
    exact not_converts_off hboolean hoff (hon hboolean ▸ hconverts)

/-! ### What can be entered is set -/

/-- A text for each type. -/
def sampleText : CommandArgType → List Char
  | .boolean => "true".toList
  | .array item => sampleText item
  | _ => "0".toList

def sample (arg : CommandArg) : Setting := ⟨arg, sampleText arg.argType, .inline⟩

theorem convertSingleValue_sample (hν : Numbers.Lawful ν) {argType : CommandArgType}
    (hscalar : ¬argType.isArray = true) (flag : List Char) : ∃ value : Value ν,
    convertSingleValue flag (sampleText argType) argType = .ok value ∧
      (argType = .boolean → value = .bool true) := by
  cases argType with
  | string => exact ⟨_, rfl, fun heq => CommandArgType.noConfusion heq⟩
  | number =>
    obtain ⟨x, hx⟩ := hν.parseF64_zero
    refine ⟨.number x, ?_, fun heq => CommandArgType.noConfusion heq⟩
    simp only [convertSingleValue, sampleText, hx]
  | integer =>
    have hzero : parseI64 "0".toList = .ok 0 := by decide
    refine ⟨.number (Numbers.ofInt 0), ?_, fun heq => CommandArgType.noConfusion heq⟩
    simp only [convertSingleValue, sampleText, hzero]
  | boolean => exact ⟨.bool true, rfl, fun _ => rfl⟩
  | array item => exact absurd rfl hscalar

theorem converts_sample (hν : Numbers.Lawful ν) (hargs : Declared args) (harg : arg ∈ args) :
    ∃ value : Value ν, Converts arg [sampleText arg.argType] value ∧
      (arg.argType = .boolean → value = .bool true) := by
  cases harray : arg.argType with
  | array item =>
    obtain ⟨value, hvalue, -⟩ := convertSingleValue_sample hν (hargs.items arg harg item harray) arg.flag
    refine ⟨.array [value], ⟨?_, ?_⟩, nofun⟩
    · rw [harray]
      rfl
    · rw [harray, convertValue, sampleText, List.mapM_cons, hvalue]
      rfl
  | _ =>
    obtain ⟨value, hvalue, hon⟩ := @convertSingleValue_sample ν _ hν arg.argType
      (by rw [harray]; exact Bool.false_ne_true) arg.flag
    rw [harray] at hvalue hon
    refine ⟨value, ⟨?_, ?_⟩, hon⟩
    · rw [harray]
      rfl
    · rw [harray]
      exact hvalue

/-- Samples are read one after the other, each behind a key of its own. -/
theorem parseTokens_samples {key : CommandArg → List Char} {given : List CommandArg}
    (henters : ∀ arg ∈ given, Enters args (key arg) arg) (hnames : (given.map CommandArg.name).Nodup) {cursor : Cursor}
    (hfree : ∀ arg ∈ given, cursor.store.lookup arg.name = none) (hskip : cursor.skip = false) :
    ∃ last, parseTokens command (buildArgMap args) cursor
        (given.map fun arg => "--".toList ++ key arg ++ '=' :: sampleText arg.argType) =
      .ok ⟨pushSettings cursor.store (given.map sample), last, false⟩ := by
  induction given generalizing cursor with
  | nil => exact ⟨cursor.key, congrArg Except.ok (by rw [← hskip]; rfl)⟩
  | cons first given ih =>
    obtain ⟨hfirst, hrest⟩ := List.forall_mem_cons.mp henters
    obtain ⟨hfirstFree, hrestFree⟩ := List.forall_mem_cons.mp hfree
    obtain ⟨hnot, hnodup⟩ := List.nodup_cons.mp hnames
    have hflag : isFlag ("--".toList ++ key first ++ '=' :: sampleText first.argType) = true := by
      rw [List.append_assoc]
      exact isFlag_dashes _
    rw [List.map_cons, parseTokens, parseToken, hskip, if_neg (by decide), if_pos hflag, handleFlag_inline hfirst,
      insertFlagValue_map (.inr hfirstFree)]
    refine ih hrest hnodup (fun other hother => ?_) rfl
    rw [lookup_pushValues, if_neg]
    · exact hrestFree other hother
    · exact fun hname => hnot (hname ▸ List.mem_map_of_mem hother)

theorem valuesFor_samples {given : List CommandArg} (hnames : (given.map CommandArg.name).Nodup) (harg : arg ∈ given) :
    valuesFor (given.map sample) arg.name = [sampleText arg.argType] := by
  induction given with
  | nil => exact nomatch harg
  | cons first given ih =>
    obtain ⟨hnot, hnodup⟩ := List.nodup_cons.mp hnames
    have hnone : ∀ name ∉ given.map CommandArg.name, valuesFor (given.map sample) name = [] := by
      intro name hname
      rw [valuesFor, List.map_eq_nil_iff, List.filter_eq_nil_iff]
      intro setting hsetting hsame
      obtain ⟨other, hother, rfl⟩ := List.mem_map.mp hsetting
      exact hname (of_decide_eq_true hsame ▸ List.mem_map_of_mem hother)
    rw [List.map_cons, valuesFor_cons]
    rcases List.mem_cons.mp harg with rfl | hmem
    · rw [hnone _ hnot, sample, if_pos rfl]
      rfl
    · have hne : arg.name ≠ first.name := fun heq => hnot (heq ▸ List.mem_map_of_mem hmem)
      rw [sample, if_neg hne, ih hnodup hmem]
      rfl

theorem lookup_samples {given : List CommandArg} (hnames : (given.map CommandArg.name).Nodup) (harg : arg ∈ given) :
    (pushSettings [] (given.map sample)).lookup arg.name = some [sampleText arg.argType] := by
  rw [lookup_pushSettings, valuesFor_samples hnames harg, if_neg (List.cons_ne_nil _ _)]

/-- Nothing but the samples is kept. -/
theorem mem_samples {given : List CommandArg} (hnames : (given.map CommandArg.name).Nodup)
    (hstore : StoreOf args (pushSettings [] (given.map sample))) {entry : List Char × List (List Char)}
    (hentry : entry ∈ pushSettings [] (given.map sample)) :
    ∃ arg ∈ given, arg.name = entry.1 ∧ entry.2 = [sampleText arg.argType] := by
  have hfound := lookup_eq_some_of_mem hstore.nodup hentry
  have hne := hfound
  rw [lookup_pushSettings] at hne
  split at hne
  next => exact nomatch hne
  next hvalues =>
    obtain ⟨text, htext⟩ := List.exists_mem_of_ne_nil _ hvalues
    obtain ⟨setting, hsetting, -⟩ := List.mem_map.mp htext
    obtain ⟨hmem, hname⟩ := List.mem_filter.mp hsetting
    obtain ⟨arg, harg, rfl⟩ := List.mem_map.mp hmem
    have hname : arg.name = entry.1 := of_decide_eq_true hname
    rw [← hname, lookup_samples hnames harg] at hfound
    exact ⟨arg, harg, hname, (Option.some.inj hfound).symm⟩

theorem convert_samples (hν : Numbers.Lawful ν) (hargs : Declared args) {given : List CommandArg}
    (hgiven : given.Sublist args) (hstore : StoreOf args (pushSettings [] (given.map sample))) :
    ∃ converted : Members ν, (pushSettings [] (given.map sample)).foldlM
      (convertEntry command (buildArgMap args)) FMap.empty = .ok converted := by
  refine convertEntries_total hargs hstore fun entry hentry arg hfound => ?_
  obtain ⟨other, hother, hname, hvalues⟩ := mem_samples (hargs.names.sublist (hgiven.map _)) hstore hentry
  obtain ⟨found, hfound', hname'⟩ := hstore.find hargs hentry
  obtain rfl := Option.some.inj (hfound.symm.trans hfound')
  obtain rfl := hargs.eq_of_name (hgiven.subset hother) (mem_of_buildArgMap hfound).1 (hname.trans hname'.symm)
  obtain ⟨value, hvalue, -⟩ := converts_sample hν hargs (hgiven.subset hother)
  exact ⟨value, hvalues ▸ hvalue⟩

/-- Arguments with keys that enter them are all given a value by one argument list, if what is required is among
    them. -/
theorem samples_accepted (hν : Numbers.Lawful ν) (hargs : Declared args) {given : List CommandArg}
    (hgiven : given.Sublist args) (henterable : ∀ arg ∈ given, Enterable args arg)
    (hrequired : ∀ arg ∈ args, arg.required → arg.argType ≠ .boolean → arg ∈ given) :
    ∃ (argv : List (List Char)) (members : Members ν), parseMembers command argv args = .ok members ∧
      ∀ arg ∈ given, ∃ value, members arg.name = some value ∧ (arg.argType = .boolean → value = .bool true) := by
  choose! key hkey using henterable
  have hnames : (given.map CommandArg.name).Nodup := hargs.names.sublist (hgiven.map _)
  obtain ⟨last, hrun⟩ := @parseTokens_samples args command key given hkey hnames ⟨[], none, false⟩
    (fun _ _ => rfl) rfl
  have hparse := parseFlagArgs_ok_iff.mpr ⟨_, hrun, rfl⟩
  have hstore := parseFlagArgs_storeOf hparse
  obtain ⟨converted, hconverted⟩ := @convert_samples ν _ args command hν hargs given hgiven hstore
  have hmembers : ∀ arg ∈ given, ∃ value, converted arg.name = some value ∧
      (arg.argType = .boolean → value = .bool true) := by
    intro arg harg
    obtain ⟨other, value, hfound, hname, hconverts, hmember⟩ :=
      (convertEntries_ok hargs hstore hconverted arg.name).2 _ (lookup_samples hnames harg)
    obtain rfl := hargs.eq_of_name (mem_of_buildArgMap hfound).1 (hgiven.subset harg) hname
    obtain ⟨value', hconverts', hon⟩ := converts_sample hν hargs (hgiven.subset harg)
    obtain rfl := Except.ok.inj (hconverts.convert.symm.trans hconverts'.convert)
    exact ⟨value, hmember, hon⟩
  refine ⟨_, _, Step.except_bind_ok.mpr ⟨_, hparse, Step.except_bind_ok.mpr ⟨converted, hconverted,
    Step.except_bind_ok.mpr ⟨(), checkRequiredArgs_ok_iff.mpr fun arg harg hreq hboolean => ?_, rfl⟩⟩⟩,
    fun arg harg => ?_⟩
  · obtain ⟨value, hvalue, -⟩ := hmembers arg (hrequired arg harg hreq hboolean)
    exact Option.isSome_of_eq_some hvalue
  · obtain ⟨value, hvalue, hon⟩ := hmembers arg harg
    exact ⟨value, injectFalse_of_some hvalue, hon⟩

/-- An argument can be set exactly when some key enters it, and each argument that must be given. -/
theorem settable_iff (hν : Numbers.Lawful ν) (hargs : Declared args) (harg : arg ∈ args) :
    Settable ν command args arg ↔ Enterable args arg ∧
      ∀ other ∈ args, other.required → other.argType ≠ .boolean → Enterable args other := by
  constructor
  · rintro ⟨argv, members, value, hparse, hmember, hon⟩
    replace hparse := parseArgs_ok_iff.mp hparse
    refine ⟨enterable_of_member hargs hparse harg hmember hon, fun other hother hrequired hboolean => ?_⟩
    obtain ⟨value', hvalue'⟩ := Option.isSome_iff_exists.mp (parseMembers_required hparse hother hrequired hboolean)
    exact enterable_of_member hargs hparse hother hvalue' fun h => absurd h hboolean
  · rintro ⟨henter, hothers⟩
    obtain ⟨argv, members, hparse, hgiven⟩ := @samples_accepted ν _ args command hν hargs
      (args.filter fun other => other = arg ∨ other.required ∧ other.argType ≠ .boolean) List.filter_sublist
      (fun other hother => by
        obtain ⟨hmem, hwhich⟩ := List.mem_filter.mp hother
        rcases of_decide_eq_true hwhich with rfl | ⟨hrequired, hboolean⟩
        · exact henter
        · exact hothers other hmem hrequired hboolean)
      fun other hother hrequired hboolean =>
        List.mem_filter.mpr ⟨hother, decide_eq_true (.inr ⟨hrequired, hboolean⟩)⟩
    obtain ⟨value, hvalue, hon⟩ := hgiven arg (List.mem_filter.mpr ⟨harg, decide_eq_true (.inl rfl)⟩)
    exact ⟨argv, members, value, parseArgs_ok_iff.mpr hparse, hvalue, hon⟩

end

end Vyuh.Commands
