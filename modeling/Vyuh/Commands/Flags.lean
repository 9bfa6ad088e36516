import Mathlib
import Vyuh.Commands.Args
import Vyuh.Lib.Step

/-! What a flag is read as: the argument that it names, and the values that it puts into the store. -/

namespace Vyuh.Commands

open Lib

/-! ### Texts of flags -/

theorem isFlag_iff {token : List Char} : isFlag token = true ↔ ∃ rest, token = '-' :: '-' :: rest := by
  rw [isFlag, List.isPrefixOf_iff_prefix]
  exact ⟨fun ⟨rest, h⟩ => ⟨rest, h.symm⟩, fun ⟨rest, h⟩ => ⟨rest, h.symm⟩⟩

theorem isFlag_dashes (rest : List Char) : isFlag ("--".toList ++ rest) = true := isFlag_iff.mpr ⟨rest, rfl⟩

theorem not_isFlag_trimDashes (text : List Char) : ¬isFlag (trimDashes text) = true := by
  induction text using trimDashes.induct with
  | case1 rest ih => rwa [trimDashes]
  | case2 text h =>
    rw [trimDashes]
    · exact fun hflag => let ⟨rest, hrest⟩ := isFlag_iff.mp hflag; h rest hrest
    · exact h

theorem trimDashes_of_not_isFlag {text : List Char} (h : ¬isFlag text = true) : trimDashes text = text := by
  rw [trimDashes]
  rintro rest rfl
  exact h (isFlag_iff.mpr ⟨rest, rfl⟩)

/-- A character that is no dash ends what is trimmed. -/
theorem trimDashes_append_cons {text rest : List Char} {c : Char} (hc : c ≠ '-') :
    trimDashes (text ++ c :: rest) = trimDashes text ++ c :: rest := by
  induction text using trimDashes.induct with
  | case1 text ih => exact ih
  | case2 text h =>
    rw [trimDashes_of_not_isFlag fun hflag : isFlag text = true => let ⟨rest, hrest⟩ := isFlag_iff.mp hflag; h rest hrest]
    refine trimDashes_of_not_isFlag fun hflag => ?_
    obtain ⟨after, hafter⟩ := isFlag_iff.mp hflag
    match text with
    | [] => exact hc (List.cons.inj hafter).1
    | [_] => exact hc (List.cons.inj (List.cons.inj hafter).2).1
    | a :: b :: text =>
      obtain ⟨rfl, hrest⟩ := List.cons.inj hafter
      obtain ⟨rfl, -⟩ := List.cons.inj hrest
      exact h text rfl

theorem trimDashes_length (text : List Char) : (trimDashes text).length ≤ text.length := by
  induction text using trimDashes.induct with
  | case1 rest ih =>
    rw [trimDashes, List.length_cons, List.length_cons]
    omega
  | case2 text h =>
    rw [trimDashes]
    exact h

theorem splitOnce_some {c : Char} {text before after : List Char} (h : Auth.splitOnce c text = some (before, after)) :
    text = before ++ c :: after ∧ c ∉ before := by
  induction text generalizing before after with
  | nil => exact nomatch h
  | cons first text ih =>
    rw [Auth.splitOnce] at h
    split at h
    next heq =>
      cases h
      rw [heq]
      exact ⟨rfl, List.not_mem_nil⟩
    next hne =>
      obtain ⟨⟨front, back⟩, hrest, hcons⟩ := Option.map_eq_some_iff.mp h
      cases hcons
      obtain ⟨rfl, hnot⟩ := ih hrest
      refine ⟨rfl, fun hmem => ?_⟩
      obtain rfl | hmem := List.mem_cons.mp hmem
      · exact hne rfl
      · exact hnot hmem

theorem splitOnce_none {c : Char} {text : List Char} : Auth.splitOnce c text = none ↔ c ∉ text := by
  induction text with
  | nil => exact ⟨fun _ => List.not_mem_nil, fun _ => rfl⟩
  | cons first text ih =>
    rw [Auth.splitOnce, List.mem_cons, not_or]
    split
    next heq => exact ⟨fun h => (nomatch h), fun h => absurd heq.symm h.1⟩
    next hne => rw [Option.map_eq_none_iff, ih]; exact ⟨fun h => ⟨Ne.symm hne, h⟩, And.right⟩

theorem splitOnce_append_cons {c : Char} {text : List Char} (h : c ∉ text) (rest : List Char) :
    Auth.splitOnce c (text ++ c :: rest) = some (text, rest) := by
  induction text with
  | nil => exact if_pos rfl
  | cons first text ih =>
    obtain ⟨hne, hnot⟩ := not_or.mp (mt List.mem_cons.mpr h)
    rw [List.cons_append, Auth.splitOnce, if_neg (Ne.symm hne), ih hnot]
    rfl

/-! ### Keys -/

/-- The key that a flag is read as. -/
def flagKey (flag : List Char) : List Char := (splitFlag flag).1

theorem flagKey_spec (flag : List Char) :
    '=' ∉ flagKey flag ∧ ¬isFlag (flagKey flag) = true ∧ flagKey flag <+: trimDashes flag := by
  rw [flagKey, splitFlag]
  cases hsplit : Auth.splitOnce '=' (trimDashes flag) with
  | none => exact ⟨splitOnce_none.mp hsplit, not_isFlag_trimDashes flag, List.prefix_refl _⟩
  | some pair =>
    obtain ⟨key, value⟩ := pair
    obtain ⟨htext, hnot⟩ := splitOnce_some hsplit
    refine ⟨hnot, fun hflag => not_isFlag_trimDashes flag ?_, ⟨_, htext.symm⟩⟩
    obtain ⟨rest, rfl⟩ := isFlag_iff.mp hflag
    rw [htext]
    exact isFlag_iff.mpr ⟨_, rfl⟩

/-- A key is read as itself. -/
theorem splitFlag_key {key : List Char} (hdashes : ¬isFlag key = true) (hequals : '=' ∉ key) :
    splitFlag key = (key, none) := by
  rw [splitFlag, trimDashes_of_not_isFlag hdashes, splitOnce_none.mpr hequals]

theorem splitFlag_dashes (flag : List Char) : splitFlag ("--".toList ++ flag) = splitFlag flag := rfl

/-- What is written behind a flag is its value, or belongs to it when the flag has one itself. -/
theorem splitFlag_inline (flag text : List Char) :
    splitFlag ("--".toList ++ flag ++ '=' :: text) =
      (flagKey flag, some ((splitFlag flag).2.elim text (· ++ '=' :: text))) := by
  rw [List.append_assoc, splitFlag_dashes, flagKey, splitFlag, splitFlag, trimDashes_append_cons (by decide)]
  cases hsplit : Auth.splitOnce '=' (trimDashes flag) with
  | none =>
    rw [splitOnce_append_cons (splitOnce_none.mp hsplit)]
    rfl
  | some pair =>
    obtain ⟨key, value⟩ := pair
    obtain ⟨htext, hnot⟩ := splitOnce_some hsplit
    rw [htext, List.append_assoc, List.cons_append, splitOnce_append_cons hnot]
    rfl

/-! ### The store -/

/-- The values of an argument. -/
def Store.values (store : Store) (name : List Char) : List (List Char) := (store.lookup name).getD []

theorem lookup_pushValues (store : Store) (name key : List Char) (values : List (List Char)) :
    (pushValues name values store).lookup key =
      if key = name then some (store.values name ++ values) else store.lookup key := by
  induction store with
  | nil =>
    rw [pushValues, List.lookup_cons]
    by_cases hkey : key = name
    · rw [hkey, beq_self_eq_true, if_pos rfl]
      rfl
    · rw [beq_false_of_ne hkey, if_neg hkey]
  | cons entry store ih =>
    obtain ⟨first, old⟩ := entry
    rw [pushValues]
    by_cases hfirst : first = name
    · rw [if_pos hfirst, List.lookup_cons, List.lookup_cons, Store.values, List.lookup_cons, hfirst, beq_self_eq_true]
      by_cases hkey : key = name
      · rw [hkey, beq_self_eq_true, if_pos rfl]
        rfl
      · rw [beq_false_of_ne hkey, if_neg hkey]
    · rw [if_neg hfirst, List.lookup_cons, List.lookup_cons, ih, Store.values, Store.values, List.lookup_cons,
        beq_false_of_ne (Ne.symm hfirst)]
      by_cases hkey : key = first
      · rw [hkey, beq_self_eq_true]
        exact (if_neg hfirst).symm
      · rw [beq_false_of_ne hkey]

@[simp] theorem values_pushValues (store : Store) (name key : List Char) (values : List (List Char)) :
    (pushValues name values store).values key = store.values key ++ if key = name then values else [] := by
  rw [Store.values, lookup_pushValues]
  split
  next heq => rw [heq]; rfl
  next => rw [List.append_nil]; rfl

theorem pushValues_pushValues (store : Store) (name : List Char) (values values' : List (List Char)) :
    pushValues name values' (pushValues name values store) = pushValues name (values ++ values') store := by
  induction store with
  | nil => exact if_pos rfl
  | cons entry store ih =>
    obtain ⟨key, old⟩ := entry
    rw [pushValues, pushValues]
    by_cases hkey : key = name
    · rw [if_pos hkey, if_pos hkey, pushValues, if_pos hkey, List.append_assoc]
    · rw [if_neg hkey, if_neg hkey, pushValues, if_neg hkey, ih]

theorem keys_pushValues (store : Store) (name : List Char) (values : List (List Char)) :
    (pushValues name values store).map (·.1) =
      if name ∈ store.map (·.1) then store.map (·.1) else store.map (·.1) ++ [name] := by
  induction store with
  | nil => rfl
  | cons entry store ih =>
    obtain ⟨key, old⟩ := entry
    rw [pushValues]
    by_cases hkey : key = name
    · rw [if_pos hkey, if_pos (hkey ▸ List.mem_cons_self)]
      rfl
    · rw [if_neg hkey, List.map_cons, List.map_cons, ih]
      have hiff : name ∈ key :: store.map (·.1) ↔ name ∈ store.map (·.1) :=
        List.mem_cons.trans (or_iff_right (Ne.symm hkey))
      by_cases hmem : name ∈ store.map (·.1)
      · rw [if_pos hmem, if_pos (hiff.mpr hmem)]
      · rw [if_neg hmem, if_neg (mt hiff.mp hmem)]
        rfl

/-! ### Declared arguments -/

/-- What the arguments of a schema are like. -/
structure Declared (args : List CommandArg) : Prop where
  names : (args.map CommandArg.name).Nodup
  flags : ∀ arg ∈ args, arg.flag = toFlagName arg.name
  items : ∀ arg ∈ args, ∀ item, arg.argType = .array item → ¬item.isArray = true

theorem length_toFlagName (name : List Char) : (toFlagName name).length = name.length := List.length_map _

theorem toFlagName_of_not_mem {name : List Char} (h : '_' ∉ name) : toFlagName name = name := by
  conv_rhs => rw [← List.map_id name]
  refine List.map_congr_left fun c hmem => if_neg ?_
  rintro rfl
  exact h hmem

theorem not_mem_toFlagName (name : List Char) : '_' ∉ toFlagName name := by
  intro hmem
  obtain ⟨c, -, hc⟩ := List.mem_map.mp hmem
  split at hc
  next => exact absurd hc (by decide)
  next hne => exact hne hc

/-- The last argument with the name or the flag is found. -/
theorem buildArgMap_eq (args : List CommandArg) (key : List Char) :
    buildArgMap args key = args.reverse.find? fun arg => arg.name = key ∨ arg.flag = key := by
  induction args using List.reverseRecOn with
  | nil => rfl
  | append_singleton args arg ih =>
    rw [buildArgMap, List.foldl_append, List.reverse_append, List.reverse_singleton, List.singleton_append,
      List.find?_cons]
    show ((buildArgMap args).insert arg.name arg).insert arg.flag arg key = _
    rw [FMap.insert_apply, FMap.insert_apply, ih]
    by_cases hflag : key = arg.flag
    · rw [if_pos hflag, decide_eq_true (.inr hflag.symm)]
    · rw [if_neg hflag]
      by_cases hname : key = arg.name
      · rw [if_pos hname, decide_eq_true (.inl hname.symm)]
      · rw [if_neg hname, decide_eq_false (not_or.mpr ⟨Ne.symm hname, Ne.symm hflag⟩)]

/-- An argument with the key as its name or flag, which no later one has. -/
def LastNamed (args : List CommandArg) (key : List Char) (arg : CommandArg) : Prop :=
  ∃ before after, args = before ++ arg :: after ∧ (arg.name = key ∨ arg.flag = key) ∧
    ∀ later ∈ after, later.name ≠ key ∧ later.flag ≠ key

section

variable {args : List CommandArg} {arg other : CommandArg} {key : List Char}

theorem buildArgMap_eq_some_iff : buildArgMap args key = some arg ↔ LastNamed args key arg := by
  rw [buildArgMap_eq, List.find?_eq_some_iff_append]
  constructor
  · rintro ⟨hkey, after, before, hsplit, hnone⟩
    refine ⟨before.reverse, after.reverse, ?_, of_decide_eq_true hkey, fun later hlater => ?_⟩
    · rw [← List.reverse_reverse args, hsplit, List.reverse_append, List.reverse_cons, List.append_assoc]
      rfl
    · have hlast := hnone later (List.mem_reverse.mp hlater)
      rwa [Bool.not_eq_true', decide_eq_false_iff_not, not_or] at hlast
  · rintro ⟨before, after, rfl, hkey, hnone⟩
    refine ⟨decide_eq_true hkey, after.reverse, before.reverse, ?_, fun later hlater => ?_⟩
    · rw [List.reverse_append, List.reverse_cons, List.append_assoc]
      rfl
    · rw [Bool.not_eq_true', decide_eq_false_iff_not, not_or]
      exact hnone later (List.mem_reverse.mp hlater)

theorem mem_of_buildArgMap (h : buildArgMap args key = some arg) :
    arg ∈ args ∧ (arg.name = key ∨ arg.flag = key) := by
  rw [buildArgMap_eq] at h
  have hfound := List.find?_some h
  exact ⟨List.mem_reverse.mp (List.mem_of_find?_eq_some h), of_decide_eq_true hfound⟩

theorem Declared.eq_of_name (hargs : Declared args) (harg : arg ∈ args) (hother : other ∈ args)
    (h : arg.name = other.name) : arg = other := List.inj_on_of_nodup_map hargs.names harg hother h

/-- A key without an underscore is the flag of what it finds. -/
theorem Declared.flag_eq (hargs : Declared args) (h : buildArgMap args key = some arg) (hkey : '_' ∉ key) :
    arg.flag = key := by
  obtain ⟨hmem, hname | hflag⟩ := mem_of_buildArgMap h
  · rw [hargs.flags arg hmem, hname, toFlagName_of_not_mem hkey]
  · exact hflag

theorem Declared.length_eq (hargs : Declared args) (h : buildArgMap args key = some arg) :
    arg.flag.length = key.length := by
  obtain ⟨hmem, hname | hflag⟩ := mem_of_buildArgMap h
  · rw [hargs.flags arg hmem, length_toFlagName, hname]
  · rw [hflag]

/-- What is found by some key is found by its name. -/
theorem Declared.find_name (hargs : Declared args) (h : buildArgMap args key = some arg) :
    buildArgMap args arg.name = some arg := by
  obtain ⟨hmem, hkey⟩ := mem_of_buildArgMap h
  rw [buildArgMap_eq, List.find?_eq_some_iff_append] at h ⊢
  obtain ⟨-, after, before, hsplit, hnone⟩ := h
  refine ⟨decide_eq_true (.inl rfl), after, before, hsplit, fun later hlater => ?_⟩
  have hnames : (args.reverse.map CommandArg.name).Nodup := by
    rw [List.map_reverse, List.nodup_reverse]
    exact hargs.names
  rw [hsplit, List.map_append, List.map_cons, List.nodup_append] at hnames
  have hname : later.name ≠ arg.name := hnames.2.2 _ (List.mem_map_of_mem hlater) _ List.mem_cons_self
  rw [Bool.not_eq_true', decide_eq_false_iff_not, not_or]
  refine ⟨hname, fun hflag => ?_⟩
  have hin : later ∈ args := List.mem_reverse.mp (hsplit ▸ List.mem_append_left _ hlater)
  have hown : arg.flag = arg.name := by
    rw [hargs.flags arg hmem]
    exact toFlagName_of_not_mem (hflag ▸ hargs.flags later hin ▸ not_mem_toFlagName _)
  have hlast := hnone later hlater
  rw [Bool.not_eq_true', decide_eq_false_iff_not, not_or] at hlast
  exact hlast.2 (hflag.trans (hkey.elim id fun hkey => hown.symm.trans hkey))

end

/-! ### Reading a flag -/

/-- A key that is read as itself behind two dashes, and finds the argument. -/
structure Enters (args : List CommandArg) (key : List Char) (arg : CommandArg) : Prop where
  last : LastNamed args key arg
  notNegated : ¬"no-".toList <+: key
  noDashes : ¬isFlag key = true
  noEquals : '=' ∉ key

theorem Enters.found {args : List CommandArg} {key : List Char} {arg : CommandArg} (h : Enters args key arg) :
    buildArgMap args key = some arg := buildArgMap_eq_some_iff.mpr h.last

/-- An argument that is given values by some key. -/
def Enterable (args : List CommandArg) (arg : CommandArg) : Prop := ∃ key, Enters args key arg

/-- The argument that a key sets. -/
def receiver (args : List CommandArg) (key : List Char) : Option CommandArg :=
  match key.dropPrefix? "no-".toList with
  | some stripped => (buildArgMap args stripped).filter (·.argType = .boolean)
  | none => buildArgMap args key

theorem dropPrefix?_no {key : List Char} :
    key.dropPrefix? "no-".toList = none ↔ ¬"no-".toList <+: key := by
  constructor
  · rintro h ⟨rest, rfl⟩
    rw [List.dropPrefix?_append_of_beq _ (beq_self_eq_true _)] at h
    exact nomatch h
  · intro h
    rw [Option.eq_none_iff_forall_ne_some]
    intro rest hrest
    obtain ⟨front, rfl, hfront⟩ := List.dropPrefix?_eq_some_iff.mp hrest
    exact h (eq_of_beq hfront ▸ List.prefix_append _ _)

section

variable {args : List CommandArg} {arg : CommandArg} {key flag value command : List Char} {store : Store}
  {next : Option (List Char)}

theorem receiver_cases (h : receiver args key = some arg) :
    (∃ stripped, key = "no-".toList ++ stripped ∧ buildArgMap args stripped = some arg ∧ arg.argType = .boolean) ∨
      ¬"no-".toList <+: key ∧ buildArgMap args key = some arg := by
  rw [receiver] at h
  split at h
  next stripped hstripped =>
    obtain ⟨front, rfl, hfront⟩ := List.dropPrefix?_eq_some_iff.mp hstripped
    obtain ⟨hfound, hboolean⟩ := Option.filter_eq_some_iff.mp h
    exact .inl ⟨stripped, by rw [eq_of_beq hfront], hfound, of_decide_eq_true hboolean⟩
  next hnone => exact .inr ⟨dropPrefix?_no.mp hnone, h⟩

theorem found_of_receiver (h : receiver args key = some arg) : ∃ name, buildArgMap args name = some arg := by
  rcases receiver_cases h with ⟨stripped, -, hfound, -⟩ | ⟨-, hfound⟩
  · exact ⟨stripped, hfound⟩
  · exact ⟨key, hfound⟩

/-- The argument that a flag sets is given a value by its key, or is a switch that the flag turns off. -/
theorem enters_of_receiver (h : receiver args (flagKey flag) = some arg) :
    Enters args (flagKey flag) arg ∨ "no-".toList <+: flagKey flag ∧ arg.argType = .boolean := by
  obtain ⟨hequals, hdashes, -⟩ := flagKey_spec flag
  rcases receiver_cases h with ⟨stripped, hkey, -, hboolean⟩ | ⟨hno, hfound⟩
  · exact .inr ⟨hkey ▸ List.prefix_append _ _, hboolean⟩
  · exact .inl ⟨buildArgMap_eq_some_iff.mp hfound, hno, hdashes, hequals⟩

/-- An argument that has a value may be given another only if it is an array. -/
def CanStart (store : Store) (arg : CommandArg) : Prop :=
  arg.argType.isArray = true ∨ store.lookup arg.name = none

theorem ensureFlagCanStart_ok_iff : ensureFlagCanStart command store arg = .ok () ↔ CanStart store arg := by
  rw [ensureFlagCanStart, CanStart]
  cases arg.argType.isArray <;> cases store.lookup arg.name <;> simp

theorem insertFlagValue_ok_iff {store' : Store} : insertFlagValue command store arg value = .ok store' ↔
    CanStart store arg ∧ store' = pushValues arg.name [value] store := by
  rw [insertFlagValue, Step.except_bind_ok]
  constructor
  · rintro ⟨_, hstart, hstore⟩
    exact ⟨ensureFlagCanStart_ok_iff.mp hstart, (Except.ok.inj hstore).symm⟩
  · rintro ⟨hstart, rfl⟩
    exact ⟨(), ensureFlagCanStart_ok_iff.mpr hstart, rfl⟩

/-- What a flag may do to the store: a value of its own, or the next token's, or none yet. -/
inductive FlagRead (flag : List Char) (store : Store) (next : Option (List Char)) (arg : CommandArg) : Cursor → Prop
  | own {value : List Char} (hvalue : arg.argType = .boolean ∨ value.length < flag.length) :
      FlagRead flag store next arg ⟨pushValues arg.name [value] store, none, false⟩
  | next {value : List Char} (hnext : next = some value) (hvalue : ¬isFlag value = true) :
      FlagRead flag store next arg ⟨pushValues arg.name [value] store, none, true⟩
  | started : FlagRead flag store next arg ⟨pushValues arg.name [] store, some arg.name, false⟩

/-- A value behind an equals sign is shorter than its flag. -/
theorem splitFlag_length (h : (splitFlag flag).2 = some value) : value.length < flag.length := by
  rw [splitFlag] at h
  split at h
  next key value' hsplit =>
    cases h
    have hlength := trimDashes_length flag
    rw [(splitOnce_some hsplit).1, List.length_append, List.length_cons] at hlength
    omega
  next => exact nomatch h

/-- A flag that is read sets the argument of its key, or turns it off. -/
theorem handleFlag_ok {cursor : Cursor} (h : handleFlag command flag next store (buildArgMap args) = .ok cursor) :
    ∃ arg, receiver args (flagKey flag) = some arg ∧ CanStart store arg ∧ FlagRead flag store next arg cursor ∧
      ("no-".toList <+: flagKey flag → cursor = ⟨pushValues arg.name ["false".toList] store, none, false⟩) := by
  have hown : ∀ {arg value}, (do
      let store ← insertFlagValue command store arg value
      Except.ok (Cursor.mk store none false)) = .ok cursor → arg.argType = .boolean ∨ value.length < flag.length →
        CanStart store arg ∧ FlagRead flag store next arg cursor ∧
          cursor = ⟨pushValues arg.name [value] store, none, false⟩ := by
    intro arg value hrun hvalue
    obtain ⟨store', hinsert, hcursor⟩ := Step.except_bind_ok.mp hrun
    obtain ⟨hstart, rfl⟩ := insertFlagValue_ok_iff.mp hinsert
    obtain rfl := Except.ok.inj hcursor
    exact ⟨hstart, .own hvalue, rfl⟩
  rw [handleFlag] at h
  dsimp only at h
  rw [receiver, flagKey]
  cases hstripped : (splitFlag flag).1.dropPrefix? "no-".toList with
  | some stripped =>
    rw [hstripped] at h
    dsimp only at h
    split at h
    next arg harg =>
      obtain ⟨hstart, hread, hcursor⟩ := hown h (.inl (of_decide_eq_true (Option.filter_eq_some_iff.mp harg).2))
      exact ⟨arg, harg, hstart, hread, fun _ => hcursor⟩
    next => exact nomatch h
  | none =>
    rw [hstripped] at h
    dsimp only at h
    split at h
    next => exact nomatch h
    next arg harg =>
      have hno := dropPrefix?_no.mp hstripped
      refine ⟨arg, harg, ?_⟩
      rw [← and_assoc]
      refine ⟨?_, fun hnegated => absurd hnegated hno⟩
      split at h
      next value hvalue =>
        obtain ⟨hstart, hread, -⟩ := hown h (.inr (splitFlag_length hvalue))
        exact ⟨hstart, hread⟩
      next =>
        split at h
        next hboolean =>
          rw [handleBoolFlag] at h
          split at h
          next value hvalue =>
            obtain ⟨hnext, hplain⟩ := Option.filter_eq_some_iff.mp hvalue
            rw [Bool.and_eq_true, Bool.not_eq_true'] at hplain
            obtain ⟨store', hinsert, hcursor⟩ := Step.except_bind_ok.mp h
            obtain ⟨hstart, rfl⟩ := insertFlagValue_ok_iff.mp hinsert
            obtain rfl := Except.ok.inj hcursor
            exact ⟨hstart, .next hnext (by rw [hplain.1]; decide)⟩
          next =>
            obtain ⟨hstart, hread, -⟩ := hown h (.inl hboolean)
            exact ⟨hstart, hread⟩
        next =>
          obtain ⟨_, hstart, hcursor⟩ := Step.except_bind_ok.mp h
          obtain rfl := Except.ok.inj hcursor
          exact ⟨ensureFlagCanStart_ok_iff.mp hstart, .started⟩

end

end Vyuh.Commands
