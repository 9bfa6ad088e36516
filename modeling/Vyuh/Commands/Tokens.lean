import Vyuh.Commands.Flags

/-! What becomes of the tokens of an argument list: each value goes to one argument, and an argument that no
    key enters is turned off at most. -/

namespace Vyuh.Commands

open Lib

/-! ### The arguments in the store -/

/-- The values that tokens may have given an argument: any, if some key enters it, and else that it is off. -/
structure Filled (args : List CommandArg) (arg : CommandArg) (values : List (List Char)) : Prop where
  found : ∃ key, buildArgMap args key = some arg
  values : Enterable args arg ∨ arg.argType = .boolean ∧ ∀ value ∈ values, value = "false".toList

/-- The store has an entry for each of its arguments. -/
structure StoreOf (args : List CommandArg) (store : Store) : Prop where
  nodup : (store.map (·.1)).Nodup
  filled : ∀ entry ∈ store, ∃ arg, arg.name = entry.1 ∧ Filled args arg entry.2

/-- The argument that values belong to is one that they can be given. -/
structure CursorOf (args : List CommandArg) (cursor : Cursor) : Prop where
  store : StoreOf args cursor.store
  key : ∀ name, cursor.key = some name → ∃ arg, Enterable args arg ∧ arg.name = name

section

variable {args : List CommandArg} {arg : CommandArg} {command token : List Char} {store : Store}
  {next : Option (List Char)} {cursor cursor' : Cursor}

theorem Enterable.filled (h : Enterable args arg) (values : List (List Char)) : Filled args arg values :=
  let ⟨key, hkey⟩ := h
  ⟨⟨key, hkey.found⟩, .inl h⟩

/-- What is in the store after values are pushed: what was there, or the entry they are pushed to. -/
theorem mem_pushValues {name : List Char} {values : List (List Char)} {entry : List Char × List (List Char)}
    (h : entry ∈ pushValues name values store) :
    entry ∈ store ∨ entry = (name, values) ∨ ∃ old, (name, old) ∈ store ∧ entry = (name, old ++ values) := by
  induction store with
  | nil => exact .inr (.inl (List.mem_singleton.mp h))
  | cons first store ih =>
    obtain ⟨key, old⟩ := first
    rw [pushValues] at h
    split at h
    next heq =>
      rcases List.mem_cons.mp h with rfl | hmem
      · exact .inr (.inr ⟨old, heq ▸ List.mem_cons_self, by rw [heq]⟩)
      · exact .inl (List.mem_cons_of_mem _ hmem)
    next =>
      rcases List.mem_cons.mp h with rfl | hmem
      · exact .inl List.mem_cons_self
      · rcases ih hmem with hold | hnew | ⟨old', hold, heq⟩
        · exact .inl (List.mem_cons_of_mem _ hold)
        · exact .inr (.inl hnew)
        · exact .inr (.inr ⟨old', List.mem_cons_of_mem _ hold, heq⟩)

theorem StoreOf.push {values : List (List Char)} (h : StoreOf args store) (harg : Filled args arg values) :
    StoreOf args (pushValues arg.name values store) := by
  refine ⟨?_, fun entry hmem => ?_⟩
  · rw [keys_pushValues]
    split
    next => exact h.nodup
    next hnot =>
      refine List.nodup_append.mpr ⟨h.nodup, List.nodup_singleton _, fun name hmem other hother => ?_⟩
      rw [List.mem_singleton.mp hother]
      rintro rfl
      exact hnot hmem
  · rcases mem_pushValues hmem with hold | rfl | ⟨old, hold, rfl⟩
    · exact h.filled entry hold
    · exact ⟨arg, rfl, harg⟩
    · obtain ⟨other, hname, hother⟩ := h.filled _ hold
      rcases harg.values with henter | ⟨hboolean, hoff⟩
      · exact ⟨arg, rfl, henter.filled _⟩
      rcases hother.values with henter | ⟨-, hoffOld⟩
      · exact ⟨other, hname, henter.filled _⟩
      · refine ⟨arg, rfl, harg.found, .inr ⟨hboolean, fun value hvalue => ?_⟩⟩
        exact (List.mem_append.mp hvalue).elim (hoffOld value) (hoff value)

/-- A flag leaves a cursor of arguments that can be set. -/
theorem handleFlag_cursorOf {flag : List Char} (hstore : StoreOf args store)
    (h : handleFlag command flag next store (buildArgMap args) = .ok cursor) : CursorOf args cursor := by
  obtain ⟨arg, hreceiver, -, hread, hnegated⟩ := handleFlag_ok h
  rcases enters_of_receiver hreceiver with henters | ⟨hno, hboolean⟩
  · have henter : Enterable args arg := ⟨_, henters⟩
    cases hread with
    | own => exact ⟨hstore.push (henter.filled _), fun _ h => nomatch h⟩
    | next => exact ⟨hstore.push (henter.filled _), fun _ h => nomatch h⟩
    | started =>
      refine ⟨hstore.push (henter.filled _), fun name h => ?_⟩
      cases h
      exact ⟨arg, henter, rfl⟩
  · obtain rfl := hnegated hno
    refine ⟨hstore.push ⟨found_of_receiver hreceiver, .inr ⟨hboolean, ?_⟩⟩, fun _ h => nomatch h⟩
    exact List.forall_mem_singleton.mpr rfl

theorem parseToken_cursorOf (hcursor : CursorOf args cursor)
    (h : parseToken command (buildArgMap args) cursor token next = .ok cursor') : CursorOf args cursor' := by
  rw [parseToken] at h
  split at h
  next =>
    cases h
    exact ⟨hcursor.store, hcursor.key⟩
  next =>
    split at h
    next => exact handleFlag_cursorOf hcursor.store h
    next =>
      split at h
      next key hkey =>
        cases h
        obtain ⟨arg, harg, rfl⟩ := hcursor.key key hkey
        exact ⟨hcursor.store.push (harg.filled _), hcursor.key⟩
      next => exact nomatch h

theorem parseTokens_cursorOf {tokens : List (List Char)} (hcursor : CursorOf args cursor)
    (h : parseTokens command (buildArgMap args) cursor tokens = .ok cursor') : CursorOf args cursor' := by
  induction tokens generalizing cursor with
  | nil => exact Except.ok.inj h ▸ hcursor
  | cons token tokens ih =>
    obtain ⟨next, hnext, hrest⟩ := Step.except_bind_ok.mp h
    exact ih (parseToken_cursorOf hcursor hnext) hrest

theorem parseFlagArgs_ok_iff {tokens : List (List Char)} :
    parseFlagArgs command (buildArgMap args) tokens = .ok store ↔
      ∃ cursor, parseTokens command (buildArgMap args) ⟨[], none, false⟩ tokens = .ok cursor ∧ cursor.store = store := by
  rw [parseFlagArgs, Step.except_bind_ok]
  exact exists_congr fun _ => and_congr_right fun _ => ⟨Except.ok.inj, congrArg _⟩

theorem parseFlagArgs_storeOf {tokens : List (List Char)}
    (h : parseFlagArgs command (buildArgMap args) tokens = .ok store) : StoreOf args store := by
  obtain ⟨cursor, hcursor, rfl⟩ := parseFlagArgs_ok_iff.mp h
  have hstart : CursorOf args ⟨[], none, false⟩ := ⟨⟨List.nodup_nil, fun _ h => (nomatch h)⟩, fun _ h => (nomatch h)⟩
  exact (parseTokens_cursorOf hstart hcursor).store

/-! ### Values -/

/-- The values that tokens put into the store for an argument, each token at most one. -/
def contributed (contributions : List (Option (List Char × List Char))) (name : List Char) : List (List Char) :=
  contributions.filterMap fun contribution =>
    contribution.bind fun (key, value) => if key = name then some value else none

/-- A token that is no flag is a value, of one argument. -/
def Contributes (args : List CommandArg) (token : List Char) (contribution : Option (List Char × List Char)) : Prop :=
  ¬isFlag token = true → ∃ arg ∈ args, contribution = some (arg.name, token)

theorem contributed_cons (contribution : Option (List Char × List Char))
    (contributions : List (Option (List Char × List Char))) (name : List Char) :
    contributed (contribution :: contributions) name =
      contributed [contribution] name ++ contributed contributions name := by
  rw [contributed, ← List.singleton_append, List.filterMap_append]
  rfl

theorem contributed_some (key value name : List Char) :
    contributed [some (key, value)] name = if name = key then [value] else [] := by
  by_cases h : key = name
  · simp [contributed, h]
  · simp [contributed, h, Ne.symm h]

/-- The store is what the tokens have put into it, one value a token. -/
theorem parseTokens_contributions {cursor final : Cursor} (hkey : ∀ name, cursor.key = some name →
    ∃ arg ∈ args, arg.name = name) (hskip : cursor.skip = false) (tokens : List (List Char))
    (h : parseTokens command (buildArgMap args) cursor tokens = .ok final) :
    ∃ contributions, List.Forall₂ (Contributes args) tokens contributions ∧
      ∀ name, final.store.values name = cursor.store.values name ++ contributed contributions name := by
  match tokens with
  | [] =>
    cases h
    exact ⟨[], .nil, fun name => (List.append_nil _).symm⟩
  | token :: tokens =>
    have hnone : ∀ name, none = some name → ∃ arg ∈ args, arg.name = name := fun _ h => nomatch h
    obtain ⟨cursor', hcursor, hrest⟩ := Step.except_bind_ok.mp h
    rw [parseToken, hskip, if_neg (by decide)] at hcursor
    split at hcursor
    next hflag =>
      obtain ⟨arg, hreceiver, -, hread, -⟩ := handleFlag_ok hcursor
      obtain ⟨key, hfound⟩ := found_of_receiver hreceiver
      have harg := (mem_of_buildArgMap hfound).1
      cases hread with
      | @own value =>
        obtain ⟨contributions, hall, hvalues⟩ := parseTokens_contributions hnone rfl tokens hrest
        refine ⟨some (arg.name, value) :: contributions, .cons (fun hnot => absurd hflag hnot) hall, fun name => ?_⟩
        rw [hvalues, values_pushValues, contributed_cons, contributed_some, List.append_assoc]
      | started =>
        obtain ⟨contributions, hall, hvalues⟩ := parseTokens_contributions
          (fun name h => ⟨arg, harg, Option.some.inj h⟩) rfl tokens hrest
        refine ⟨none :: contributions, .cons (fun hnot => absurd hflag hnot) hall, fun name => ?_⟩
        rw [hvalues, values_pushValues, ite_self, List.append_nil, contributed_cons]
        rfl
      | @next value hnext hvalue =>
        obtain ⟨tokens, rfl⟩ := List.head?_eq_some_iff.mp hnext
        obtain ⟨skipped, hskipped, hrest⟩ := Step.except_bind_ok.mp hrest
        obtain rfl := Except.ok.inj hskipped
        obtain ⟨contributions, hall, hvalues⟩ := parseTokens_contributions hnone rfl tokens hrest
        refine ⟨none :: some (arg.name, value) :: contributions,
          .cons (fun hnot => absurd hflag hnot) (.cons (fun _ => ⟨arg, harg, rfl⟩) hall), fun name => ?_⟩
        rw [hvalues, contributed_cons none, contributed_cons (some _), contributed_some]
        show (pushValues arg.name [value] cursor.store).values name ++ _ = _
        rw [values_pushValues, List.append_assoc]
        rfl
    next hflag =>
      split at hcursor
      next key hcurrent =>
        cases hcursor
        obtain ⟨arg, harg, rfl⟩ := hkey key hcurrent
        have hnext : ∀ name, (Cursor.mk (pushValues arg.name [token] cursor.store) cursor.key false).key = some name →
            ∃ arg ∈ args, arg.name = name := hkey
        obtain ⟨contributions, hall, hvalues⟩ := parseTokens_contributions hnext rfl tokens hrest
        refine ⟨some (arg.name, token) :: contributions, .cons (fun _ => ⟨arg, harg, rfl⟩) hall, fun name => ?_⟩
        rw [hvalues, values_pushValues, contributed_cons (some _), contributed_some, List.append_assoc]
      next => exact nomatch hcursor
  termination_by tokens.length

end

end Vyuh.Commands
