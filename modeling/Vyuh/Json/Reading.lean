import Vyuh.Json.Text

/-! Reading compact texts back. A text is read as the value it is the text of, of which there is at most
    one (`text_injective`). Identifiers are known by their digits. -/

namespace Vyuh.Json
open Lib Tasks

variable {ν : Type} [NumberText ν]

open Classical in
/-- The value a compact text is the text of. -/
noncomputable def Value.read (text : String) : Option (Value ν) :=
  if h : ∃ value : Value ν, value.text = text.toList then some h.choose else none

theorem Value.read_eq_some {text : String} {value : Value ν} :
    Value.read text = some value ↔ value.text = text.toList := by
  rw [Value.read]
  constructor
  · intro h
    split at h
    · next hex =>
      rw [← Option.some.inj h]
      exact hex.choose_spec
    · exact nomatch h
  · intro h
    have hex : ∃ value : Value ν, value.text = text.toList := ⟨value, h⟩
    rw [dif_pos hex, text_injective (hex.choose_spec.trans h.symm)]

theorem listed_intercalate : ∀ texts : List String,
    listed ',' ']' (texts.map String.toList) = (",".intercalate texts).toList ++ [']']
  | [] => by
    rw [String.intercalate_nil]
    rfl
  | [text] => by
    rw [String.intercalate_singleton]
    rfl
  | text :: other :: texts => by
    have ih := listed_intercalate (other :: texts)
    rw [String.intercalate_cons_cons, String.toList_append, String.toList_append, List.map_cons, listed,
      ih]
    simp

/-- Between brackets, with commas, the texts of values are an array. -/
theorem Value.read_array {texts : List String} {values : List (Value ν)}
    (h : List.Forall₂ (fun text value => Value.read text = some value) texts values) :
    Value.read ("[" ++ ",".intercalate texts ++ "]") = some (.array values) := by
  have htexts : values.map Value.text = texts.map String.toList := by
    induction h with
    | nil => rfl
    | cons hread _ ih => rw [List.map_cons, List.map_cons, Value.read_eq_some.mp hread, ih]
  refine Value.read_eq_some.mpr ?_
  rw [Value.text, Value.itemTexts_eq, htexts, listed_intercalate, String.toList_append, String.toList_append]
  rfl

/-- One member under a name. -/
theorem Value.read_tagged {text : String} {value : Value ν} (h : Value.read text = some value) :
    Value.read ("\x7b\"Ok\":" ++ text ++ "\x7d") = some (.object [("Ok", value)]) := by
  refine Value.read_eq_some.mpr ?_
  rw [String.toList_append, String.toList_append, ← Value.read_eq_some.mp h, Value.text]
  simp [Value.fieldTexts, listed, jsonString, escapeChar]

/-! ### Identifiers -/

theorem hexDigit_injective {m n : ℕ} (hm : m < 16) (hn : n < 16) (h : hexDigit m = hexDigit n) : m = n := by
  rw [← hexValue_hexDigit m hm, h, hexValue_hexDigit n hn]

/-- A number is known by its hexadecimal digits. -/
theorem eq_of_hexDigits : ∀ (n u v : ℕ), u < 16 ^ n → v < 16 ^ n →
    (∀ k < n, u / 16 ^ k % 16 = v / 16 ^ k % 16) → u = v
  | 0, u, v, hu, hv, _ => by
    rw [pow_zero] at hu hv
    omega
  | n + 1, u, v, hu, hv, h => by
    have hlow := h 0 (Nat.succ_pos n)
    rw [pow_zero, Nat.div_one, Nat.div_one] at hlow
    rw [pow_succ] at hu hv
    have hhigh : u / 16 = v / 16 := by
      refine eq_of_hexDigits n _ _ (by omega) (by omega) fun k hk => ?_
      have hk' := h (k + 1) (Nat.succ_lt_succ hk)
      rwa [pow_succ', ← Nat.div_div_eq_div_mul, ← Nat.div_div_eq_div_mul] at hk'
    omega

theorem hexDigits_eq {u v : Uuid} {start count : ℕ} (h : hexDigits u start count = hexDigits v start count)
    {i : ℕ} (hi : i < count) : u.toNat / 16 ^ (31 - (start + i)) % 16 = v.toNat / 16 ^ (31 - (start + i)) % 16 := by
  have hat := congrArg (·[i]?) h
  simp only [hexDigits, List.getElem?_map, List.getElem?_range hi, Option.map_some, Option.some.injEq] at hat
  exact hexDigit_injective (Nat.mod_lt _ (by decide)) (Nat.mod_lt _ (by decide)) hat

/-- Identifiers are written with all their digits. -/
theorem render_injective {id other : TaskId} (h : id.render = other.render) : id = other := by
  obtain ⟨u⟩ := id
  obtain ⟨v⟩ := other
  have hlist : hexDigits u 0 8 ++ '-' :: hexDigits u 8 4 ++ '-' :: hexDigits u 12 4 ++
      '-' :: hexDigits u 16 4 ++ '-' :: hexDigits u 20 12 =
      hexDigits v 0 8 ++ '-' :: hexDigits v 8 4 ++ '-' :: hexDigits v 12 4 ++
      '-' :: hexDigits v 16 4 ++ '-' :: hexDigits v 20 12 := String.ofList_inj.mp h
  have hlength : ∀ (w : Uuid) (start count : ℕ), (hexDigits w start count).length = count := by
    intro w start count
    rw [hexDigits, List.length_map, List.length_range]
  simp only [List.append_assoc, List.cons_append] at hlist
  obtain ⟨h₁, hlist⟩ := List.append_inj hlist (by rw [hlength, hlength])
  obtain ⟨h₂, hlist⟩ := List.append_inj (List.cons.inj hlist).2 (by rw [hlength, hlength])
  obtain ⟨h₃, hlist⟩ := List.append_inj (List.cons.inj hlist).2 (by rw [hlength, hlength])
  obtain ⟨h₄, hlist⟩ := List.append_inj (List.cons.inj hlist).2 (by rw [hlength, hlength])
  have h₅ := (List.cons.inj hlist).2
  refine congrArg TaskId.mk (BitVec.eq_of_toNat_eq ?_)
  refine eq_of_hexDigits 32 _ _ (lt_of_lt_of_eq u.isLt (by decide)) (lt_of_lt_of_eq v.isLt (by decide))
    fun k hk => ?_
  obtain ⟨j, hj, rfl⟩ : ∃ j < 32, 31 - j = k := ⟨31 - k, by omega, by omega⟩
  by_cases hj₁ : j < 8
  · simpa using hexDigits_eq h₁ hj₁
  by_cases hj₂ : j < 12
  · obtain ⟨i, rfl⟩ := Nat.exists_eq_add_of_le (not_lt.mp hj₁)
    exact hexDigits_eq h₂ (by omega)
  by_cases hj₃ : j < 16
  · obtain ⟨i, rfl⟩ := Nat.exists_eq_add_of_le (not_lt.mp hj₂)
    exact hexDigits_eq h₃ (by omega)
  by_cases hj₄ : j < 20
  · obtain ⟨i, rfl⟩ := Nat.exists_eq_add_of_le (not_lt.mp hj₃)
    exact hexDigits_eq h₄ (by omega)
  obtain ⟨i, rfl⟩ := Nat.exists_eq_add_of_le (not_lt.mp hj₄)
  exact hexDigits_eq h₅ (by omega)

end Vyuh.Json
