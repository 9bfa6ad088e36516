import Mathlib

/-! Replacement of every occurrence of a pattern in a text (`str::replace`): leftmost occurrences first, none of them
    read again. Patterns here begin with a mark that they hold nowhere else, so that occurrences do not overlap. -/

namespace Lib

variable {α : Type}

/-- The first element marks the word: it occurs nowhere else in it. -/
structure Marked (mark : α) (word : List α) : Prop where
  head : word.head? = some mark
  once : mark ∉ word.tail

namespace Marked

variable {mark : α} {word front back : List α}

theorem eq_cons (h : Marked mark word) : word = mark :: word.tail := by
  cases word with
  | nil => cases h.head
  | cons c rest => rw [← Option.some.inj h.head]; rfl

theorem infix_of_append (h : Marked mark word) (hfront : mark ∉ front) (hword : word <:+: front ++ back) :
    word <:+: back := by
  induction front with
  | nil => exact hword
  | cons c front ih =>
    rw [List.mem_cons, not_or] at hfront
    rcases List.infix_cons_iff.mp hword with hhere | hrest
    · rw [h.eq_cons, List.cons_prefix_cons] at hhere
      exact absurd hhere.1 hfront.1
    · exact ih hfront.2 hrest

/-- Two words marked alike, neither of which begins the other, do not overlap. -/
theorem infix_of_marked_append (h : Marked mark word) (hfront : Marked mark front) (hne : ¬ word <+: front)
    (hne' : ¬ front <+: word) (hword : word <:+: front ++ back) : word <:+: back := by
  cases front with
  | nil => exact hword
  | cons c front =>
    rcases List.infix_cons_iff.mp hword with hhere | hrest
    · rcases List.prefix_or_prefix_of_prefix hhere (List.prefix_append (c :: front) back) with hshort | hlong
      · exact absurd hshort hne
      · exact absurd hlong hne'
    · exact h.infix_of_append hfront.once hrest

end Marked

variable [DecidableEq α]

instance (mark : α) (word : List α) : Decidable (Marked mark word) :=
  decidable_of_iff (word.head? = some mark ∧ mark ∉ word.tail) ⟨fun h => ⟨h.1, h.2⟩, fun h => ⟨h.1, h.2⟩⟩

/-- The replacement, with as many elements of an occurrence still to be passed over. -/
def replaceFrom (pattern replacement : List α) : ℕ → List α → List α
  | _, [] => []
  | skipped + 1, _ :: rest => replaceFrom pattern replacement skipped rest
  | 0, c :: rest =>
    if pattern <+: c :: rest then replacement ++ replaceFrom pattern replacement (pattern.length - 1) rest
    else c :: replaceFrom pattern replacement 0 rest

/-- `str::replace`, for a pattern that is not empty. -/
def replace (pattern replacement text : List α) : List α := replaceFrom pattern replacement 0 text

variable {mark : α} {pattern replacement : List α}

/-- Without an occurrence there is nothing to replace. -/
theorem replace_of_not_infix {text : List α} (h : ¬ pattern <:+: text) : replace pattern replacement text = text := by
  induction text with
  | nil => rfl
  | cons c rest ih =>
    have hhead : ¬ pattern <+: c :: rest := fun hhere => h hhere.isInfix
    have hrest : ¬ pattern <:+: rest := fun hword => h (hword.trans (List.suffix_cons c rest).isInfix)
    rw [replace, replaceFrom, if_neg hhead]
    exact congrArg _ (ih hrest)

/-- A word without the mark at the front of a replaced text stood there before. -/
theorem prefix_of_prefix_replace (hr : Marked mark replacement) {word : List α} (hword : mark ∉ word) : ∀ text : List α, word <+: replace pattern replacement text → word <+: text := by
  induction word with
  | nil => exact fun _ _ => List.nil_prefix
  | cons w word ih =>
    rw [List.mem_cons, not_or] at hword
    intro text h
    cases text with
    | nil => exact h
    | cons c rest =>
      rw [replace, replaceFrom] at h
      split at h
      · rw [hr.eq_cons, List.cons_append, List.cons_prefix_cons] at h
        exact absurd h.1.symm hword.1
      · rw [List.cons_prefix_cons] at h
        rw [List.cons_prefix_cons]
        exact ⟨h.1, ih hword.2 rest h.2⟩

/-- Passing over is dropping. -/
theorem replaceFrom_eq (text : List α) : ∀ skipped : ℕ,
    replaceFrom pattern replacement skipped text = replace pattern replacement (text.drop skipped) := by
  induction text with
  | nil => intro skipped; cases skipped <;> rfl
  | cons c rest ih =>
    intro skipped
    cases skipped with
    | zero => rfl
    | succ skipped => rw [replaceFrom, ih skipped, List.drop_succ_cons]

/-- A marked word in a replaced text stood there before, and is not the pattern. -/
theorem infix_of_infix_replace {word : List α} (hr : Marked mark replacement) (hw : Marked mark word)
    (hne : ¬ word <+: replacement) (hne' : ¬ replacement <+: word) :
    ∀ text : List α, word <:+: replace pattern replacement text → word <:+: text ∧ word ≠ pattern := by
  have hword := hw.eq_cons
  suffices hlen : ∀ (n : ℕ) (text : List α), text.length ≤ n → word <:+: replace pattern replacement text →
      word <:+: text ∧ word ≠ pattern from fun text => hlen text.length text le_rfl
  intro n
  induction n with
  | zero =>
    intro text hlength h
    obtain rfl := List.length_eq_zero_iff.mp (Nat.le_zero.mp hlength)
    rw [replace, replaceFrom, List.infix_nil] at h
    rw [h] at hword
    cases hword
  | succ n ih =>
    intro text hlength h
    cases text with
    | nil =>
      rw [replace, replaceFrom, List.infix_nil] at h
      rw [h] at hword
      cases hword
    | cons c rest =>
      rw [List.length_cons] at hlength
      rw [replace, replaceFrom] at h
      split at h
      · next hoccurs =>
        rw [replaceFrom_eq] at h
        have hrest := hw.infix_of_marked_append hr hne hne' h
        have hkept := ih (rest.drop (pattern.length - 1)) (by rw [List.length_drop]; omega) hrest
        exact ⟨hkept.1.trans ((List.drop_suffix _ _).trans (List.suffix_cons c rest)).isInfix, hkept.2⟩
      · next habsent =>
        rcases List.infix_cons_iff.mp h with hhere | hlater
        · rw [hword, List.cons_prefix_cons] at hhere
          have htail := prefix_of_prefix_replace hr hw.once rest hhere.2
          have hstart : word <+: c :: rest := by
            rw [hword, List.cons_prefix_cons]
            exact ⟨hhere.1, htail⟩
          exact ⟨hstart.isInfix, fun heq => habsent (heq ▸ hstart)⟩
        · have hkept := ih rest (by omega) hlater
          exact ⟨hkept.1.trans (List.suffix_cons c rest).isInfix, hkept.2⟩

end Lib
