import Mathlib
import Vyuh.Lib.Step

/-! Hash maps that are counted and iterated as well as read. `Dict κ υ` is Mathlib's `AList` at a
    constant family: entries with distinct keys, in the order the map yields them. What is added here
    is `filter` (Rust's `retain`) and the total of a weight over the entries (`weigh`), with how
    erasing and inserting change both, and fallible functions of the values (`mapValues`). -/

namespace Lib

/-- A map from keys to values that can be iterated. -/
abbrev Dict (κ υ : Type) := AList (fun _ : κ => υ)

namespace Dict

variable {κ υ : Type}

/-- `len`. -/
def size (d : Dict κ υ) : ℕ := d.entries.length

/-- The pairs of the map, as `iter` yields them. -/
def toList (d : Dict κ υ) : List (κ × υ) := d.entries.map fun e => (e.1, e.2)

/-- `retain`: keeps the entries the predicate selects. -/
def filter (keep : κ → υ → Bool) (d : Dict κ υ) : Dict κ υ :=
  ⟨d.entries.filter fun e => keep e.1 e.2, d.nodupKeys.sublist List.filter_sublist⟩

/-- The sum of a weight over the values. -/
def weigh (w : υ → ℕ) (d : Dict κ υ) : ℕ := (d.entries.map fun e => w e.2).sum

@[simp] theorem size_empty : size (∅ : Dict κ υ) = 0 := rfl

@[simp] theorem weigh_empty (w : υ → ℕ) : weigh w (∅ : Dict κ υ) = 0 := rfl

theorem weigh_filter_le (w : υ → ℕ) (keep : κ → υ → Bool) (d : Dict κ υ) :
    weigh w (filter keep d) ≤ weigh w d :=
  (List.filter_sublist.map _).sum_le_sum fun _ _ => Nat.zero_le _

variable [DecidableEq κ]

theorem mem_entries {d : Dict κ υ} {k : κ} {v : υ} :
    d.lookup k = some v ↔ Sigma.mk k v ∈ d.entries :=
  AList.mem_lookup_iff

theorem mem_toList {d : Dict κ υ} {k : κ} {v : υ} : (k, v) ∈ d.toList ↔ d.lookup k = some v := by
  rw [mem_entries, toList, List.mem_map]
  constructor
  · rintro ⟨⟨k', v'⟩, hmem, heq⟩
    cases heq
    exact hmem
  · exact fun h => ⟨⟨k, v⟩, h, rfl⟩

omit [DecidableEq κ] in
theorem nodup_keys_toList (d : Dict κ υ) : (d.toList.map Prod.fst).Nodup := by
  simpa [toList, Function.comp_def, AList.keys, List.keys] using d.keys_nodup

/-- An entry and the rest of the map. -/
theorem perm_erase {d : Dict κ υ} {k : κ} {v : υ} (h : d.lookup k = some v) :
    d.entries.Perm (Sigma.mk k v :: (d.erase k).entries) := by
  have hmem : k ∈ d.entries.keys := AList.lookup_isSome.mp (h ▸ rfl)
  obtain ⟨b, l₁, l₂, -, hl, hk⟩ := List.exists_of_kerase hmem
  have hb : d.lookup k = some b := mem_entries.mpr (by rw [hl]; simp)
  obtain rfl : v = b := Option.some.inj (h.symm.trans hb)
  have herase : (d.erase k).entries = l₁ ++ l₂ := hk
  rw [herase, hl]
  exact List.perm_middle

theorem erase_of_lookup_none {d : Dict κ υ} {k : κ} (h : d.lookup k = none) : d.erase k = d :=
  AList.ext (List.kerase_of_notMem_keys (AList.lookup_eq_none.mp h))

theorem size_erase {d : Dict κ υ} {k : κ} {v : υ} (h : d.lookup k = some v) :
    size (d.erase k) + 1 = size d := by
  simpa [size] using (perm_erase h).length_eq.symm

theorem weigh_erase (w : υ → ℕ) {d : Dict κ υ} {k : κ} {v : υ} (h : d.lookup k = some v) :
    w v + weigh w (d.erase k) = weigh w d := by
  have hperm := (perm_erase h).map fun e => w e.2
  simpa [weigh] using hperm.sum_eq.symm

theorem size_insert (d : Dict κ υ) (k : κ) (v : υ) :
    size (d.insert k v) = size (d.erase k) + 1 := by
  simp [size, AList.insert, AList.erase, List.kinsert]

theorem weigh_insert (w : υ → ℕ) (d : Dict κ υ) (k : κ) (v : υ) :
    weigh w (d.insert k v) = w v + weigh w (d.erase k) := by
  simp [weigh, AList.insert, AList.erase, List.kinsert]

theorem lookup_insert_apply (d : Dict κ υ) (k j : κ) (v : υ) :
    (d.insert k v).lookup j = if j = k then some v else d.lookup j := by
  split
  next h => subst h; exact AList.lookup_insert d
  next h => exact AList.lookup_insert_ne h

theorem lookup_erase_apply (d : Dict κ υ) (k j : κ) :
    (d.erase k).lookup j = if j = k then none else d.lookup j := by
  split
  next h => subst h; exact AList.lookup_erase j d
  next h => exact AList.lookup_erase_ne h

theorem lookup_filter (keep : κ → υ → Bool) (d : Dict κ υ) (k : κ) :
    (filter keep d).lookup k = (d.lookup k).filter (keep k) := by
  refine Option.ext fun v => ?_
  rw [mem_entries, Option.filter_eq_some_iff, mem_entries, filter]
  exact List.mem_filter

/-- The only entry of the map weighs what the map weighs. -/
theorem size_weigh_of_only (w : υ → ℕ) {d : Dict κ υ} {k : κ} {v : υ} (h : d.lookup k = some v)
    (honly : ∀ j u, d.lookup j = some u → j = k) : size d = 1 ∧ weigh w d = w v := by
  have hrest : (d.erase k).entries = [] := by
    refine List.eq_nil_iff_forall_not_mem.mpr fun ⟨j, u⟩ hmem => ?_
    have hj := mem_entries.mpr hmem
    rw [lookup_erase_apply] at hj
    split at hj
    next => exact nomatch hj
    next hne => exact hne (honly j u hj)
  constructor
  · rw [← size_erase h, size, hrest]
    rfl
  · rw [← weigh_erase w h, weigh, hrest]
    rfl

/-! ### Fallible functions of the values -/

section

variable {ε ω : Type}

omit [DecidableEq κ] in
/-- The entries with a fallible function applied to every value, in the order of the map. -/
def mapEntries (f : υ → Except ε ω) (entries : List (Sigma fun _ : κ => υ)) :
    Except ε (List (Sigma fun _ : κ => ω)) :=
  entries.mapM fun e => (f e.2).map (Sigma.mk e.1)

omit [DecidableEq κ] in
theorem mapEntries_forall₂ {f : υ → Except ε ω} {entries : List (Sigma fun _ : κ => υ)}
    {mapped : List (Sigma fun _ : κ => ω)} (h : mapEntries f entries = .ok mapped) :
    List.Forall₂ (fun e e' => e.1 = e'.1 ∧ f e.2 = .ok e'.2) entries mapped := by
  refine (Step.except_mapM_forall₂ h).imp fun e e' heq => ?_
  cases hf : f e.2 with
  | error error =>
    rw [hf] at heq
    cases heq
  | ok w =>
    rw [hf] at heq
    cases heq
    exact ⟨rfl, rfl⟩

omit [DecidableEq κ] in
theorem keys_mapEntries {f : υ → Except ε ω} {entries : List (Sigma fun _ : κ => υ)}
    {mapped : List (Sigma fun _ : κ => ω)} (h : mapEntries f entries = .ok mapped) : entries.keys = mapped.keys :=
  List.forall₂_eq_eq_eq ▸ List.forall₂_map_left_iff.mpr (List.forall₂_map_right_iff.mpr
    ((mapEntries_forall₂ h).imp fun _ _ heq => heq.1))

omit [DecidableEq κ] in
/-- A fallible function over the values of a map, which fails where one of them does. -/
def mapValues (f : υ → Except ε ω) (d : Dict κ υ) : Except ε (Dict κ ω) :=
  match h : mapEntries f d.entries with
  | .error error => .error error
  | .ok entries => .ok ⟨entries, by rw [List.NodupKeys, ← keys_mapEntries h]; exact d.nodupKeys⟩

theorem mapValues_ok {f : υ → Except ε ω} {d : Dict κ υ} {d' : Dict κ ω} (h : d.mapValues f = .ok d') :
    ∀ k, Option.Rel (fun v w => f v = .ok w) (d.lookup k) (d'.lookup k) := by
  intro k
  have hentries : mapEntries f d.entries = .ok d'.entries := by
    rw [mapValues] at h
    split at h
    · cases h
    next heq =>
      cases h
      exact heq
  have hrel := mapEntries_forall₂ hentries
  have hlookup : ∀ {l : List (Sigma fun _ : κ => υ)} {l' : List (Sigma fun _ : κ => ω)},
      List.Forall₂ (fun e e' => e.1 = e'.1 ∧ f e.2 = .ok e'.2) l l' →
        Option.Rel (fun v w => f v = .ok w) (l.dlookup k) (l'.dlookup k) := by
    intro l l' hl
    induction hl with
    | nil => exact .none
    | @cons e e' l l' hhead _ ih =>
      obtain ⟨j, v⟩ := e
      obtain ⟨j', w⟩ := e'
      obtain ⟨rfl, hf⟩ := hhead
      by_cases hk : j = k
      · subst hk
        rw [List.dlookup_cons_eq, List.dlookup_cons_eq]
        exact .some hf
      · rw [List.dlookup_cons_ne _ _ (Ne.symm hk), List.dlookup_cons_ne _ _ (Ne.symm hk)]
        exact ih
  exact hlookup hrel

theorem mapValues_total {f : υ → Except ε ω} {d : Dict κ υ}
    (h : ∀ k v, d.lookup k = some v → ∃ w, f v = .ok w) : ∃ d', d.mapValues f = .ok d' := by
  obtain ⟨entries, hentries⟩ : ∃ entries, mapEntries f d.entries = .ok entries :=
    Step.except_mapM_total fun e he => by
      obtain ⟨w, hw⟩ := h e.1 e.2 (mem_entries.mpr he)
      exact ⟨⟨e.1, w⟩, by rw [hw]; rfl⟩
  rw [mapValues]
  split
  next heq =>
    rw [hentries] at heq
    cases heq
  next => exact ⟨_, rfl⟩

end

end Dict

end Lib
