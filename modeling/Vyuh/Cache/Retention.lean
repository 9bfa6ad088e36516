import Vyuh.Cache.MemoryStore

/-! What the store keeps true. The two bounds hold after every operation because eviction only stops
    within them, and it can always go on while there is an entry: every entry has a marker. The byte
    count is exact as long as no sum passes `usize::MAX`, and an entry has one marker for its last use
    as long as the sequence has not cycled. -/

namespace Vyuh.Cache.MemoryState

open Lib

variable {V : Type} {s s' : MemoryState V} {entry : StoredValue V} {key : String}

/-- The sizes of the stored entries, summed. -/
def stored (s : MemoryState V) : ℕ := s.entries.weigh StoredValue.bytes

/-- How many markers carry each entry's current sequence. -/
def Marks (P : ℕ → Prop) (s : MemoryState V) : Prop :=
  ∀ key entry, s.entries.lookup key = some entry → P (s.lru.count (key, entry.sequence))

/-- Every entry can be found by its markers and the byte count is no more than what is stored. -/
structure Sound (s : MemoryState V) : Prop where
  marks : s.Marks (0 < ·)
  counted : s.retainedBytes ≤ s.stored

/-- The sequence has not cycled: markers and entries are older than the next use. -/
structure Fresh (s : MemoryState V) : Prop where
  markers : ∀ m ∈ s.lru, m.2 ≤ s.sequence
  entries : ∀ key entry, s.entries.lookup key = some entry → entry.sequence ≤ s.sequence
  single : s.Marks (· = 1)

/-- The entries of `s'` are entries of `s`. -/
def Within (s' s : MemoryState V) : Prop :=
  ∀ key entry, s'.entries.lookup key = some entry → s.entries.lookup key = some entry

theorem new_sound (limits : MemoryLimits) : (new limits : MemoryState V).Sound :=
  ⟨fun _ _ h => (nomatch h), le_rfl⟩

theorem new_fresh (limits : MemoryLimits) : (new limits : MemoryState V).Fresh :=
  ⟨fun _ h => (nomatch h), fun _ _ h => (nomatch h), fun _ _ h => (nomatch h)⟩

theorem current_iff {n : ℕ} :
    s.current (key, n) = true ↔ ∃ entry, s.entries.lookup key = some entry ∧ entry.sequence = n := by
  rw [current, Option.any_eq_true]
  simp

theorem stored_remove (h : s.entries.lookup key = some entry) :
    entry.bytes + (s.remove key).stored = s.stored := by
  rw [stored, remove_entries]
  exact Dict.weigh_erase _ h

theorem retained_remove (h : s.entries.lookup key = some entry) :
    (s.remove key).retainedBytes = s.retainedBytes - entry.bytes := by
  rw [remove, h]

theorem remove_within (s : MemoryState V) (key : String) : (s.remove key).Within s := by
  intro k entry h
  rw [remove_entries, Dict.lookup_erase_apply] at h
  split at h
  next => exact nomatch h
  next => exact h

theorem remove_of_none (h : s.entries.lookup key = none) :
    s.remove key = s := by
  rw [remove, h]

theorem remove_retained_le (s : MemoryState V) (key : String) :
    (s.remove key).retainedBytes ≤ s.retainedBytes := by
  rw [remove]
  split
  next => exact Nat.sub_le ..
  next => exact le_rfl

theorem remove_size_le (s : MemoryState V) (key : String) :
    (s.remove key).entries.size ≤ s.entries.size := by
  rw [remove_entries]
  exact (List.kerase_sublist ..).length_le

theorem within_bounds (h : s.overLimit = false) :
    s.entries.size ≤ s.limits.maxEntries ∧ ∀ limit ∈ s.limits.maxBytes, s.retainedBytes ≤ limit := by
  rw [overLimit, Bool.or_eq_false_iff] at h
  refine ⟨Nat.not_lt.mp (of_decide_eq_false h.1), ?_⟩
  intro limit hlimit
  rw [Option.mem_def.mp hlimit] at h
  exact Nat.not_lt.mp (of_decide_eq_false h.2)

theorem stored_remove_twice (s : MemoryState V) (key : String) :
    ((s.remove key).remove key).stored = (s.remove key).stored := by
  have hnone : (s.remove key).entries.lookup key = none := by
    rw [remove_entries]
    exact AList.lookup_erase ..
  rw [remove_of_none hnone]

theorem Marks.remove {P : ℕ → Prop} (h : s.Marks P) (key : String) :
    (s.remove key).Marks P := by
  intro k entry hk
  rw [remove_lru]
  exact h k entry (remove_within s key k entry hk)

theorem remove_counted (h : s.retainedBytes ≤ s.stored) (key : String) :
    (s.remove key).retainedBytes ≤ (s.remove key).stored := by
  cases hk : s.entries.lookup key with
  | none => rwa [remove_of_none hk]
  | some entry =>
    have := stored_remove hk
    rw [retained_remove hk]
    omega

theorem remove_exact (h : s.retainedBytes = s.stored) (key : String) :
    (s.remove key).retainedBytes = (s.remove key).stored := by
  cases hk : s.entries.lookup key with
  | none => rwa [remove_of_none hk]
  | some entry =>
    have := stored_remove hk
    rw [retained_remove hk]
    omega

theorem Sound.remove (h : s.Sound) (key : String) : (s.remove key).Sound :=
  ⟨h.marks.remove key, remove_counted h.counted key⟩

theorem Fresh.remove (h : s.Fresh) (key : String) : (s.remove key).Fresh where
  markers := by simpa using h.markers
  entries k entry hk := by
    rw [remove_sequence]
    exact h.entries k entry (remove_within s key k entry hk)
  single := h.single.remove key

/-! ### Eviction -/

/-- A round that goes on removes one entry; the others keep all their current markers. -/
theorem evictStep_ok (h : s.EvictStep s') :
    ∃ key entry rest, s.entries.lookup key = some entry ∧ s' = { s with lru := rest }.remove key ∧
      rest <:+ s.lru ∧
      ∀ k e, k ≠ key → s.entries.lookup k = some e →
        rest.count (k, e.sequence) = s.lru.count (k, e.sequence) := by
  obtain ⟨-, h⟩ := h
  rcases evictOldestFrom_cases s s.lru with ⟨hres, -⟩ | ⟨stale, m, rest, hlru, hstale, hm, hres⟩
  · rw [evictOldest, hres] at h
    cases h
  · rw [evictOldest, hres] at h
    cases h
    obtain ⟨entry, hentry, -⟩ := current_iff.mp hm
    refine ⟨m.1, entry, rest, hentry, rfl, ⟨stale ++ [m], by simp [hlru]⟩, ?_⟩
    intro k e hne hk
    have hcur : s.current (k, e.sequence) = true := current_iff.mpr ⟨e, hk, rfl⟩
    have hnot : (k, e.sequence) ∉ stale := fun hmem => by
      rw [hstale _ hmem] at hcur
      cases hcur
    have hm' : m ≠ (k, e.sequence) := fun heq => hne (congrArg Prod.fst heq).symm
    rw [hlru, List.count_append, List.count_eq_zero.mpr hnot, List.count_cons_of_ne hm', Nat.zero_add]

/-- Eviction runs out of rounds: each uses up a marker. -/
theorem evictStep_wellFounded : WellFounded fun s' s : MemoryState V => s.EvictStep s' :=
  Subrelation.wf (fun h => evictOldest_shrinks h.2) (measure fun s : MemoryState V => s.lru.length).wf

/-- The loop stops in a state its rounds lead to: within the bounds, or with only stale markers. -/
theorem evictLoop_ends {P : MemoryState V → Prop} (hstep : ∀ s s', P s → s.EvictStep s' → P s') (h : P s) :
    ∃ t, P t ∧ (t.overLimit = false ∧ s.evictLoop = t ∨
      t.overLimit = true ∧ (∀ m ∈ t.lru, t.current m = false) ∧ s.evictLoop = { t with lru := [] }) := by
  induction s using evictLoop.induct with
  | case1 s hover s' hres ih =>
    obtain ⟨t, ht, hend⟩ := ih (hstep s s' h ⟨hover, hres⟩)
    have hloop : s.evictLoop = s'.evictLoop := by
      rw [evictLoop, if_pos hover]
      split
      next s'' hres' => exact congrArg evictLoop (congrArg Prod.snd (hres'.symm.trans hres))
      next s'' hres' => exact nomatch hres.symm.trans hres'
    exact ⟨t, ht, hloop ▸ hend⟩
  | case2 s hover s' hres =>
    rcases evictOldestFrom_cases s s.lru with ⟨hnone, hall⟩ | ⟨_, _, _, -, -, -, hsome⟩
    · have hloop : s.evictLoop = { s with lru := [] } := by
        rw [evictLoop, if_pos hover]
        split
        next s'' hres' => exact nomatch hres.symm.trans hres'
        next s'' hres' => exact congrArg Prod.snd (hres'.symm.trans hnone)
      exact ⟨s, h, .inr ⟨hover, hall, hloop⟩⟩
    · exact nomatch hres.symm.trans hsome
  | case3 s hover =>
    exact ⟨s, h, .inl ⟨Bool.eq_false_iff.mpr hover, by rw [evictLoop, if_neg hover]⟩⟩

/-- What every round keeps, and what giving up keeps, holds after the loop. -/
theorem evictLoop_inv {P : MemoryState V → Prop}
    (hstep : ∀ s s', P s → s.EvictStep s' → P s')
    (hout : ∀ s, P s → (∀ m ∈ s.lru, s.current m = false) → P { s with lru := [] })
    {s : MemoryState V} (h : P s) : P s.evictLoop := by
  obtain ⟨t, ht, ⟨-, hloop⟩ | ⟨-, hstale, hloop⟩⟩ := evictLoop_ends hstep h
  · exact hloop ▸ ht
  · exact hloop ▸ hout t ht hstale

theorem no_entries_of_stale {P : ℕ → Prop} (hP : ¬ P 0) (h : s.Marks P)
    (hstale : ∀ m ∈ s.lru, s.current m = false) (key : String) : s.entries.lookup key = none := by
  cases hk : s.entries.lookup key with
  | none => rfl
  | some entry =>
    have hmem : (key, entry.sequence) ∈ s.lru := by
      by_contra hnot
      have hcount := h key entry hk
      rw [List.count_eq_zero.mpr hnot] at hcount
      exact hP hcount
    have hcur := hstale _ hmem
    rw [current_iff.mpr ⟨entry, hk, rfl⟩] at hcur
    exact nomatch hcur

theorem evictStep_marks {P : ℕ → Prop} (h : s.Marks P) (hstep : s.EvictStep s') :
    s'.Marks P := by
  obtain ⟨key, entry, rest, -, rfl, -, hcount⟩ := evictStep_ok hstep
  intro k e hk
  rw [remove_entries, Dict.lookup_erase_apply] at hk
  split at hk
  next => exact nomatch hk
  next hne =>
    rw [remove_lru, hcount k e hne hk]
    exact h k e hk

theorem evictStep_counted (h : s.retainedBytes ≤ s.stored) (hstep : s.EvictStep s') :
    s'.retainedBytes ≤ s'.stored := by
  obtain ⟨key, entry, rest, -, rfl, -, -⟩ := evictStep_ok hstep
  exact remove_counted (s := { s with lru := rest }) h key

theorem evictLoop_marks {P : ℕ → Prop} (hP : ¬ P 0) (h : s.Marks P) :
    s.evictLoop.Marks P := by
  refine evictLoop_inv (P := Marks P) (fun _ _ => evictStep_marks) ?_ h
  intro s h hstale k e hk
  rw [show s.entries.lookup k = none from no_entries_of_stale hP h hstale k] at hk
  exact nomatch hk

theorem evictLoop_within (s : MemoryState V) : s.evictLoop.Within s := by
  refine evictLoop_inv (P := fun s' => s'.Within s) ?_ (fun _ h _ => h) fun _ _ h => h
  intro s₁ s₂ h hstep k e hk
  obtain ⟨key, entry, rest, -, rfl, -, -⟩ := evictStep_ok hstep
  exact h k e (remove_within { s₁ with lru := rest } key k e hk)

theorem evictLoop_counted (h : s.retainedBytes ≤ s.stored) :
    s.evictLoop.retainedBytes ≤ s.evictLoop.stored :=
  evictLoop_inv (P := fun s => s.retainedBytes ≤ s.stored) (fun _ _ => evictStep_counted)
    (fun _ h _ => h) h

theorem evictLoop_exact (h : s.retainedBytes = s.stored) :
    s.evictLoop.retainedBytes = s.evictLoop.stored := by
  refine evictLoop_inv (P := fun s => s.retainedBytes = s.stored) ?_ (fun _ h _ => h) h
  intro s s' h hstep
  obtain ⟨key, entry, rest, -, rfl, -, -⟩ := evictStep_ok hstep
  exact remove_exact (s := { s with lru := rest }) h key

theorem evictLoop_frame (s : MemoryState V) :
    s.evictLoop.sequence = s.sequence ∧ s.evictLoop.limits = s.limits := by
  refine evictLoop_inv (P := fun s' => s'.sequence = s.sequence ∧ s'.limits = s.limits) ?_
    (fun _ h _ => h) ⟨rfl, rfl⟩
  intro s₁ s₂ h hstep
  obtain ⟨key, entry, rest, -, rfl, -, -⟩ := evictStep_ok hstep
  simpa using h

theorem evictLoop_markers (s : MemoryState V) : ∀ m ∈ s.evictLoop.lru, m ∈ s.lru := by
  refine evictLoop_inv (P := fun s' => ∀ m ∈ s'.lru, m ∈ s.lru) ?_
    (fun _ _ _ m hm => nomatch hm) fun _ h => h
  intro s₁ s₂ h hstep m hm
  obtain ⟨key, entry, rest, -, rfl, hsuffix, -⟩ := evictStep_ok hstep
  rw [remove_lru] at hm
  exact h m (hsuffix.mem hm)

/-- An empty store is within any bounds. -/
theorem overLimit_of_empty (hempty : ∀ key, s.entries.lookup key = none) (h : s.retainedBytes ≤ s.stored) :
    s.overLimit = false := by
  have hnil : s.entries.entries = [] := by
    refine List.eq_nil_iff_forall_not_mem.mpr fun e hmem => ?_
    have hsome := Dict.mem_entries.mpr hmem
    rw [hempty] at hsome
    exact nomatch hsome
  have hsize : s.entries.size = 0 := by rw [Dict.size, hnil]; rfl
  have hstored : s.stored = 0 := by rw [stored, Dict.weigh, hnil]; rfl
  have hzero : s.retainedBytes = 0 := by omega
  simp [overLimit, hsize, hzero]

/-- Eviction stops within the bounds. -/
theorem evictLoop_overLimit (h : s.Sound) : s.evictLoop.overLimit = false := by
  obtain ⟨t, ht, ⟨hwithin, hloop⟩ | ⟨hover, hstale, -⟩⟩ := evictLoop_ends (P := Sound)
    (fun s s' h hstep => ⟨evictStep_marks h.marks hstep, evictStep_counted h.counted hstep⟩) h
  · exact hloop ▸ hwithin
  · have hempty := no_entries_of_stale (P := (0 < ·)) (by simp) ht.marks hstale
    rw [overLimit_of_empty hempty ht.counted] at hover
    exact nomatch hover

/-! ### Operations -/

/-- A use of a key: the entry gets the next sequence and a marker for it at the back. -/
def use (s : MemoryState V) (key : String) (value : V) (bytes retained : ℕ) : MemoryState V :=
  let sequence := wrappingAddU64 s.sequence 1
  { s with
    entries := s.entries.insert key { value, bytes, sequence }
    lru := s.lru ++ [(key, sequence)]
    retainedBytes := retained
    sequence }

theorem use_lookup (s : MemoryState V) (key k : String) (value : V) (bytes retained : ℕ) :
    (s.use key value bytes retained).entries.lookup k =
      if k = key then some { value, bytes, sequence := wrappingAddU64 s.sequence 1 }
      else s.entries.lookup k :=
  Dict.lookup_insert_apply ..

theorem use_marks {P : ℕ → Prop} (h : s.Marks P) (key : String) (value : V) (bytes retained : ℕ)
    (hP : P (s.lru.count (key, wrappingAddU64 s.sequence 1) + 1)) :
    (s.use key value bytes retained).Marks P := by
  intro k entry hk
  rw [use_lookup] at hk
  simp only [use, List.count_append, List.count_singleton]
  split at hk
  next heq =>
    cases hk
    subst heq
    simpa using hP
  next hne =>
    have hkey : ¬ (key = k ∧ wrappingAddU64 s.sequence 1 = entry.sequence) := fun ⟨h, _⟩ => hne h.symm
    simpa [hkey] using h k entry hk

theorem use_fresh (h : s.Fresh) (hnext : s.sequence + 1 < 2 ^ 64) (key : String) (value : V)
    (bytes retained : ℕ) : (s.use key value bytes retained).Fresh := by
  have hwrap : wrappingAddU64 s.sequence 1 = s.sequence + 1 := Nat.mod_eq_of_lt hnext
  have hnew : (key, wrappingAddU64 s.sequence 1) ∉ s.lru := fun hmem => by
    have hle := h.markers _ hmem
    simp only [hwrap] at hle
    omega
  refine ⟨?_, ?_, use_marks h.single key value bytes retained ?_⟩
  · intro m hm
    simp only [use, List.mem_append, List.mem_singleton] at hm
    rcases hm with hm | rfl
    · exact (h.markers m hm).trans (by simp [use, hwrap])
    · exact le_rfl
  · intro k entry hk
    rw [use_lookup] at hk
    split at hk
    next => cases hk; exact le_rfl
    next => exact (h.entries k entry hk).trans (by simp [use, hwrap])
  · rw [List.count_eq_zero.mpr hnew]

theorem use_stored (s : MemoryState V) (key : String) (value : V) (bytes retained : ℕ) :
    (s.use key value bytes retained).stored = bytes + (s.remove key).stored := by
  rw [stored, stored, remove_entries]
  exact Dict.weigh_insert ..

theorem use_sound (h : s.Sound) (key : String) (value : V) (bytes : ℕ) :
    ((s.remove key).use key value bytes
      (saturatingAddUsize (s.remove key).retainedBytes bytes)).Sound := by
  have hremoved := h.remove key
  refine ⟨use_marks hremoved.marks key value bytes _ (Nat.succ_pos _), ?_⟩
  have := hremoved.counted
  rw [use_stored, stored_remove_twice]
  simp only [use, saturatingAddUsize]
  omega

/-- The last marker is the newest use, of an entry that alone is within the bounds. -/
structure Newest (key : String) (entry : StoredValue V) (s : MemoryState V) : Prop where
  sound : s.Sound
  held : s.entries.lookup key = some entry
  last : ∃ old, s.lru = old ++ [(key, entry.sequence)] ∧ (key, entry.sequence) ∉ old
  entries : 0 < s.limits.maxEntries
  bytes : ∀ limit ∈ s.limits.maxBytes, entry.bytes ≤ limit

/-- Alone in the store, the newest entry is within the bounds. -/
theorem Newest.within (h : s.Newest key entry) (honly : ∀ j u, s.entries.lookup j = some u → j = key) :
    s.overLimit = false := by
  obtain ⟨hsize, hweigh⟩ := Dict.size_weigh_of_only StoredValue.bytes h.held honly
  have hcounted := h.sound.counted
  rw [stored, hweigh] at hcounted
  have hentries := h.entries
  rw [overLimit, hsize, Bool.or_eq_false_iff]
  refine ⟨decide_eq_false (Nat.not_lt.mpr hentries), ?_⟩
  cases hmax : s.limits.maxBytes with
  | none => rfl
  | some limit =>
    have := h.bytes limit hmax
    simp only [Option.any_some, decide_eq_false_iff_not]
    omega

/-- Eviction does not reach the newest entry: when its marker is the next one, no other entry is
    left and the bounds hold. -/
theorem Newest.step (h : s.Newest key entry) (hstep : s.EvictStep s') : s'.Newest key entry := by
  have hsound : s'.Sound :=
    ⟨evictStep_marks h.sound.marks hstep, evictStep_counted h.sound.counted hstep⟩
  obtain ⟨hover, hres⟩ := hstep
  obtain ⟨old, hlru, hnew⟩ := h.last
  rcases evictOldestFrom_cases s s.lru with ⟨hnone, -⟩ | ⟨stale, m, rest, hsplit, hstale, hm, hsome⟩
  · exact nomatch hres.symm.trans hnone
  obtain rfl : s' = _ := congrArg Prod.snd (hres.symm.trans hsome)
  rw [hlru] at hsplit
  rcases List.eq_nil_or_concat rest with rfl | ⟨rest', last, rfl⟩
  · have hold : old = stale := List.append_inj_left' hsplit rfl
    rw [h.within fun j u hj => ?_] at hover
    · exact nomatch hover
    · by_contra hne
      have hmem : (j, u.sequence) ∈ s.lru := List.count_pos_iff.mp (h.sound.marks j u hj)
      rw [hlru, List.mem_append, List.mem_singleton] at hmem
      rcases hmem with hmem | heq
      · have hcur := hstale _ (hold ▸ hmem)
        rw [current_iff.mpr ⟨u, hj, rfl⟩] at hcur
        exact nomatch hcur
      · exact hne (congrArg Prod.fst heq)
  · rw [List.concat_eq_append, ← List.cons_append, ← List.append_assoc] at hsplit
    obtain ⟨rfl, hlast⟩ := List.append_inj' hsplit rfl
    obtain rfl := List.singleton_inj.mp hlast
    have hne : key ≠ m.1 := by
      rintro rfl
      obtain ⟨e, he, hseq⟩ := current_iff.mp hm
      obtain rfl : entry = e := Option.some.inj (h.held.symm.trans he)
      exact hnew (by simp [hseq])
    refine ⟨hsound, ?_, ⟨rest', by simp, fun hmem => hnew (by simp [hmem])⟩,
      by simpa using h.entries, by simpa using h.bytes⟩
    rw [remove_entries, Dict.lookup_erase_apply, if_neg hne]
    exact h.held

theorem Newest.evictLoop (h : s.Newest key entry) : s.evictLoop.entries.lookup key = some entry := by
  obtain ⟨t, ht, ⟨-, hloop⟩ | ⟨-, -, hloop⟩⟩ := evictLoop_ends (fun _ _ => Newest.step) h
  · rw [hloop]
    exact ht.held
  · rw [hloop]
    exact ht.held

theorem filtered_marks {P : ℕ → Prop} {s t : MemoryState V} (h : s.Marks P) (hlru : t.lru = s.lru)
    (hwithin : t.Within s) : t.Marks P := by
  intro key entry hk
  rw [hlru]
  exact h key entry (hwithin key entry hk)

/-- `retain` counts the bytes again, up to `usize::MAX`. -/
theorem foldl_saturating (entries : List (String × StoredValue V)) : ∀ total ≤ usizeMax,
    entries.foldl (fun total e => saturatingAddUsize total e.2.bytes) total =
      min (total + (entries.map fun e => e.2.bytes).sum) usizeMax := by
  induction entries with
  | nil => intro total h; simp [h]
  | cons e rest ih =>
    intro total h
    have hsat : saturatingAddUsize total e.2.bytes ≤ usizeMax := Nat.min_le_right ..
    rw [List.foldl_cons, ih _ hsat, List.map_cons, List.sum_cons, saturatingAddUsize]
    omega

section Host

variable [Host]

/-- Compaction only touches the markers. -/
theorem compactLru_eq (s : MemoryState V) : ∃ markers, s.compactLru = { s with lru := markers } := by
  rw [compactLru]
  split
  · exact ⟨s.lru, rfl⟩
  · exact ⟨_, rfl⟩

@[simp] theorem compactLru_entries (s : MemoryState V) : s.compactLru.entries = s.entries := by
  obtain ⟨_, h⟩ := compactLru_eq s
  rw [h]

@[simp] theorem compactLru_retained (s : MemoryState V) :
    s.compactLru.retainedBytes = s.retainedBytes := by
  obtain ⟨_, h⟩ := compactLru_eq s
  rw [h]

@[simp] theorem compactLru_sequence (s : MemoryState V) : s.compactLru.sequence = s.sequence := by
  obtain ⟨_, h⟩ := compactLru_eq s
  rw [h]

@[simp] theorem compactLru_limits (s : MemoryState V) : s.compactLru.limits = s.limits := by
  obtain ⟨_, h⟩ := compactLru_eq s
  rw [h]

@[simp] theorem compactLru_overLimit (s : MemoryState V) : s.compactLru.overLimit = s.overLimit := by
  obtain ⟨_, h⟩ := compactLru_eq s
  rw [h]
  rfl

@[simp] theorem compactLru_stored (s : MemoryState V) : s.compactLru.stored = s.stored := by
  rw [stored, compactLru_entries, stored]

/-- The markers made afresh from the entries hold one for each. -/
theorem count_remade (h : s.entries.lookup key = some entry) :
    (Host.order (s.entries.toList.map fun e => (e.1, e.2.sequence))).count (key, entry.sequence) = 1 := by
  rw [(Host.order_perm _).count_eq]
  refine List.count_eq_one_of_mem ?_ (List.mem_map.mpr ⟨(key, entry), Dict.mem_toList.mpr h, rfl⟩)
  refine List.Nodup.of_map Prod.fst ?_
  rw [List.map_map]
  exact s.entries.nodup_keys_toList

theorem compactLru_marks {P : ℕ → Prop} (hP : P 1) (h : s.Marks P) :
    s.compactLru.Marks P := by
  intro key entry hk
  rw [compactLru_entries] at hk
  rw [compactLru]
  split
  · exact h key entry hk
  · rw [count_remade hk]
    exact hP

theorem compactLru_fresh (h : s.Fresh) : s.compactLru.Fresh where
  markers := by
    intro m hm
    rw [compactLru_sequence]
    rw [compactLru] at hm
    split at hm
    · exact h.markers m hm
    · obtain ⟨⟨key, entry⟩, hmem, rfl⟩ := List.mem_map.mp ((Host.order_perm _).mem_iff.mp hm)
      exact h.entries key entry (Dict.mem_toList.mp hmem)
  entries key entry hk := by
    rw [compactLru_entries] at hk
    rw [compactLru_sequence]
    exact h.entries key entry hk
  single := compactLru_marks (P := (· = 1)) rfl h.single

theorem compactLru_sound (h : s.Sound) : s.compactLru.Sound :=
  ⟨compactLru_marks Nat.one_pos h.marks, by simpa using h.counted⟩

theorem evict_sound (h : s.Sound) : s.evict.Sound :=
  compactLru_sound ⟨evictLoop_marks (by simp) h.marks, evictLoop_counted h.counted⟩

theorem evict_overLimit (h : s.Sound) : s.evict.overLimit = false := by
  rw [evict, compactLru_overLimit]
  exact evictLoop_overLimit h

theorem evict_exact (h : s.retainedBytes = s.stored) :
    s.evict.retainedBytes = s.evict.stored := by
  rw [evict, compactLru_retained, compactLru_stored]
  exact evictLoop_exact h

theorem evict_fresh (h : s.Fresh) : s.evict.Fresh := by
  have hseq := (evictLoop_frame s).1
  refine compactLru_fresh ⟨?_, ?_, evictLoop_marks (by simp) h.single⟩
  · intro m hm
    rw [hseq]
    exact h.markers m (evictLoop_markers s m hm)
  · intro key entry hk
    rw [hseq]
    exact h.entries key entry (evictLoop_within s key entry hk)

theorem evict_capped (h : s.retainedBytes ≤ usizeMax) :
    s.evict.retainedBytes ≤ usizeMax := by
  rw [evict, compactLru_retained]
  refine evictLoop_inv (P := fun s => s.retainedBytes ≤ usizeMax) ?_ (fun _ h _ => h) h
  intro s s' h hstep
  obtain ⟨key, entry, rest, -, rfl, -, -⟩ := evictStep_ok hstep
  exact (remove_retained_le { s with lru := rest } key).trans h

theorem evict_within (s : MemoryState V) : s.evict.Within s := by
  intro key entry hk
  rw [evict, compactLru_entries] at hk
  exact evictLoop_within s key entry hk

theorem evict_frame (s : MemoryState V) :
    s.evict.sequence = s.sequence ∧ s.evict.limits = s.limits := by
  rw [evict, compactLru_sequence, compactLru_limits]
  exact evictLoop_frame s

theorem insert_eq (s : MemoryState V) (key : String) (value : V) (bytes : ℕ) :
    s.insert key value bytes =
      ((s.remove key).use key value bytes
        (saturatingAddUsize (s.remove key).retainedBytes bytes)).evict := rfl

theorem touch_eq (h : s.entries.lookup key = some entry) :
    s.touch key = (s.use key entry.value entry.bytes s.retainedBytes).compactLru := by
  rw [touch]
  simp only [nextSequence, h]
  rfl

theorem insert_sound (h : s.Sound) (key : String) (value : V) (bytes : ℕ) :
    (s.insert key value bytes).Sound ∧ (s.insert key value bytes).overLimit = false := by
  rw [insert_eq]
  exact ⟨evict_sound (use_sound h key value bytes), evict_overLimit (use_sound h key value bytes)⟩

theorem insert_exact (h : s.retainedBytes = s.stored) (key : String) (value : V) (bytes : ℕ)
    (hfits : (s.remove key).stored + bytes ≤ usizeMax) :
    (s.insert key value bytes).retainedBytes = (s.insert key value bytes).stored := by
  have hremoved := remove_exact h key
  rw [insert_eq]
  refine evict_exact ?_
  rw [use_stored, stored_remove_twice]
  simp only [use, saturatingAddUsize]
  omega

theorem insert_fresh (h : s.Fresh) (hnext : s.sequence + 1 < 2 ^ 64) (key : String) (value : V)
    (bytes : ℕ) : (s.insert key value bytes).Fresh := by
  rw [insert_eq]
  exact evict_fresh (use_fresh (h.remove key) (by simpa using hnext) key value bytes _)

theorem insert_capped (s : MemoryState V) (key : String) (value : V) (bytes : ℕ) :
    (s.insert key value bytes).retainedBytes ≤ usizeMax := by
  rw [insert_eq]
  exact evict_capped (Nat.min_le_right ..)

theorem insert_frame (s : MemoryState V) (key : String) (value : V) (bytes : ℕ) :
    (s.insert key value bytes).sequence = wrappingAddU64 s.sequence 1 ∧
      (s.insert key value bytes).limits = s.limits := by
  rw [insert_eq]
  have := evict_frame ((s.remove key).use key value bytes
    (saturatingAddUsize (s.remove key).retainedBytes bytes))
  simpa [use] using this

/-- What is stored after an insertion is the new value or was stored before. -/
theorem insert_lookup {key k : String} {value : V} {bytes : ℕ}
    (h : (s.insert key value bytes).entries.lookup k = some entry) :
    k = key ∧ entry.value = value ∨ k ≠ key ∧ s.entries.lookup k = some entry := by
  rw [insert_eq] at h
  have hk := evict_within _ k entry h
  rw [use_lookup] at hk
  split at hk
  next heq => cases hk; exact .inl ⟨heq, rfl⟩
  next hne => exact .inr ⟨hne, remove_within s key k entry hk⟩

/-- A value that fits the bounds is stored. -/
theorem insert_stored (hsound : s.Sound) (hfresh : s.Fresh) (hnext : s.sequence + 1 < 2 ^ 64) (key : String)
    (value : V) (bytes : ℕ) (hentries : 0 < s.limits.maxEntries)
    (hbytes : ∀ limit ∈ s.limits.maxBytes, bytes ≤ limit) :
    ∃ entry, (s.insert key value bytes).entries.lookup key = some entry ∧ entry.value = value := by
  have hwrap : wrappingAddU64 (s.remove key).sequence 1 = s.sequence + 1 := by
    rw [remove_sequence]
    exact Nat.mod_eq_of_lt hnext
  let used := (s.remove key).use key value bytes
    (saturatingAddUsize (s.remove key).retainedBytes bytes)
  let entry : StoredValue V := { value, bytes, sequence := wrappingAddU64 (s.remove key).sequence 1 }
  have hlookup : used.entries.lookup key = some entry := by
    rw [use_lookup, if_pos rfl]
  have hnew : (key, entry.sequence) ∉ s.lru := fun hmem => by
    have hle := hfresh.markers _ hmem
    simp only [entry, hwrap] at hle
    omega
  have hlru : used.lru = s.lru ++ [(key, entry.sequence)] := by
    simp [used, use, entry]
  refine ⟨entry, ?_, rfl⟩
  rw [insert_eq, evict, compactLru_entries]
  exact Newest.evictLoop ⟨use_sound hsound key value bytes, hlookup, ⟨s.lru, hlru, hnew⟩,
    by simpa [used, use] using hentries, by simpa [used, use] using hbytes⟩

theorem touch_sound (h : s.Sound) (key : String) (hk : s.entries.lookup key = some entry) :
    (s.touch key).Sound := by
  rw [touch_eq hk]
  refine compactLru_sound ⟨use_marks h.marks key _ _ _ (Nat.succ_pos _), ?_⟩
  rw [use_stored, stored_remove hk]
  exact h.counted

theorem touch_exact (h : s.retainedBytes = s.stored) (key : String)
    (hk : s.entries.lookup key = some entry) :
    (s.touch key).retainedBytes = (s.touch key).stored := by
  rw [touch_eq hk, compactLru_retained, compactLru_stored, use_stored, stored_remove hk]
  exact h

theorem touch_fresh (h : s.Fresh) (hnext : s.sequence + 1 < 2 ^ 64) (key : String)
    (hk : s.entries.lookup key = some entry) : (s.touch key).Fresh := by
  rw [touch_eq hk]
  exact compactLru_fresh (use_fresh h hnext key _ _ _)

/-- A touch keeps every value where it is. -/
theorem touch_lookup (hk : s.entries.lookup key = some entry) (k : String) :
    ((s.touch key).entries.lookup k).map StoredValue.value =
      (s.entries.lookup k).map StoredValue.value := by
  rw [touch_eq hk, compactLru_entries, use_lookup]
  split
  next heq => subst heq; rw [hk]; rfl
  next => rfl

theorem touch_frame (s : MemoryState V) (key : String) (hk : s.entries.lookup key = some entry) :
    (s.touch key).sequence = wrappingAddU64 s.sequence 1 ∧ (s.touch key).limits = s.limits ∧
      (s.touch key).retainedBytes = s.retainedBytes ∧
      (s.touch key).entries.size = s.entries.size := by
  rw [touch_eq hk]
  refine ⟨by simp [use], by simp [use], by simp [use], ?_⟩
  rw [compactLru_entries]
  exact (Dict.size_insert ..).trans (Dict.size_erase hk)

theorem setLimits_sound (h : s.Sound) (limits : MemoryLimits) :
    (s.setLimits limits).Sound ∧ (s.setLimits limits).overLimit = false :=
  have hsame : Sound { s with limits } := ⟨h.marks, h.counted⟩
  ⟨evict_sound hsame, evict_overLimit hsame⟩

theorem setLimits_within (s : MemoryState V) (limits : MemoryLimits) : (s.setLimits limits).Within s :=
  evict_within { s with limits }

theorem setLimits_frame (s : MemoryState V) (limits : MemoryLimits) :
    (s.setLimits limits).sequence = s.sequence ∧ (s.setLimits limits).limits = limits :=
  evict_frame { s with limits }

theorem setLimits_exact (h : s.retainedBytes = s.stored) (limits : MemoryLimits) :
    (s.setLimits limits).retainedBytes = (s.setLimits limits).stored :=
  evict_exact (s := { s with limits }) h

theorem setLimits_fresh (h : s.Fresh) (limits : MemoryLimits) :
    (s.setLimits limits).Fresh :=
  evict_fresh (s := { s with limits }) ⟨h.markers, h.entries, h.single⟩

theorem retain_retained (s : MemoryState V) (keep : String → Bool) :
    (s.retain keep).retainedBytes = min (s.retain keep).stored usizeMax := by
  rw [retain, compactLru_retained, compactLru_stored]
  simp only [foldl_saturating _ 0 (Nat.zero_le _), Nat.zero_add]
  simp [stored, Dict.weigh, Dict.toList, Function.comp_def]

theorem retain_lookup (s : MemoryState V) (keep : String → Bool) (key : String) :
    (s.retain keep).entries.lookup key = (s.entries.lookup key).filter fun _ => keep key := by
  rw [retain, compactLru_entries]
  exact Dict.lookup_filter ..

theorem retain_stored_le (s : MemoryState V) (keep : String → Bool) :
    (s.retain keep).stored ≤ s.stored := by
  rw [retain, compactLru_stored]
  exact Dict.weigh_filter_le ..

theorem retain_size_le (s : MemoryState V) (keep : String → Bool) :
    (s.retain keep).entries.size ≤ s.entries.size := by
  rw [retain, compactLru_entries]
  exact List.length_filter_le ..

theorem retain_frame (s : MemoryState V) (keep : String → Bool) :
    (s.retain keep).sequence = s.sequence ∧ (s.retain keep).limits = s.limits := by
  simp [retain]

theorem retain_marks {P : ℕ → Prop} (hP : P 1) (h : s.Marks P) (keep : String → Bool) :
    (s.retain keep).Marks P := by
  refine compactLru_marks hP (filtered_marks h rfl ?_)
  intro key entry hk
  exact (Option.filter_eq_some_iff.mp ((Dict.lookup_filter ..).symm.trans hk)).1

theorem retain_sound (h : s.Sound) (keep : String → Bool) :
    (s.retain keep).Sound :=
  ⟨retain_marks Nat.one_pos h.marks keep, (retain_retained s keep).trans_le (Nat.min_le_left ..)⟩

theorem retain_fresh (h : s.Fresh) (keep : String → Bool) :
    (s.retain keep).Fresh := by
  have hwithin : Within { s with entries := s.entries.filter fun key _ => keep key } s := by
    intro key entry hk
    exact (Option.filter_eq_some_iff.mp ((Dict.lookup_filter ..).symm.trans hk)).1
  exact compactLru_fresh ⟨h.markers, fun key entry hk => h.entries key entry (hwithin key entry hk),
    filtered_marks h.single rfl hwithin⟩

end Host

end Vyuh.Cache.MemoryState
