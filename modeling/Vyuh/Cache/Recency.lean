import Mathlib
import Vyuh.Cache.Retention

/-! Which entry eviction removes. The store keeps no times of use: the order of the markers in its queue
    stands for them. A history adds the times; `Ordered` says that the markers that are current stand in
    the order of their entries' last uses. Every call keeps that, but for a compaction, which takes the
    order of the map, and for a use whose marker is still in the queue from a cycle of the sequence ago. -/

namespace Vyuh.Cache

open Lib

/-- The calls on a store. -/
inductive StoreOp (V R : Type)
  | insert (key : String) (value : V) (bytes : ℕ)
  | access (key : String) (action : Option V → MemoryAction V R)
  | remove (key : String)
  | retain (keep : String → Bool)
  | setLimits (limits : MemoryLimits)

/-- What a call comes to in a state: an access is a read, a write, a removal, or nothing when it keeps a
    missing entry. -/
inductive Effect (V : Type)
  | write (key : String) (value : V) (bytes : ℕ)
  | read (key : String) (entry : StoredValue V)
  | remove (key : String)
  | retain (keep : String → Bool)
  | setLimits (limits : MemoryLimits)
  | nothing

namespace Effect

variable {V : Type}

/-- The entry that is read or written. -/
def uses : Effect V → Option String
  | .write key _ _ | .read key _ => some key
  | .remove _ | .retain _ | .setLimits _ | .nothing => none

/-- Whether the call evicts what is over the limits. -/
def evicts : Effect V → Bool
  | .write _ _ _ | .setLimits _ => true
  | .read _ _ | .remove _ | .retain _ | .nothing => false

/-- Whether the call ends with a compaction of the queue, if it is due. -/
def compacts : Effect V → Bool
  | .write _ _ _ | .read _ _ | .retain _ | .setLimits _ => true
  | .remove _ | .nothing => false

end Effect

namespace MemoryState

variable {V R : Type}

def effect (s : MemoryState V) : StoreOp V R → Effect V
  | .insert key value bytes => .write key value bytes
  | .access key action =>
    match action ((s.entries.lookup key).map StoredValue.value) with
    | .keep _ => (s.entries.lookup key).elim .nothing (.read key)
    | .remove _ => .remove key
    | .replace value bytes _ => .write key value bytes
  | .remove key => .remove key
  | .retain keep => .retain keep
  | .setLimits limits => .setLimits limits

/-- The state a call makes before it evicts or compacts. -/
def edited (s : MemoryState V) : Effect V → MemoryState V
  | .write key value bytes =>
    (s.remove key).use key value bytes (saturatingAddUsize (s.remove key).retainedBytes bytes)
  | .read key entry => s.use key entry.value entry.bytes s.retainedBytes
  | .remove key => s.remove key
  | .retain keep =>
    let entries := s.entries.filter fun key _ => keep key
    { s with
      entries
      retainedBytes := entries.toList.foldl (fun total e => saturatingAddUsize total e.2.bytes) 0 }
  | .setLimits limits => { s with limits }
  | .nothing => s

/-- The state a call has made when it is through with evicting. -/
def settled (s : MemoryState V) (effect : Effect V) : MemoryState V :=
  if effect.evicts then (s.edited effect).evictLoop else s.edited effect

section Host

variable [Host]

/-- One call. -/
def execOp (s : MemoryState V) : StoreOp V R → MemoryState V
  | .insert key value bytes => s.insert key value bytes
  | .access key action => (s.access key action).2
  | .remove key => s.remove key
  | .retain keep => s.retain keep
  | .setLimits limits => s.setLimits limits

/-- A call edits, evicts and compacts, in this order. -/
theorem execOp_eq (s : MemoryState V) (op : StoreOp V R) : s.execOp op =
    if (s.effect op).compacts then (s.settled (s.effect op)).compactLru else s.settled (s.effect op) := by
  cases op with
  | insert key value bytes => rfl
  | access key action =>
    rw [execOp, access, effect]
    cases action ((s.entries.lookup key).map StoredValue.value) with
    | keep result =>
      rw [apply]
      cases hentry : s.entries.lookup key with
      | none => rfl
      | some entry => exact touch_eq hentry
    | remove result => rfl
    | replace value bytes result => rfl
  | remove key => rfl
  | retain keep => rfl
  | setLimits limits => rfl

/-- A compaction that is due lists the current markers as they stand in the queue. -/
def RebuildsInOrder (s : MemoryState V) : Prop :=
  saturatingAddUsize (saturatingMulUsize s.entries.size 4) 16 < s.lru.length →
    Host.order (s.entries.toList.map fun e => (e.1, e.2.sequence)) = s.lru.filter s.current

/-- A call whose marker is not in the queue yet, and whose compaction, if it makes one, keeps the order. -/
structure Orderly (s : MemoryState V) (effect : Effect V) : Prop where
  fresh : ∀ key, effect.uses = some key → (key, wrappingAddU64 s.sequence 1) ∉ s.lru
  rebuilds : effect.compacts = true → (s.settled effect).RebuildsInOrder

/-- A call is orderly when its sequence is new to the queue and no compaction is due after it. -/
theorem Orderly.of_short {s : MemoryState V} {effect : Effect V}
    (hnew : ∀ m ∈ s.lru, m.2 ≠ wrappingAddU64 s.sequence 1)
    (hshort : (s.settled effect).lru.length ≤
      saturatingAddUsize (saturatingMulUsize (s.settled effect).entries.size 4) 16) : s.Orderly effect where
  fresh _ _ hmem := hnew _ hmem rfl
  rebuilds _ hlong := absurd hshort (not_le.mpr hlong)

end Host

/-- The current markers stand in the order of the last uses of their entries, which lie in the past, and
    every entry has one. -/
structure Ordered (s : MemoryState V) (used : String → ℕ) (clock : ℕ) : Prop where
  marked : ∀ key entry, s.entries.lookup key = some entry → (key, entry.sequence) ∈ s.lru
  sorted : (s.lru.filter s.current).Pairwise fun m m' => used m.1 < used m'.1
  past : ∀ key, used key ≤ clock

/-! ### What keeps the markers in order -/

section

variable {s s' : MemoryState V} {used : String → ℕ} {clock : ℕ}

theorem current_within (h : s'.Within s) {m : String × ℕ} (hm : s'.current m = true) : s.current m = true := by
  obtain ⟨entry, hentry, hseq⟩ := current_iff.mp hm
  exact current_iff.mpr ⟨entry, h _ entry hentry, hseq⟩

/-- Entries may go. -/
theorem Ordered.restrict (h : s.Ordered used clock) (hwithin : s'.Within s) (hlru : s'.lru = s.lru) :
    s'.Ordered used clock where
  marked key entry hentry := hlru ▸ h.marked key entry (hwithin key entry hentry)
  sorted := by
    rw [hlru]
    exact h.sorted.sublist (List.monotone_filter_right _ fun m hm => current_within hwithin hm)
  past := h.past

theorem Ordered.remove (h : s.Ordered used clock) (key : String) : (s.remove key).Ordered used clock :=
  h.restrict (remove_within s key) (remove_lru s key)

theorem use_current {key : String} {value : V} {bytes retained : ℕ} {m : String × ℕ} :
    (s.use key value bytes retained).current m =
      if m.1 = key then m.2 == wrappingAddU64 s.sequence 1 else s.current m := by
  rw [current, use_lookup]
  split
  · exact Bool.beq_comm
  · rfl

/-- A use goes to the back of the queue. -/
theorem Ordered.use (h : s.Ordered used clock) {key : String} {value : V} {bytes retained : ℕ}
    (hfresh : (key, wrappingAddU64 s.sequence 1) ∉ s.lru) :
    (s.use key value bytes retained).Ordered (Function.update used key (clock + 1)) (clock + 1) := by
  have hold : ∀ m ∈ s.lru, (s.use key value bytes retained).current m = true →
      s.current m = true ∧ m.1 ≠ key := by
    intro m hm hcur
    rw [use_current] at hcur
    split at hcur
    · next hkey =>
      have hnew : m = (key, wrappingAddU64 s.sequence 1) := Prod.ext hkey (beq_iff_eq.mp hcur)
      exact absurd (hnew ▸ hm) hfresh
    · next hkey => exact ⟨hcur, hkey⟩
  refine ⟨?_, ?_, ?_⟩
  · intro k entry hentry
    rw [use_lookup] at hentry
    simp only [MemoryState.use, List.mem_append, List.mem_singleton]
    split at hentry
    · next hkey =>
      obtain rfl := Option.some.inj hentry
      exact .inr (by rw [hkey])
    · exact .inl (h.marked k entry hentry)
  · have hlru : (s.use key value bytes retained).lru = s.lru ++ [(key, wrappingAddU64 s.sequence 1)] := rfl
    rw [hlru, List.filter_append, List.pairwise_append]
    refine ⟨?_, (List.pairwise_singleton _ _).sublist List.filter_sublist, ?_⟩
    · have hsub : ((s.lru.filter (s.use key value bytes retained).current)).Sublist
          (s.lru.filter s.current) := by
        have hboth : s.lru.filter (s.use key value bytes retained).current =
            (s.lru.filter s.current).filter (s.use key value bytes retained).current := by
          rw [List.filter_filter]
          refine List.filter_congr fun m hm => ?_
          cases hcur : (s.use key value bytes retained).current m with
          | false => rfl
          | true => rw [(hold m hm hcur).1]; rfl
        rw [hboth]
        exact List.filter_sublist
      refine (h.sorted.sublist hsub).imp_of_mem ?_
      intro m m' hm hm' hlt
      obtain ⟨hmem, hcur⟩ := List.mem_filter.mp hm
      obtain ⟨hmem', hcur'⟩ := List.mem_filter.mp hm'
      rw [Function.update_of_ne (hold m hmem hcur).2, Function.update_of_ne (hold m' hmem' hcur').2]
      exact hlt
    · intro m hm m' hm'
      obtain ⟨hmem, hcur⟩ := List.mem_filter.mp hm
      obtain rfl := List.mem_singleton.mp (List.mem_of_mem_filter hm')
      rw [Function.update_of_ne (hold m hmem hcur).2, Function.update_self]
      exact Nat.lt_succ_of_le (h.past m.1)
  · intro k
    by_cases hkey : k = key
    · rw [hkey, Function.update_self]
    · rw [Function.update_of_ne hkey]
      exact (h.past k).trans (Nat.le_succ clock)

theorem Ordered.later (h : s.Ordered used clock) : s.Ordered used (clock + 1) :=
  ⟨h.marked, h.sorted, fun key => (h.past key).trans (Nat.le_succ clock)⟩

/-- A round of eviction removes an entry that was not used later than any other, and keeps the order. -/
theorem Ordered.evictStep (h : s.Ordered used clock) (hstep : s.EvictStep s') :
    s'.Ordered used clock ∧ ∃ key, s'.entries = s.entries.erase key ∧
      ∀ key' entry', s.entries.lookup key' = some entry' → used key ≤ used key' := by
  obtain ⟨-, hevict⟩ := hstep
  rcases evictOldestFrom_cases s s.lru with ⟨hres, -⟩ | ⟨stale, m, rest, hlru, hstale, hm, hres⟩
  · rw [evictOldest, hres] at hevict
    cases hevict
  rw [evictOldest, hres] at hevict
  obtain rfl := (Prod.mk.inj hevict).2
  have hnil : stale.filter s.current = [] :=
    List.filter_eq_nil_iff.mpr fun m hm => by rw [hstale m hm]; exact Bool.false_ne_true
  have hfilter : s.lru.filter s.current = m :: rest.filter s.current := by
    rw [hlru, List.filter_append, hnil, List.nil_append, List.filter_cons_of_pos hm]
  have hsorted := h.sorted
  rw [hfilter, List.pairwise_cons] at hsorted
  -- what is live and not the first is marked behind it
  have hbehind : ∀ key entry, s.entries.lookup key = some entry →
      (key, entry.sequence) = m ∨ (key, entry.sequence) ∈ rest.filter s.current := by
    intro key entry hentry
    have hmem : (key, entry.sequence) ∈ s.lru.filter s.current :=
      List.mem_filter.mpr ⟨h.marked key entry hentry, current_iff.mpr ⟨entry, hentry, rfl⟩⟩
    rw [hfilter] at hmem
    exact List.mem_cons.mp hmem
  refine ⟨⟨?_, ?_, h.past⟩, m.1, remove_entries _ _, ?_⟩
  · intro key entry hentry
    rw [remove_entries, Dict.lookup_erase_apply] at hentry
    split at hentry
    · cases hentry
    · next hne =>
      rw [remove_lru]
      rcases hbehind key entry hentry with heq | hmem
      · exact absurd (congrArg Prod.fst heq) hne
      · exact List.mem_of_mem_filter hmem
  · rw [remove_lru]
    have hwithin := remove_within { s with lru := rest } m.1
    exact hsorted.2.sublist (List.monotone_filter_right _ fun _ hcur => current_within hwithin hcur)
  · intro key' entry' hentry'
    rcases hbehind key' entry' hentry' with heq | hmem
    · rw [← heq]
    · exact (hsorted.1 _ hmem).le

theorem Ordered.evictLoop (h : s.Ordered used clock) : s.evictLoop.Ordered used clock := by
  refine @evictLoop_inv V (fun s => s.Ordered used clock) (fun s s' h hstep => (h.evictStep hstep).1) ?_ s h
  intro s h hstale
  refine ⟨fun key entry hentry => ?_, .nil, h.past⟩
  have hcurrent : s.current (key, entry.sequence) = true := current_iff.mpr ⟨entry, hentry, rfl⟩
  rw [hstale _ (h.marked key entry hentry)] at hcurrent
  exact (nomatch hcurrent)

/-- Every round of eviction from a state removes an entry whose last use is the oldest of all. -/
def EvictsOldest (s : MemoryState V) (used : String → ℕ) : Prop :=
  ∀ t t', Relation.ReflTransGen EvictStep s t → t.EvictStep t' → ∀ key,
    (t.entries.lookup key).isSome → t'.entries.lookup key = none →
    ∀ key', (t.entries.lookup key').isSome → used key ≤ used key'

theorem Ordered.rounds (h : s.Ordered used clock) (hreach : Relation.ReflTransGen EvictStep s s') :
    s'.Ordered used clock := by
  induction hreach with
  | refl => exact h
  | tail _ hround ih => exact (ih.evictStep hround).1

theorem Ordered.evictsOldest (h : s.Ordered used clock) : s.EvictsOldest used := by
  intro t t' hreach hstep key hkey hgone key' hkey'
  have ht := h.rounds hreach
  obtain ⟨-, oldest, hentries, hle⟩ := ht.evictStep hstep
  obtain ⟨entry', hentry'⟩ := Option.isSome_iff_exists.mp hkey'
  have hsame : key = oldest := by
    by_contra hne
    rw [hentries, Dict.lookup_erase_apply, if_neg hne] at hgone
    rw [hgone] at hkey
    exact (nomatch hkey)
  rw [hsame]
  exact hle key' entry' hentry'

section Host

variable [Host]

/-- A compaction that lists the current markers in order keeps them in order. -/
theorem Ordered.compactLru (h : s.Ordered used clock) (hrebuild : s.RebuildsInOrder) :
    s.compactLru.Ordered used clock := by
  rw [MemoryState.compactLru]
  split
  · exact h
  · next hlong =>
    rw [hrebuild (not_le.mp hlong)]
    refine ⟨fun key entry hentry => ?_, ?_, h.past⟩
    · exact List.mem_filter.mpr ⟨h.marked key entry hentry, current_iff.mpr ⟨entry, hentry, rfl⟩⟩
    · exact h.sorted.sublist List.filter_sublist

end Host

end

end MemoryState

/-! ### Histories -/

/-- A store with the times of the last uses of its entries; a call takes one unit of time. -/
structure History (V : Type) where
  store : MemoryState V
  used : String → ℕ
  clock : ℕ

namespace History

variable {V R : Type}

def new (limits : MemoryLimits) : History V := { store := .new limits, used := fun _ => 0, clock := 0 }

/-- The times after a call that has this effect. -/
def usedAfter (h : History V) (effect : Effect V) : String → ℕ :=
  match effect.uses with
  | some key => Function.update h.used key (h.clock + 1)
  | none => h.used

section Host

variable [Host]

def step (h : History V) (op : StoreOp V R) : History V where
  store := h.store.execOp op
  used := h.usedAfter (h.store.effect op)
  clock := h.clock + 1

/-- Every call of a run is orderly. -/
def Orderly : History V → List (StoreOp V R) → Prop
  | _, [] => True
  | h, op :: ops => h.store.Orderly (h.store.effect op) ∧ (h.step op).Orderly ops

/-- Every eviction of a run removes an entry whose last use is the oldest of all. -/
def EvictsOldest : History V → List (StoreOp V R) → Prop
  | _, [] => True
  | h, op :: ops =>
    ((h.store.effect op).evicts = true →
      (h.store.edited (h.store.effect op)).EvictsOldest (h.step op).used) ∧
    (h.step op).EvictsOldest ops

/-- The markers are in the order of the last uses. -/
def Sorted (h : History V) : Prop := h.store.Ordered h.used h.clock

omit [Host] in
theorem new_sorted (limits : MemoryLimits) : (new limits : History V).Sorted :=
  ⟨fun _ _ hentry => (nomatch hentry), .nil, fun _ => le_rfl⟩

theorem Sorted.edited {h : History V} (hsorted : h.Sorted) {effect : Effect V}
    (hop : h.store.Orderly effect) :
    (h.store.edited effect).Ordered (h.usedAfter effect) (h.clock + 1) := by
  cases effect with
  | write key value bytes =>
    refine MemoryState.Ordered.use (MemoryState.Ordered.remove hsorted key) ?_
    rw [MemoryState.remove_sequence, MemoryState.remove_lru]
    exact hop.fresh key rfl
  | read key entry => exact MemoryState.Ordered.use hsorted (hop.fresh key rfl)
  | remove key => exact (MemoryState.Ordered.remove hsorted key).later
  | retain keep =>
    have hkept : (h.store.edited (.retain keep)).Ordered h.used h.clock := by
      refine MemoryState.Ordered.restrict hsorted (fun key entry hentry => ?_) rfl
      exact (Option.filter_eq_some_iff.mp ((Dict.lookup_filter ..).symm.trans hentry)).1
    exact hkept.later
  | setLimits limits =>
    have hkept : (h.store.edited (.setLimits limits)).Ordered h.used h.clock :=
      MemoryState.Ordered.restrict hsorted (fun _ _ hentry => hentry) rfl
    exact hkept.later
  | nothing => exact hsorted.later

/-- An orderly call keeps the markers in the order of the last uses. -/
theorem Sorted.step {h : History V} (hsorted : h.Sorted) {op : StoreOp V R}
    (hop : h.store.Orderly (h.store.effect op)) : (h.step op).Sorted := by
  have hedited := hsorted.edited hop
  have hsettled : (h.store.settled (h.store.effect op)).Ordered (h.usedAfter (h.store.effect op))
      (h.clock + 1) := by
    rw [MemoryState.settled]
    split
    · exact hedited.evictLoop
    · exact hedited
  have hexec : (h.store.execOp op).Ordered (h.usedAfter (h.store.effect op)) (h.clock + 1) := by
    rw [MemoryState.execOp_eq]
    split
    · next hcompacts => exact hsettled.compactLru (hop.rebuilds hcompacts)
    · exact hsettled
  exact hexec

/-- A run of orderly calls only evicts entries whose last use is the oldest. -/
theorem Orderly.evictsOldest {h : History V} (hsorted : h.Sorted) :
    ∀ {ops : List (StoreOp V R)}, h.Orderly ops → h.EvictsOldest ops := by
  intro ops
  induction ops generalizing h with
  | nil => exact fun _ => trivial
  | cons op ops ih =>
    rintro ⟨hop, hops⟩
    refine ⟨fun _ => (hsorted.edited hop).evictsOldest, ?_⟩
    exact ih (hsorted.step hop) hops

/-- In every run of orderly calls on a store, eviction removes an entry whose last use is the oldest. -/
theorem lru_evicts_oldest (limits : MemoryLimits) (ops : List (StoreOp V R))
    (hops : (new limits : History V).Orderly ops) : (new limits : History V).EvictsOldest ops :=
  hops.evictsOldest (new_sorted limits)

/-- The evictions of the last call of a run. -/
theorem EvictsOldest.last {op : StoreOp V R} : ∀ {ops : List (StoreOp V R)} {h : History V},
    h.EvictsOldest (ops ++ [op]) →
    ((ops.foldl step h).store.effect op).evicts = true →
    ((ops.foldl step h).store.edited ((ops.foldl step h).store.effect op)).EvictsOldest
      ((ops.foldl step h).step op).used
  | [], _, hall => hall.1
  | _ :: ops, _, hall => by
    obtain ⟨-, hrest⟩ := hall
    rw [List.foldl_cons]
    exact EvictsOldest.last hrest

end Host

end History

/-! ### An order of the map -/

/-- A map that is iterated in the order of its entries, the one stored last first. -/
abbrev lastFirst : Host where
  lastInstant := 0
  order := id
  order_perm := fun _ => .refl _

attribute [local instance] lastFirst

/-- Two entries fill the store; the one that was not read goes when the third comes. -/
theorem History.lru_evicts_oldest_third :
    (History.new { maxEntries := 2, maxBytes := none } : History ℕ).EvictsOldest
      [StoreOp.insert "a" 0 1, .insert "b" 0 1, .access "a" fun _ => .keep (), .insert "c" 0 1] :=
  History.lru_evicts_oldest _ _
    ⟨.of_short (by decide +kernel) (by decide +kernel), .of_short (by decide +kernel) (by decide +kernel),
      .of_short (by decide +kernel) (by decide +kernel), .of_short (by decide +kernel) (by decide +kernel),
      trivial⟩

/-- Reads of one entry that fill the queue with its markers, and one of the other. -/
def manyReads : List (StoreOp ℕ Unit) :=
  [.insert "a" 0 1, .insert "b" 0 1] ++ List.replicate 22 (.access "b" fun _ => .keep ()) ++
    [.access "a" fun _ => .keep ()]

/-- What is left by them in a store of two entries. -/
def afterReads : History ℕ := manyReads.foldl History.step (.new { maxEntries := 2, maxBytes := none })

/-- The last read made a compaction, which put the entry that was read last in front: it is evicted when a
    third comes. -/
theorem History.compaction_evicts_latest :
    ¬∀ (limits : MemoryLimits) (ops : List (StoreOp ℕ Unit)), (History.new limits : History ℕ).EvictsOldest ops := by
  intro h
  have hlast := EvictsOldest.last (h { maxEntries := 2, maxBytes := none } (manyReads ++ [.insert "c" 0 1])) rfl
  have hround : (afterReads.store.edited (.write "c" 0 1)).EvictStep
      (afterReads.store.edited (.write "c" 0 1)).evictOldest.2 :=
    ⟨by decide +kernel, Prod.ext (by decide +kernel) rfl⟩
  have hle := hlast _ _ .refl hround "a" (by decide +kernel)
    (Option.isNone_iff_eq_none.mp (by decide +kernel)) "b" (by decide +kernel)
  exact absurd hle (by decide +kernel)

end Vyuh.Cache
