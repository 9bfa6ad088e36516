import Vyuh.Lib.Dict
import Vyuh.Lib.Machine

/-! The bounded in-memory store shared by the framework's local caches (`cache/memory_store.rs`).
    Entries carry the size they were stored with and the sequence number of their last use; `lru` holds
    one marker per use, oldest first. A marker whose sequence is no longer the entry's is stale and is
    skipped when the oldest entry is looked for. -/

namespace Vyuh.Cache

open Lib

/-- What the platform decides: the last `Instant` it can represent and the order a `HashMap` is
    iterated in, here of the markers made from its entries. -/
class Host where
  lastInstant : ℕ
  order : List (String × ℕ) → List (String × ℕ)
  order_perm : ∀ markers, (order markers).Perm markers

/-- Limits applied to one in-memory store instance. -/
structure MemoryLimits where
  maxEntries : ℕ
  maxBytes : Option ℕ
  deriving DecidableEq, Repr

/-- The state transition selected while accessing an entry. -/
inductive MemoryAction (V R : Type)
  | keep (result : R)
  | remove (result : R)
  | replace (value : V) (bytes : ℕ) (result : R)

structure StoredValue (V : Type) where
  value : V
  bytes : ℕ
  sequence : ℕ

structure MemoryState (V : Type) where
  entries : Dict String (StoredValue V)
  lru : List (String × ℕ)
  retainedBytes : ℕ
  sequence : ℕ
  limits : MemoryLimits

namespace MemoryState

variable {V : Type}

def new (limits : MemoryLimits) : MemoryState V :=
  { entries := ∅, lru := [], retainedBytes := 0, sequence := 0, limits }

/-- A marker that is its entry's last use. -/
def current (s : MemoryState V) (marker : String × ℕ) : Bool :=
  (s.entries.lookup marker.1).any fun entry => entry.sequence == marker.2

/-- Removes one entry while maintaining byte accounting. Its markers stay. -/
def remove (s : MemoryState V) (key : String) : MemoryState V :=
  match s.entries.lookup key with
  | some entry =>
    { s with entries := s.entries.erase key, retainedBytes := s.retainedBytes - entry.bytes }
  | none => s

/-- Reports whether entry or byte bounds are currently exceeded. -/
def overLimit (s : MemoryState V) : Bool :=
  s.entries.size > s.limits.maxEntries || s.limits.maxBytes.any fun limit => s.retainedBytes > limit

/-- Pops markers until one is current and removes its entry. -/
def evictOldestFrom (s : MemoryState V) : List (String × ℕ) → Bool × MemoryState V
  | [] => (false, { s with lru := [] })
  | marker :: rest =>
    if s.current marker then (true, { s with lru := rest }.remove marker.1)
    else evictOldestFrom s rest

/-- Removes the current least-recently-used entry, if any. -/
def evictOldest (s : MemoryState V) : Bool × MemoryState V := evictOldestFrom s s.lru

@[simp] theorem remove_lru (s : MemoryState V) (key : String) : (s.remove key).lru = s.lru := by
  rw [remove]
  split <;> rfl

@[simp] theorem remove_sequence (s : MemoryState V) (key : String) :
    (s.remove key).sequence = s.sequence := by
  rw [remove]
  split <;> rfl

@[simp] theorem remove_limits (s : MemoryState V) (key : String) :
    (s.remove key).limits = s.limits := by
  rw [remove]
  split <;> rfl

@[simp] theorem remove_entries (s : MemoryState V) (key : String) :
    (s.remove key).entries = s.entries.erase key := by
  rw [remove]
  split
  next => rfl
  next h => exact (Dict.erase_of_lookup_none h).symm

/-- One round of eviction pops stale markers and then either runs out of markers or removes the entry
    of the first current one. -/
theorem evictOldestFrom_cases (s : MemoryState V) : ∀ markers : List (String × ℕ),
    (evictOldestFrom s markers = (false, { s with lru := [] }) ∧ ∀ m ∈ markers, s.current m = false) ∨
    ∃ stale marker rest, markers = stale ++ marker :: rest ∧ (∀ m ∈ stale, s.current m = false) ∧
      s.current marker = true ∧
      evictOldestFrom s markers = (true, { s with lru := rest }.remove marker.1)
  | [] => .inl ⟨rfl, fun _ h => nomatch h⟩
  | marker :: rest => by
    rw [evictOldestFrom]
    by_cases h : s.current marker = true
    · exact .inr ⟨[], marker, rest, rfl, fun _ h => (nomatch h), h, if_pos h⟩
    · have hstale : s.current marker = false := Bool.eq_false_iff.mpr h
      rw [if_neg h]
      rcases evictOldestFrom_cases s rest with ⟨hres, hall⟩ | ⟨stale, m, rest', rfl, hall, hm, hres⟩
      · exact .inl ⟨hres, List.forall_mem_cons.mpr ⟨hstale, hall⟩⟩
      · exact .inr ⟨marker :: stale, m, rest', rfl, List.forall_mem_cons.mpr ⟨hstale, hall⟩, hm, hres⟩

/-- A round that evicts uses up a marker. -/
theorem evictOldest_shrinks {s s' : MemoryState V} (h : s.evictOldest = (true, s')) :
    s'.lru.length < s.lru.length := by
  rcases evictOldestFrom_cases s s.lru with ⟨hres, -⟩ | ⟨stale, m, rest, hlru, -, -, hres⟩
  · rw [evictOldest, hres] at h
    exact nomatch h
  · rw [evictOldest, hres] at h
    cases h
    simp only [remove_lru, hlru, List.length_append, List.length_cons]
    omega

/-- One turn of the eviction loop that goes on. -/
def EvictStep (s s' : MemoryState V) : Prop := s.overLimit = true ∧ s.evictOldest = (true, s')

/-- The loop of `evict`, without the compaction after it. -/
def evictLoop (s : MemoryState V) : MemoryState V :=
  if s.overLimit then
    match _h : s.evictOldest with
    | (true, s') => evictLoop s'
    | (false, s') => s'
  else s
termination_by s.lru.length
decreasing_by exact evictOldest_shrinks _h

section Host

variable [Host]

/-- Bounds stale LRU markers created by repeated reads. -/
def compactLru (s : MemoryState V) : MemoryState V :=
  let limit := saturatingAddUsize (saturatingMulUsize s.entries.size 4) 16
  if s.lru.length ≤ limit then s
  else { s with lru := Host.order (s.entries.toList.map fun e => (e.1, e.2.sequence)) }

/-- Evicts least-recently-used entries until all configured bounds hold. -/
def evict (s : MemoryState V) : MemoryState V := s.evictLoop.compactLru

/-- The marker for the next use: `wrapping_add`, so it cycles. -/
def nextSequence (s : MemoryState V) : ℕ × MemoryState V :=
  let sequence := wrappingAddU64 s.sequence 1
  (sequence, { s with sequence })

/-- Inserts an entry after dropping any previous value for its key. -/
def insert (s : MemoryState V) (key : String) (value : V) (bytes : ℕ) : MemoryState V :=
  let s := s.remove key
  let (sequence, s) := s.nextSequence
  { s with
    retainedBytes := saturatingAddUsize s.retainedBytes bytes
    entries := s.entries.insert key { value, bytes, sequence }
    lru := s.lru ++ [(key, sequence)] : MemoryState V }.evict

/-- Removes all entries rejected by the supplied predicate. -/
def retain (s : MemoryState V) (keep : String → Bool) : MemoryState V :=
  let entries := s.entries.filter fun key _ => keep key
  { s with
    entries
    retainedBytes := entries.toList.foldl (fun total e => saturatingAddUsize total e.2.bytes) 0
    : MemoryState V }.compactLru

/-- Updates the LRU location of an existing entry. -/
def touch (s : MemoryState V) (key : String) : MemoryState V :=
  let (sequence, s) := s.nextSequence
  match s.entries.lookup key with
  | some entry =>
    { s with
      entries := s.entries.insert key { entry with sequence }
      lru := s.lru ++ [(key, sequence)] : MemoryState V }.compactLru
  | none => s.compactLru

/-- Completes an atomic caller-selected access action. -/
def apply {R : Type} (s : MemoryState V) (key : String) : MemoryAction V R → R × MemoryState V
  | .keep result => (result, if (s.entries.lookup key).isSome then s.touch key else s)
  | .remove result => (result, s.remove key)
  | .replace value bytes result => (result, s.insert key value bytes)

/-- Applies one atomic read/update decision. -/
def access {R : Type} (s : MemoryState V) (key : String)
    (action : Option V → MemoryAction V R) : R × MemoryState V :=
  s.apply key (action ((s.entries.lookup key).map StoredValue.value))

/-- Replaces the limits and evicts entries that no longer fit. -/
def setLimits (s : MemoryState V) (limits : MemoryLimits) : MemoryState V :=
  { s with limits }.evict

end Host

end MemoryState

end Vyuh.Cache
