import Vyuh.Cache.MemoryStore

/-! The in-process cache provider (`cache/memory.rs`): expiry, sizes and integers on top of the bounded
    store. An `Instant` is a number of nanoseconds; an operation that needs an expiry reads the clock for
    it before it reads the clock again under the lock. -/

namespace Vyuh.Cache

open Lib

/-- Opaque serialized bytes. -/
abbrev Bytes := List UInt8

/-- Nanoseconds of the monotonic clock. -/
abbrev Instant := ℕ

inductive CacheError
  | invalidProviderName
  | invalidKey
  | invalidTtl
  | valueTooLarge
  | invalidInteger
  | integerOverflow
  | invalidProviderConfig
  deriving DecidableEq, Repr

/-- A cache entry lifetime selected by a typed cache operation. -/
inductive CacheTtl
  | default
  | for (value : Duration)
  | forever
  deriving DecidableEq, Repr

/-- Zero is rejected by the terminal operation. -/
def CacheTtl.validate : CacheTtl → Except CacheError Unit
  | .for 0 => .error .invalidTtl
  | _ => .ok ()

/-- `i64::to_be_bytes`. -/
def toBeBytes (value : Int64) : Bytes :=
  [56, 48, 40, 32, 24, 16, 8, 0].map fun shift => UInt8.ofBitVec ((value.toBitVec >>> shift).setWidth 8)

/-- `i64::from_be_bytes` of an eight-byte slice; other lengths do not convert. -/
def fromBeBytes (bytes : Bytes) : Option Int64 :=
  if bytes.length = 8 then
    some (Int64.ofBitVec (bytes.foldl (fun acc byte => (acc <<< 8) ||| byte.toBitVec.setWidth 64) 0))
  else none

/-- `i64::checked_add`. -/
def checkedAddI64 (a b : Int64) : Option Int64 :=
  if -2 ^ 63 ≤ a.toInt + b.toInt ∧ a.toInt + b.toInt < 2 ^ 63 then some (a + b) else none

structure MemoryCacheLimits where
  maxEntries : ℕ
  maxBytes : ℕ
  maxEntryBytes : ℕ
  defaultTtl : Duration
  deriving DecidableEq, Repr

/-- The limits of a new provider. -/
def MemoryCacheLimits.initial : MemoryCacheLimits where
  maxEntries := 1024
  maxBytes := 16 * 1024 * 1024
  maxEntryBytes := 1024 * 1024
  defaultTtl := Duration.ofSecs 300

/-- Converts provider limits into the shared store's retention limits. -/
def MemoryCacheLimits.storeLimits (limits : MemoryCacheLimits) : MemoryLimits :=
  { maxEntries := limits.maxEntries, maxBytes := some limits.maxBytes }

def MemoryCacheLimits.validate (limits : MemoryCacheLimits) : Except CacheError Unit :=
  if limits.maxEntries > 0 ∧ limits.maxBytes > 0 ∧ limits.maxEntryBytes > 0 ∧
      limits.maxEntryBytes ≤ limits.maxBytes ∧ limits.defaultTtl ≠ 0 then .ok ()
  else .error .invalidProviderConfig

structure MemoryEntry where
  value : Bytes
  expiresAt : Option Instant
  deriving DecidableEq, Repr

/-- Reports whether this value has reached its optional expiry boundary. -/
def MemoryEntry.expired (entry : MemoryEntry) (now : Instant) : Bool :=
  entry.expiresAt.any fun expiry => expiry ≤ now

/-- A bounded LRU cache that lives only inside one built site. -/
structure MemoryCache where
  limits : MemoryCacheLimits
  store : MemoryState MemoryEntry

/-- Produces the entry of an integer in the common cache representation. -/
def replaceInteger (value : Int64) (expiry : Option Instant) :
    MemoryAction MemoryEntry (Except CacheError Int64) :=
  let bytes := toBeBytes value
  .replace { value := bytes, expiresAt := expiry } bytes.length (.ok value)

/-- Produces a replacement entry for a parsed integer value. -/
def incrementEntry (entry : MemoryEntry) (delta : Int64) :
    MemoryAction MemoryEntry (Except CacheError Int64) :=
  match fromBeBytes entry.value with
  | none => .keep (.error .invalidInteger)
  | some value =>
    match checkedAddI64 value delta with
    | none => .keep (.error .integerOverflow)
    | some value => replaceInteger value entry.expiresAt

namespace MemoryCache

/-- The provider one built site gets: the same limits over an empty store. -/
def forSite (limits : MemoryCacheLimits) : MemoryCache :=
  { limits, store := .new limits.storeLimits }

def validateValue (cache : MemoryCache) (value : Bytes) : Except CacheError Unit :=
  if value.length ≤ cache.limits.maxEntryBytes then .ok () else .error .valueTooLarge

/-- The entry stored under a key, expired or not. -/
def held (cache : MemoryCache) (key : String) : Option MemoryEntry :=
  (cache.store.entries.lookup key).map StoredValue.value

theorem held_some {cache : MemoryCache} {key : String} {entry : MemoryEntry} :
    cache.held key = some entry ↔
      ∃ stored, cache.store.entries.lookup key = some stored ∧ stored.value = entry :=
  Option.map_eq_some_iff

section Host

variable [Host]

/-- `Instant::checked_add`. -/
def checkedAdd (now : Instant) (ttl : Duration) : Option Instant :=
  if now + ttl ≤ Host.lastInstant then some (now + ttl) else none

def expiry (cache : MemoryCache) (ttl : CacheTtl) (now : Instant) :
    Except CacheError (Option Instant) := do
  ttl.validate
  match ttl with
  | .default => (checkedAdd now cache.limits.defaultTtl).elim (.error .invalidTtl) (.ok ∘ some)
  | .for value => (checkedAdd now value).elim (.error .invalidTtl) (.ok ∘ some)
  | .forever => .ok none

/-- Runs one access on the store. -/
def access {R : Type} (cache : MemoryCache) (key : String)
    (action : Option MemoryEntry → MemoryAction MemoryEntry R) : R × MemoryCache :=
  let (result, store) := cache.store.access key action
  (result, { cache with store })

/-- Reads a non-expired value. -/
def getValue (cache : MemoryCache) (now : Instant) (key : String) : Option Bytes × MemoryCache :=
  cache.access key fun
    | some entry => if !entry.expired now then .keep (some entry.value) else .remove none
    | none => .keep none

/-- Inserts only when no unexpired entry owns the key. -/
def addValue (cache : MemoryCache) (now : Instant) (key : String) (value : Bytes)
    (expiry : Option Instant) : Bool × MemoryCache :=
  let fresh := .replace { value, expiresAt := expiry } value.length true
  cache.access key fun
    | some entry => if !entry.expired now then .keep false else fresh
    | none => fresh

/-- Updates expiry only when the entry remains valid. -/
def touchValue (cache : MemoryCache) (now : Instant) (key : String) (expiry : Option Instant) :
    Bool × MemoryCache :=
  cache.access key fun
    | some entry =>
      if !entry.expired now then
        .replace { value := entry.value, expiresAt := expiry } entry.value.length true
      else .remove false
    | none => .keep false

/-- Atomically updates the canonical signed-integer representation. -/
def incrementValue (cache : MemoryCache) (now : Instant) (key : String) (delta : Int64)
    (defaultExpiry : Option Instant) : Except CacheError Int64 × MemoryCache :=
  cache.access key fun
    | some entry =>
      if !entry.expired now then incrementEntry entry delta else replaceInteger delta defaultExpiry
    | none => replaceInteger delta defaultExpiry

end Host

end MemoryCache

/-- One request to the provider, or a change of its limits. -/
inductive Op
  | get (key : String)
  | set (key : String) (value : Bytes) (ttl : CacheTtl)
  | add (key : String) (value : Bytes) (ttl : CacheTtl)
  | delete (key : String)
  | touch (key : String) (ttl : CacheTtl)
  | increment (key : String) (delta : Int64)
  | clear (scope : String)
  | retain (keep : String → Bool)
  | maxEntries (value : ℕ)
  | maxBytes (value : ℕ)
  | maxEntryBytes (value : ℕ)
  | defaultTtl (value : Duration)

/-- What a request answers. -/
inductive Reply
  | found (value : Option Bytes)
  | done
  | flag (value : Bool)
  | number (value : Int64)
  | refused (error : CacheError)
  deriving DecidableEq, Repr

/-- A request with the clock as it reads it: for the expiry, and again under the lock. -/
structure Call where
  op : Op
  asked : Instant
  now : Instant

namespace MemoryCache

variable [Host]

def exec (cache : MemoryCache) (call : Call) : Reply × MemoryCache :=
  match call.op with
  | .get key =>
    let (value, cache) := cache.getValue call.now key
    (.found value, cache)
  | .set key value ttl =>
    match (do cache.validateValue value; cache.expiry ttl call.asked) with
    | .error error => (.refused error, cache)
    | .ok expiry =>
      let entry := { value, expiresAt := expiry }
      (.done, { cache with store := cache.store.insert key entry value.length })
  | .add key value ttl =>
    match (do cache.validateValue value; cache.expiry ttl call.asked) with
    | .error error => (.refused error, cache)
    | .ok expiry =>
      let (added, cache) := cache.addValue call.now key value expiry
      (.flag added, cache)
  | .delete key => (.done, { cache with store := cache.store.remove key })
  | .touch key ttl =>
    match cache.expiry ttl call.asked with
    | .error error => (.refused error, cache)
    | .ok expiry =>
      let (touched, cache) := cache.touchValue call.now key expiry
      (.flag touched, cache)
  | .increment key delta =>
    match cache.expiry .default call.asked with
    | .error error => (.refused error, cache)
    | .ok expiry =>
      match cache.incrementValue call.now key delta expiry with
      | (.ok value, cache) => (.number value, cache)
      | (.error error, cache) => (.refused error, cache)
  | .clear scope => (.done, { cache with store := cache.store.retain fun key => !key.startsWith scope })
  | .retain keep => (.done, { cache with store := cache.store.retain keep })
  | .maxEntries value =>
    let limits := { cache.limits with maxEntries := value }
    (.done, { limits, store := cache.store.setLimits limits.storeLimits })
  | .maxBytes value =>
    let limits := { cache.limits with maxBytes := value }
    (.done, { limits, store := cache.store.setLimits limits.storeLimits })
  | .maxEntryBytes value => (.done, { cache with limits.maxEntryBytes := value })
  | .defaultTtl value => (.done, { cache with limits.defaultTtl := value })

end MemoryCache

end Vyuh.Cache
