import Vyuh.Cache.Retention
import Vyuh.Cache.Memory

/-! Runs of the in-process cache. Beside the cache a run keeps what the last successful write left under
    each key (`Site.last`); the cache may forget an entry, but what it holds is what was written last.
    Each operation changes the store in one of six ways (`Changes`), and every invariant is read off
    them. -/

namespace Vyuh.Cache

open Lib

variable {site : Site} {key : String} {cache : MemoryCache} {call : Call} {ttl : CacheTtl}
  {s : MemoryState MemoryEntry}

section Host

variable [Host]

namespace MemoryCache

/-- The expiry a request gives an entry it writes. -/
def expiresAt (cache : MemoryCache) (ttl : CacheTtl) (asked : Instant) : Option Instant :=
  (cache.expiry ttl asked).toOption.join

/-- The entry a request wrote, read off its answer. An increment keeps the expiry of the integer it
    found and gives a new one the default. -/
def written (cache : MemoryCache) (call : Call) : Option (String × MemoryEntry) :=
  match call.op, (cache.exec call).1 with
  | .set key value ttl, .done => some (key, { value, expiresAt := cache.expiresAt ttl call.asked })
  | .add key value ttl, .flag true => some (key, { value, expiresAt := cache.expiresAt ttl call.asked })
  | .touch key ttl, .flag true =>
    (cache.held key).map fun entry => (key, { entry with expiresAt := cache.expiresAt ttl call.asked })
  | .increment key _, .number value =>
    let kept := (cache.held key).filter fun entry => !entry.expired call.now
    let expiresAt := kept.elim (cache.expiresAt .default call.asked) MemoryEntry.expiresAt
    some (key, { value := toBeBytes value, expiresAt })
  | _, _ => none

end MemoryCache

/-- The keys a request takes out whatever they hold. -/
def Op.forgets : Op → String → Bool
  | .delete key, k => k = key
  | .clear scope, k => k.startsWith scope
  | .retain keep, k => !keep k
  | _, _ => false

/-- What one request does to the cache. -/
inductive Changes (cache : MemoryCache) (call : Call) : MemoryCache → Prop
  | same (limits : MemoryCacheLimits) (hlimits : limits.storeLimits = cache.limits.storeLimits)
      (hwritten : cache.written call = none) (hforgets : ∀ key, call.op.forgets key = false) :
      Changes cache call { cache with limits }
  | touch (key : String) (entry : StoredValue MemoryEntry)
      (hentry : cache.store.entries.lookup key = some entry)
      (hwritten : cache.written call = none) (hforgets : ∀ key, call.op.forgets key = false) :
      Changes cache call { cache with store := cache.store.touch key }
  | remove (key : String) (hwritten : cache.written call = none)
      (hforgets : ∀ k, k ≠ key → call.op.forgets k = false) :
      Changes cache call { cache with store := cache.store.remove key }
  | insert (key : String) (entry : MemoryEntry) (hwritten : cache.written call = some (key, entry))
      (hforgets : ∀ key, call.op.forgets key = false) :
      Changes cache call { cache with store := cache.store.insert key entry entry.value.length }
  | retain (keep : String → Bool) (hwritten : cache.written call = none)
      (hforgets : ∀ key, call.op.forgets key = !keep key) :
      Changes cache call { cache with store := cache.store.retain keep }
  | limits (limits : MemoryCacheLimits) (hwritten : cache.written call = none)
      (hforgets : ∀ key, call.op.forgets key = false) :
      Changes cache call { limits, store := cache.store.setLimits limits.storeLimits }

namespace MemoryCache

theorem access_fst {R : Type} (cache : MemoryCache) (key : String)
    (action : Option MemoryEntry → MemoryAction MemoryEntry R) :
    (cache.access key action).1 =
      match action (cache.held key) with
      | .keep result | .remove result | .replace _ _ result => result := by
  rw [access, MemoryState.access, held]
  cases action ((cache.store.entries.lookup key).map StoredValue.value) <;> rfl

/-- An access changes the cache as its caller's action says. -/
theorem changes_of_access {R : Type} {action : Option MemoryEntry → MemoryAction MemoryEntry R}
    (hexec : (cache.exec call).2 = (cache.access key action).2)
    (hforgets : ∀ key, call.op.forgets key = false)
    (hwritten : match action (cache.held key) with
      | .keep _ | .remove _ => cache.written call = none
      | .replace value bytes _ =>
        cache.written call = some (key, value) ∧ bytes = value.value.length) :
    Changes cache call (cache.exec call).2 := by
  rw [hexec, access, MemoryState.access]
  rw [held] at hwritten
  cases hact : action ((cache.store.entries.lookup key).map StoredValue.value) with
  | keep result =>
    rw [hact] at hwritten
    cases hk : cache.store.entries.lookup key with
    | none =>
      simp only [MemoryState.apply, hk]
      exact .same cache.limits rfl hwritten hforgets
    | some entry =>
      simp only [MemoryState.apply, hk]
      exact .touch key entry hk hwritten hforgets
  | remove result =>
    rw [hact] at hwritten
    exact .remove key hwritten fun k _ => hforgets k
  | replace value bytes result =>
    rw [hact] at hwritten
    obtain ⟨hwritten, rfl⟩ := hwritten
    exact .insert key value hwritten hforgets

theorem expiresAt_of_ok {asked : Instant} {expiry : Option Instant}
    (h : cache.expiry ttl asked = .ok expiry) :
    cache.expiresAt ttl asked = expiry := by
  rw [expiresAt, h]
  rfl

theorem checked_ok {value : Bytes} {asked : Instant} {expiry : Option Instant}
    (h : (do cache.validateValue value; cache.expiry ttl asked) = .ok expiry) :
    value.length ≤ cache.limits.maxEntryBytes ∧ cache.expiry ttl asked = .ok expiry := by
  rw [validateValue] at h
  split at h
  next hle => exact ⟨hle, h⟩
  next => exact nomatch h

theorem exec_changes (cache : MemoryCache) (call : Call) : Changes cache call (cache.exec call).2 := by
  obtain ⟨op, asked, now⟩ := call
  cases op with
  | get key =>
    refine changes_of_access (show _ = (cache.getValue now key).2 from rfl) (fun _ => rfl) ?_
    have hnone : cache.written ⟨.get key, asked, now⟩ = none := rfl
    cases cache.held key with
    | none => exact hnone
    | some entry => cases hlive : entry.expired now <;> simp [hnone, hlive]
  | set key value ttl =>
    cases hexp : (do cache.validateValue value; cache.expiry ttl asked) with
    | error error =>
      have hexec : cache.exec ⟨.set key value ttl, asked, now⟩ = (.refused error, cache) := by
        simp only [exec, hexp]
      rw [hexec]
      exact .same cache.limits rfl (by simp only [written, hexec]) fun _ => rfl
    | ok expiry =>
      have hexec : cache.exec ⟨.set key value ttl, asked, now⟩ = (.done,
          { cache with store := cache.store.insert key { value, expiresAt := expiry } value.length }) := by
        simp only [exec, hexp]
      have hwritten : cache.written ⟨.set key value ttl, asked, now⟩ =
          some (key, { value, expiresAt := expiry }) := by
        simp only [written, hexec, expiresAt_of_ok (checked_ok hexp).2]
      rw [hexec]
      exact .insert key { value, expiresAt := expiry } hwritten fun _ => rfl
  | add key value ttl =>
    cases hexp : (do cache.validateValue value; cache.expiry ttl asked) with
    | error error =>
      have hexec : cache.exec ⟨.add key value ttl, asked, now⟩ = (.refused error, cache) := by
        simp only [exec, hexp]
      rw [hexec]
      exact .same cache.limits rfl (by simp only [written, hexec]) fun _ => rfl
    | ok expiry =>
      have hexec : cache.exec ⟨.add key value ttl, asked, now⟩ =
          (.flag (cache.addValue now key value expiry).1, (cache.addValue now key value expiry).2) := by
        simp only [exec, hexp]
      refine changes_of_access (show _ = (cache.addValue now key value expiry).2 by rw [hexec]) (fun _ => rfl) ?_
      simp only [written, hexec, addValue, access_fst]
      have hexpiry := expiresAt_of_ok (checked_ok hexp).2
      cases cache.held key with
      | none => simp [hexpiry]
      | some entry => cases hlive : entry.expired now <;> simp [hexpiry, hlive]
  | delete key => exact .remove key rfl fun k hne => decide_eq_false hne
  | touch key ttl =>
    cases hexp : cache.expiry ttl asked with
    | error error =>
      have hexec : cache.exec ⟨.touch key ttl, asked, now⟩ = (.refused error, cache) := by
        simp only [exec, hexp]
      rw [hexec]
      exact .same cache.limits rfl (by simp only [written, hexec]) fun _ => rfl
    | ok expiry =>
      have hexec : cache.exec ⟨.touch key ttl, asked, now⟩ =
          (.flag (cache.touchValue now key expiry).1, (cache.touchValue now key expiry).2) := by
        simp only [exec, hexp]
      refine changes_of_access (show _ = (cache.touchValue now key expiry).2 by rw [hexec]) (fun _ => rfl) ?_
      simp only [written, hexec, touchValue, access_fst]
      have hexpiry := expiresAt_of_ok hexp
      cases hheld : cache.held key with
      | none => simp
      | some entry => cases hlive : entry.expired now <;> simp [hexpiry, hlive, hheld]
  | increment key delta =>
    cases hexp : cache.expiry .default asked with
    | error error =>
      have hexec : cache.exec ⟨.increment key delta, asked, now⟩ = (.refused error, cache) := by
        simp only [exec, hexp]
      rw [hexec]
      exact .same cache.limits rfl (by simp only [written, hexec]) fun _ => rfl
    | ok expiry =>
      have hreply : (cache.exec ⟨.increment key delta, asked, now⟩).1 =
          match (cache.incrementValue now key delta expiry).1 with
          | .ok value => .number value
          | .error error => .refused error := by
        simp only [exec, hexp]
        rcases cache.incrementValue now key delta expiry with ⟨_ | _, _⟩ <;> rfl
      have hcache : (cache.exec ⟨.increment key delta, asked, now⟩).2 =
          (cache.incrementValue now key delta expiry).2 := by
        simp only [exec, hexp]
        rcases cache.incrementValue now key delta expiry with ⟨_ | _, _⟩ <;> rfl
      refine changes_of_access hcache (fun _ => rfl) ?_
      simp only [written, hreply, incrementValue, access_fst]
      have hexpiry := expiresAt_of_ok hexp
      cases hheld : cache.held key with
      | none => simp [replaceInteger, hexpiry, hheld]
      | some entry =>
        cases hlive : entry.expired now with
        | true => simp [replaceInteger, hlive, hexpiry, hheld, Option.filter]
        | false =>
          cases hread : fromBeBytes entry.value with
          | none => simp [incrementEntry, hlive, hread]
          | some value =>
            cases hsum : checkedAddI64 value delta with
            | none => simp [incrementEntry, hlive, hread, hsum]
            | some sum =>
              simp [incrementEntry, replaceInteger, hlive, hread, hsum, hheld, Option.filter]
  | clear scope => exact .retain _ rfl fun key => by simp [Op.forgets]
  | retain keep => exact .retain keep rfl fun _ => rfl
  | maxEntries value => exact .limits { cache.limits with maxEntries := value } rfl fun _ => rfl
  | maxBytes value => exact .limits { cache.limits with maxBytes := value } rfl fun _ => rfl
  | maxEntryBytes value => exact .same { cache.limits with maxEntryBytes := value } rfl rfl fun _ => rfl
  | defaultTtl value => exact .same { cache.limits with defaultTtl := value } rfl rfl fun _ => rfl

/-- A request that wrote an entry inserted it. -/
theorem exec_written {entry : MemoryEntry} (h : cache.written call = some (key, entry)) :
    (cache.exec call).2 = { cache with store := cache.store.insert key entry entry.value.length } := by
  have hchange := cache.exec_changes call
  generalize (cache.exec call).2 = after at hchange
  cases hchange with
  | insert k new hwritten => cases h.symm.trans hwritten; rfl
  | same _ _ hwritten => exact nomatch h.symm.trans hwritten
  | touch _ _ _ hwritten => exact nomatch h.symm.trans hwritten
  | remove _ hwritten => exact nomatch h.symm.trans hwritten
  | retain _ hwritten => exact nomatch h.symm.trans hwritten
  | limits _ hwritten => exact nomatch h.symm.trans hwritten

/-- A read answers with the held value, unless it has expired. -/
theorem get_reply (cache : MemoryCache) (key : String) (asked now : Instant) :
    (cache.exec ⟨.get key, asked, now⟩).1 =
      .found (((cache.held key).filter fun entry => !entry.expired now).map MemoryEntry.value) := by
  simp only [exec, getValue, access_fst]
  cases cache.held key with
  | none => rfl
  | some entry => cases hlive : entry.expired now <;> simp [Option.filter, hlive]

/-- An expiry lies after the instant it is counted from. -/
theorem expiry_later {asked : Instant} {expiry : Option Instant} (hvalid : cache.limits.validate = .ok ())
    (h : cache.expiry ttl asked = .ok expiry) :
    ∀ t ∈ expiry, asked < t := by
  have hdefault : cache.limits.defaultTtl ≠ 0 := by
    rw [MemoryCacheLimits.validate] at hvalid
    split at hvalid
    next h => exact h.2.2.2.2
    next => exact nomatch hvalid
  have hlater : ∀ ttl : Duration, ttl ≠ 0 →
      (checkedAdd asked ttl).elim (.error .invalidTtl) (.ok ∘ some) = Except.ok (ε := CacheError) expiry →
      ∀ t ∈ expiry, asked < t := by
    intro ttl hne hadd t ht
    rw [checkedAdd] at hadd
    split at hadd
    next =>
      cases hadd
      cases ht
      exact Nat.lt_add_of_pos_right (Nat.pos_of_ne_zero hne)
    next => exact nomatch hadd
  cases ttl with
  | default => exact hlater _ hdefault h
  | «for» value =>
    cases value with
    | zero => exact nomatch h
    | succ n => exact hlater _ n.succ_ne_zero h
  | forever =>
    cases h
    exact fun t ht => nomatch ht

end MemoryCache

/-- A site's cache and what the last successful write left under each key. -/
structure Site where
  cache : MemoryCache
  last : String → Option MemoryEntry

namespace Site

omit [Host] in
/-- A site before its first request. -/
def new (limits : MemoryCacheLimits) : Site := { cache := .forSite limits, last := fun _ => none }

def step (site : Site) (call : Call) : Site where
  cache := (site.cache.exec call).2
  last key :=
    if call.op.forgets key then none
    else match site.cache.written call with
      | some (k, entry) => if key = k then some entry else site.last key
      | none => site.last key

def run (site : Site) (calls : List Call) : Site := calls.foldl step site

/-- No write takes the stored sizes past `usize::MAX`. -/
def Fits : Site → List Call → Prop
  | _, [] => True
  | site, call :: calls =>
    (∀ key entry, site.cache.written call = some (key, entry) →
      (site.cache.store.remove key).stored + entry.value.length ≤ usizeMax) ∧
    (site.step call).Fits calls

/-- What holds of a site whatever is written to it. -/
structure Coherent (site : Site) : Prop where
  sound : site.cache.store.Sound
  limits : site.cache.store.limits = site.cache.limits.storeLimits
  size : site.cache.store.entries.size ≤ site.cache.limits.maxEntries
  last : ∀ key entry, site.cache.held key = some entry → site.last key = some entry

/-- The byte count is exact and bounded. -/
structure Exact (site : Site) : Prop where
  exact : site.cache.store.retainedBytes = site.cache.store.stored
  bytes : site.cache.store.retainedBytes ≤ site.cache.limits.maxBytes
  capped : site.cache.store.retainedBytes ≤ usizeMax

theorem step_last_kept (hforgets : call.op.forgets key = false)
    (hwritten : site.cache.written call = none) :
    (site.step call).last key = site.last key := by
  simp only [step, hforgets, hwritten, Bool.false_eq_true, if_false]

/-- What is held after a request was written by it, or was held before and is still the last write. -/
theorem step_last (h : ∀ key entry, site.cache.held key = some entry → site.last key = some entry) :
    ∀ key entry, (site.step call).cache.held key = some entry →
      (site.step call).last key = some entry := by
  intro key entry hheld
  have hchange := site.cache.exec_changes call
  simp only [step] at hheld
  generalize (site.cache.exec call).2 = after at hchange hheld
  cases hchange with
  | same limits _ hwritten hforgets =>
    rw [step_last_kept (hforgets key) hwritten]
    exact h key entry hheld
  | touch k stored hstored hwritten hforgets =>
    rw [step_last_kept (hforgets key) hwritten]
    exact h key entry ((MemoryState.touch_lookup hstored key).symm.trans hheld)
  | remove k hwritten hforgets =>
    obtain ⟨stored, hstored, rfl⟩ := MemoryCache.held_some.mp hheld
    have hne : key ≠ k := by
      rintro rfl
      rw [MemoryState.remove_entries, AList.lookup_erase] at hstored
      exact nomatch hstored
    rw [step_last_kept (hforgets key hne) hwritten]
    exact h key _ (MemoryCache.held_some.mpr ⟨stored, MemoryState.remove_within _ k key stored hstored, rfl⟩)
  | insert k new hwritten hforgets =>
    obtain ⟨stored, hstored, rfl⟩ := MemoryCache.held_some.mp hheld
    simp only [step, hforgets key, hwritten, Bool.false_eq_true, if_false]
    rcases MemoryState.insert_lookup hstored with ⟨rfl, hvalue⟩ | ⟨hne, hbefore⟩
    · rw [if_pos rfl, hvalue]
    · rw [if_neg hne]
      exact h key _ (MemoryCache.held_some.mpr ⟨stored, hbefore, rfl⟩)
  | retain keep hwritten hforgets =>
    obtain ⟨stored, hstored, rfl⟩ := MemoryCache.held_some.mp hheld
    simp only [MemoryState.retain_lookup, Option.filter_eq_some_iff] at hstored
    rw [step_last_kept (by rw [hforgets key, hstored.2]; rfl) hwritten]
    exact h key _ (MemoryCache.held_some.mpr ⟨stored, hstored.1, rfl⟩)
  | limits limits hwritten hforgets =>
    obtain ⟨stored, hstored, rfl⟩ := MemoryCache.held_some.mp hheld
    rw [step_last_kept (hforgets key) hwritten]
    exact h key _ (MemoryCache.held_some.mpr ⟨stored, MemoryState.setLimits_within _ _ key stored hstored, rfl⟩)

theorem step_coherent (h : site.Coherent) (call : Call) : (site.step call).Coherent := by
  refine ⟨?_, ?_, ?_, step_last h.last⟩
  all_goals
    have hchange := site.cache.exec_changes call
    simp only [step]
    generalize (site.cache.exec call).2 = after at hchange
  · cases hchange with
    | same => exact h.sound
    | touch key entry hentry => exact MemoryState.touch_sound h.sound key hentry
    | remove key => exact h.sound.remove key
    | insert key entry => exact (MemoryState.insert_sound h.sound key entry _).1
    | retain keep => exact MemoryState.retain_sound h.sound keep
    | limits limits => exact (MemoryState.setLimits_sound h.sound _).1
  · cases hchange with
    | same limits hlimits => exact h.limits.trans hlimits.symm
    | touch key entry hentry => exact (MemoryState.touch_frame _ key hentry).2.1.trans h.limits
    | remove key => exact (MemoryState.remove_limits ..).trans h.limits
    | insert key entry => exact (MemoryState.insert_frame ..).2.trans h.limits
    | retain keep => exact (MemoryState.retain_frame ..).2.trans h.limits
    | limits limits => exact (MemoryState.setLimits_frame ..).2
  · cases hchange with
    | same limits hlimits => exact h.size.trans_eq (congrArg MemoryLimits.maxEntries hlimits).symm
    | touch key entry hentry => exact (MemoryState.touch_frame _ key hentry).2.2.2.trans_le h.size
    | remove key => exact (MemoryState.remove_size_le ..).trans h.size
    | insert key entry =>
      have hwithin := (MemoryState.insert_sound h.sound key entry entry.value.length).2
      have hbound := (MemoryState.within_bounds hwithin).1
      rwa [(MemoryState.insert_frame ..).2, h.limits] at hbound
    | retain keep => exact (MemoryState.retain_size_le ..).trans h.size
    | limits limits =>
      have hwithin := (MemoryState.setLimits_sound h.sound limits.storeLimits).2
      have hbound := (MemoryState.within_bounds hwithin).1
      rwa [(MemoryState.setLimits_frame ..).2] at hbound

theorem step_exact (hc : site.Coherent) (h : site.Exact) (call : Call)
    (hfits : ∀ key entry, site.cache.written call = some (key, entry) →
      (site.cache.store.remove key).stored + entry.value.length ≤ usizeMax) :
    (site.step call).Exact := by
  obtain ⟨hexact, hbytes, hcapped⟩ := h
  have hchange := site.cache.exec_changes call
  simp only [step]
  generalize (site.cache.exec call).2 = after at hchange
  cases hchange with
  | same limits hlimits =>
    have hmax : limits.maxBytes = site.cache.limits.maxBytes :=
      Option.some.inj (congrArg MemoryLimits.maxBytes hlimits)
    exact ⟨hexact, hbytes.trans_eq hmax.symm, hcapped⟩
  | touch key entry hentry =>
    have hsame := (MemoryState.touch_frame _ key hentry).2.2.1
    exact ⟨MemoryState.touch_exact hexact key hentry, hsame.trans_le hbytes, hsame.trans_le hcapped⟩
  | remove key =>
    have hle := MemoryState.remove_retained_le site.cache.store key
    exact ⟨MemoryState.remove_exact hexact key, hle.trans hbytes, hle.trans hcapped⟩
  | insert key entry hwritten =>
    have hwithin := (MemoryState.insert_sound hc.sound key entry entry.value.length).2
    refine ⟨MemoryState.insert_exact hexact key entry _ (hfits key entry hwritten), ?_,
      MemoryState.insert_capped ..⟩
    refine (MemoryState.within_bounds hwithin).2 _ ?_
    rw [(MemoryState.insert_frame ..).2, hc.limits]
    rfl
  | retain keep =>
    have hcount := MemoryState.retain_retained site.cache.store keep
    have hle := MemoryState.retain_stored_le site.cache.store keep
    refine ⟨?_, ?_, ?_⟩ <;> dsimp only <;> omega
  | limits limits =>
    have hwithin := (MemoryState.setLimits_sound hc.sound limits.storeLimits).2
    refine ⟨MemoryState.setLimits_exact hexact _, ?_, MemoryState.evict_capped hcapped⟩
    refine (MemoryState.within_bounds hwithin).2 _ ?_
    rw [(MemoryState.setLimits_frame ..).2]
    rfl

theorem step_fresh (h : site.cache.store.Fresh) (hnext : site.cache.store.sequence + 1 < 2 ^ 64)
    (call : Call) :
    (site.step call).cache.store.Fresh ∧
      (site.step call).cache.store.sequence ≤ site.cache.store.sequence + 1 := by
  have hwrap : wrappingAddU64 site.cache.store.sequence 1 = site.cache.store.sequence + 1 :=
    Nat.mod_eq_of_lt hnext
  have hchange := site.cache.exec_changes call
  simp only [step]
  generalize (site.cache.exec call).2 = after at hchange
  cases hchange with
  | same => exact ⟨h, Nat.le_succ _⟩
  | touch key entry hentry =>
    exact ⟨MemoryState.touch_fresh h hnext key hentry,
      ((MemoryState.touch_frame _ key hentry).1.trans hwrap).le⟩
  | remove key => exact ⟨h.remove key, (MemoryState.remove_sequence ..).trans_le (Nat.le_succ _)⟩
  | insert key entry =>
    exact ⟨MemoryState.insert_fresh h hnext key entry _, ((MemoryState.insert_frame ..).1.trans hwrap).le⟩
  | retain keep =>
    exact ⟨MemoryState.retain_fresh h keep, (MemoryState.retain_frame ..).1.trans_le (Nat.le_succ _)⟩
  | limits limits =>
    exact ⟨MemoryState.setLimits_fresh h _, (MemoryState.setLimits_frame ..).1.trans_le (Nat.le_succ _)⟩

/-! ### Runs -/

omit [Host] in
theorem new_coherent (limits : MemoryCacheLimits) : (new limits).Coherent where
  sound := MemoryState.new_sound _
  limits := rfl
  size := Nat.zero_le _
  last _ _ h := nomatch h

theorem run_coherent (h : site.Coherent) (calls : List Call) :
    (site.run calls).Coherent := by
  induction calls generalizing site with
  | nil => exact h
  | cons call calls ih => exact ih (step_coherent h call)

theorem run_exact (hc : site.Coherent) (h : site.Exact) {calls : List Call} (hfits : site.Fits calls) :
    (site.run calls).Exact := by
  induction calls generalizing site with
  | nil => exact h
  | cons call calls ih => exact ih (step_coherent hc call) (step_exact hc h call hfits.1) hfits.2

theorem run_fresh (h : site.cache.store.Fresh) {calls : List Call}
    (hlen : site.cache.store.sequence + calls.length < 2 ^ 64) :
    (site.run calls).cache.store.Fresh ∧
      (site.run calls).cache.store.sequence ≤ site.cache.store.sequence + calls.length := by
  induction calls generalizing site with
  | nil => exact ⟨h, le_rfl⟩
  | cons call calls ih =>
    rw [List.length_cons] at hlen
    obtain ⟨hfresh, hseq⟩ := step_fresh h (by omega) call
    obtain ⟨hfresh', hseq'⟩ := ih hfresh (by omega)
    refine ⟨hfresh', hseq'.trans ?_⟩
    rw [List.length_cons]
    omega

/-- What a request stores within the limits can be read while it has not expired. -/
theorem written_readable (hc : site.Coherent) (hfresh : site.cache.store.Fresh)
    (hnext : site.cache.store.sequence + 1 < 2 ^ 64) (hvalid : site.cache.limits.validate = .ok ())
    {entry : MemoryEntry} (hwritten : site.cache.written call = some (key, entry))
    (hsize : entry.value.length ≤ site.cache.limits.maxEntryBytes) {asked now : Instant}
    (hlive : entry.expired now = false) :
    ((site.step call).cache.exec ⟨.get key, asked, now⟩).1 = .found (some entry.value) := by
  rw [MemoryCacheLimits.validate] at hvalid
  split at hvalid
  next hlimits =>
    obtain ⟨stored, hstored, hvalue⟩ := MemoryState.insert_stored hc.sound hfresh hnext key entry
      entry.value.length (by rw [hc.limits]; exact hlimits.1) (by
        rw [hc.limits]
        rintro limit ⟨⟩
        exact hsize.trans hlimits.2.2.2.1)
    have hheld : (site.step call).cache.held key = some entry := by
      rw [step, MemoryCache.exec_written hwritten]
      exact MemoryCache.held_some.mpr ⟨stored, hstored, hvalue⟩
    rw [MemoryCache.get_reply, hheld]
    simp [Option.filter, hlive]
  next => exact nomatch hvalid

/-- A `set` or `add` that is accepted wrote a value of an accepted size. -/
theorem accepted_written {value : Bytes}
    (h : call.op = .set key value ttl ∧ (cache.exec call).1 = .done ∨ call.op = .add key value ttl ∧
      (cache.exec call).1 = .flag true) :
    cache.written call = some (key, { value, expiresAt := cache.expiresAt ttl call.asked }) ∧
      value.length ≤ cache.limits.maxEntryBytes ∧
      ∃ expiry, cache.expiry ttl call.asked = .ok expiry ∧ cache.expiresAt ttl call.asked = expiry := by
  obtain ⟨op, asked, now⟩ := call
  rcases h with ⟨rfl, hreply⟩ | ⟨rfl, hreply⟩
  all_goals
    refine ⟨by simp only [MemoryCache.written, hreply], ?_⟩
    cases hexp : (do cache.validateValue value; cache.expiry ttl asked) with
    | error error =>
      simp only [MemoryCache.exec, hexp] at hreply
      exact nomatch hreply
    | ok expiry =>
      obtain ⟨hsize, hexpiry⟩ := MemoryCache.checked_ok hexp
      exact ⟨hsize, expiry, hexpiry, MemoryCache.expiresAt_of_ok hexpiry⟩

end Site

/-- CORRECT: in every run of the cache, under any limits and whatever the clock reads, the entry bound
    holds and eviction ends; as long as no write takes the stored sizes past `usize::MAX` the byte count
    is their sum and bounded; before the sequence cycles every entry has one marker of its last use; a
    read answers nothing or the last write of its key, unexpired and not taken out since; and under
    validated limits a value just accepted is read back until it expires. -/
theorem memory_cache_is_coherent (limits : MemoryCacheLimits) (calls : List Call) :
    let site := (Site.new limits).run calls
    let store := site.cache.store
    store.entries.size ≤ site.cache.limits.maxEntries ∧
    ((Site.new limits).Fits calls →
      store.retainedBytes = store.stored ∧ store.retainedBytes ≤ site.cache.limits.maxBytes) ∧
    (calls.length < 2 ^ 64 → store.Marks (· = 1)) ∧
    (WellFounded fun s' s : MemoryState MemoryEntry => s.EvictStep s') ∧
    (∀ key asked now, (site.cache.exec ⟨.get key, asked, now⟩).1 = .found none ∨
      ∃ entry, site.last key = some entry ∧ entry.expired now = false ∧
        (site.cache.exec ⟨.get key, asked, now⟩).1 = .found (some entry.value)) ∧
    ∀ call key value ttl, calls.length + 1 < 2 ^ 64 → site.cache.limits.validate = .ok () →
      (call.op = .set key value ttl ∧ (site.cache.exec call).1 = .done ∨
        call.op = .add key value ttl ∧ (site.cache.exec call).1 = .flag true) →
      (∀ t ∈ site.cache.expiresAt ttl call.asked, call.asked < t) ∧
      ∀ asked now, (∀ t ∈ site.cache.expiresAt ttl call.asked, now < t) →
        ((site.step call).cache.exec ⟨.get key, asked, now⟩).1 = .found (some value) := by
  intro site store
  have hc : site.Coherent := Site.run_coherent (Site.new_coherent limits) calls
  have hfresh : (Site.new limits).cache.store.Fresh := MemoryState.new_fresh _
  have hzero : (Site.new limits).cache.store.sequence = 0 := rfl
  refine ⟨hc.size, ?_, ?_, MemoryState.evictStep_wellFounded, ?_, ?_⟩
  · intro hfits
    have hexact := Site.run_exact (Site.new_coherent limits) ⟨rfl, Nat.zero_le _, Nat.zero_le _⟩ hfits
    exact ⟨hexact.exact, hexact.bytes⟩
  · intro hlen
    exact (Site.run_fresh hfresh (by omega)).1.single
  · intro key asked now
    rw [MemoryCache.get_reply]
    cases hheld : (site.cache.held key).filter fun entry => !entry.expired now with
    | none => exact .inl rfl
    | some entry =>
      obtain ⟨hheld, hlive⟩ := Option.filter_eq_some_iff.mp hheld
      exact .inr ⟨entry, hc.last key entry hheld, by simpa using hlive, rfl⟩
  · intro call key value ttl hlen hvalid haccepted
    obtain ⟨hwritten, hsize, expiry, hexpiry, hexpires⟩ := Site.accepted_written haccepted
    obtain ⟨hfresh', hseq⟩ := Site.run_fresh hfresh (show _ + calls.length < 2 ^ 64 by omega)
    have hnext : site.cache.store.sequence + 1 < 2 ^ 64 := by
      have hbound : site.cache.store.sequence ≤ 0 + calls.length := hseq
      omega
    refine ⟨hexpires ▸ MemoryCache.expiry_later hvalid hexpiry, ?_⟩
    intro asked now hlater
    refine Site.written_readable hc hfresh' hnext hvalid hwritten hsize ?_
    cases hexpires : site.cache.expiresAt ttl call.asked with
    | none => rfl
    | some t => exact decide_eq_false (Nat.not_le.mpr (hlater t hexpires))

/-! ### Where the machine's arithmetic shows -/

/-- Nothing is evicted or compacted while there is room for both. -/
theorem MemoryState.insert_calm {V : Type} {s t : MemoryState V} {value : V} {bytes : ℕ}
    (ht : (s.remove key).use key value bytes (saturatingAddUsize (s.remove key).retainedBytes bytes) = t)
    (hover : t.overLimit = false) (hlru : t.lru.length ≤ 16) : s.insert key value bytes = t := by
  have hloop : t.evictLoop = t := by rw [evictLoop, if_neg (by simp [hover])]
  have hlimit : t.lru.length ≤ saturatingAddUsize (saturatingMulUsize t.entries.size 4) 16 := by
    simp only [saturatingAddUsize, usizeMax]
    omega
  rw [insert_eq, ht, evict, hloop, compactLru, if_pos hlimit]

theorem set_forever (key : String) {value : Bytes} (asked now : Instant)
    (hsize : value.length ≤ cache.limits.maxEntryBytes) :
    cache.exec ⟨.set key value .forever, asked, now⟩ =
      (.done, { cache with store := cache.store.insert key ⟨value, none⟩ value.length }) := by
  have hchecked : (do cache.validateValue value; cache.expiry .forever asked) = .ok none := by
    rw [MemoryCache.validateValue, if_pos hsize]
    rfl
  simp only [MemoryCache.exec, hchecked]

/-- Limits that hold four entries of any size. -/
def roomy : MemoryCacheLimits :=
  { maxEntries := 4, maxBytes := usizeMax, maxEntryBytes := usizeMax, defaultTtl := 1 }

/-- With room left, a new key adds its size and leaves the rest. -/
theorem insert_roomy (hlimits : s.limits = roomy.storeLimits) (hsize : s.entries.size < 4)
    (hlru : s.lru.length < 16) (hkey : s.entries.lookup key = none) (entry : MemoryEntry) (bytes : ℕ) :
    let t := s.insert key entry bytes
    t.limits = roomy.storeLimits ∧ t.entries.size = s.entries.size + 1 ∧
      t.lru.length = s.lru.length + 1 ∧ t.stored = bytes + s.stored ∧
      ∀ k, k ≠ key → t.entries.lookup k = s.entries.lookup k := by
  let used := s.use key entry bytes (saturatingAddUsize s.retainedBytes bytes)
  have hcount : used.entries.size = s.entries.size + 1 := by
    rw [← Dict.erase_of_lookup_none hkey]
    exact Dict.size_insert ..
  have hlength : used.lru.length = s.lru.length + 1 := by simp [used, MemoryState.use]
  have hlimits' : used.limits = roomy.storeLimits := hlimits
  have hbytes : used.retainedBytes ≤ usizeMax := Nat.min_le_right ..
  have hused : s.insert key entry bytes = used := by
    refine MemoryState.insert_calm (by rw [MemoryState.remove_of_none hkey]) ?_ (by omega)
    rw [MemoryState.overLimit, hlimits', hcount, Bool.or_eq_false_iff]
    exact ⟨decide_eq_false (Nat.not_lt.mpr hsize), decide_eq_false (Nat.not_lt.mpr hbytes)⟩
  rw [hused]
  refine ⟨hlimits', hcount, hlength, ?_, fun k hne => ?_⟩
  · rw [MemoryState.use_stored, MemoryState.remove_of_none hkey]
  · rw [MemoryState.use_lookup, if_neg hne]

/-- Three writes whose sizes sum past `usize::MAX`. -/
def overflowing (large : Bytes) : List Call :=
  [⟨.set "a" large .forever, 0, 0⟩, ⟨.set "b" large .forever, 0, 0⟩, ⟨.set "c" [0, 0] .forever, 0, 0⟩]

theorem overflowing_stored {large : Bytes} (hlarge : large.length = 2 ^ 63 - 1) :
    ((Site.new roomy).run (overflowing large)).cache.store.stored = 2 ^ 64 ∧
      ((Site.new roomy).run (overflowing large)).cache.store.retainedBytes ≤ usizeMax := by
  let s₀ : MemoryState MemoryEntry := .new roomy.storeLimits
  let s₁ := s₀.insert "a" ⟨large, none⟩ large.length
  let s₂ := s₁.insert "b" ⟨large, none⟩ large.length
  let s₃ := s₂.insert "c" ⟨[0, 0], none⟩ 2
  have hroom : large.length ≤ roomy.maxEntryBytes := by
    rw [hlarge]
    decide
  have hrun : ((Site.new roomy).run (overflowing large)).cache = { limits := roomy, store := s₃ } := by
    simp only [Site.run, overflowing, List.foldl_cons, List.foldl_nil, Site.step, Site.new,
      MemoryCache.forSite]
    rw [set_forever "a" 0 0 hroom, set_forever "b" 0 0 hroom, set_forever "c" 0 0
      (show _ ≤ roomy.maxEntryBytes by decide)]
    rfl
  obtain ⟨hlimits₁, hsize₁, hlru₁, hstored₁, hkeys₁⟩ :=
    insert_roomy (s := s₀) rfl (by decide) (by decide) rfl ⟨large, none⟩ large.length
  obtain ⟨hlimits₂, hsize₂, hlru₂, hstored₂, hkeys₂⟩ :=
    insert_roomy (s := s₁) hlimits₁ (by rw [hsize₁]; decide) (by rw [hlru₁]; decide)
      (hkeys₁ "b" (by decide)) ⟨large, none⟩ large.length
  obtain ⟨-, -, -, hstored₃, -⟩ :=
    insert_roomy (s := s₂) hlimits₂ (by rw [hsize₂, hsize₁]; decide) (by rw [hlru₂, hlru₁]; decide)
      ((hkeys₂ "c" (by decide)).trans (hkeys₁ "c" (by decide))) ⟨[0, 0], none⟩ 2
  rw [hrun]
  refine ⟨?_, MemoryState.insert_capped ..⟩
  calc s₃.stored = 2 + (large.length + (large.length + 0)) := by
        rw [show s₃.stored = _ from hstored₃, show s₂.stored = _ from hstored₂,
          show s₁.stored = _ from hstored₁]
        rfl
    _ = 2 ^ 64 := by omega

/-- Two keys, then reads of the second until the sequence is about to wrap, then two of the first. -/
def cycling (reads : ℕ) : List Call :=
  [⟨.set "a" [] .forever, 0, 0⟩, ⟨.set "b" [] .forever, 0, 0⟩] ++
    List.replicate reads ⟨.get "b", 0, 0⟩ ++ [⟨.get "a", 0, 0⟩, ⟨.get "a", 0, 0⟩]

/-- The store after `n` reads of the second key: the first still carries its first sequence, and the
    markers grow to 24 before they are made afresh. -/
structure Reading (n : ℕ) (s : MemoryState MemoryEntry) : Prop where
  first : ∃ e, s.entries.lookup "a" = some e ∧ e.sequence = 1 ∧ e.value = ⟨[], none⟩
  second : ∃ e, s.entries.lookup "b" = some e ∧ e.value = ⟨[], none⟩
  size : s.entries.size = 2
  sequence : s.sequence = n + 2
  marker : ("a", 1) ∈ s.lru
  markers : s.lru.length = 2 + n % 23

theorem step_get {entry : StoredValue MemoryEntry} (h : site.cache.store.entries.lookup key = some entry)
    (hvalue : entry.value = ⟨[], none⟩) :
    (site.step ⟨.get key, 0, 0⟩).cache.store = site.cache.store.touch key := by
  simp [Site.step, MemoryCache.exec, MemoryCache.getValue, MemoryCache.access, MemoryState.access,
    MemoryState.apply, h, hvalue, MemoryEntry.expired]

theorem Reading.step {n : ℕ} (h : Reading n s) (hn : n + 3 < 2 ^ 64) : Reading (n + 1) (s.touch "b") := by
  obtain ⟨a, ha, haseq, havalue⟩ := h.first
  obtain ⟨b, hb, hbvalue⟩ := h.second
  obtain ⟨hsequence, -, -, hsize⟩ := MemoryState.touch_frame s "b" hb
  have hseq : wrappingAddU64 s.sequence 1 = n + 3 := by
    rw [h.sequence]
    exact Nat.mod_eq_of_lt hn
  let used := s.use "b" b.value b.bytes s.retainedBytes
  have htouch : s.touch "b" = used.compactLru := MemoryState.touch_eq hb
  have hfirst : used.entries.lookup "a" = some a := by
    rw [MemoryState.use_lookup, if_neg (by decide)]
    exact ha
  have hsecond : used.entries.lookup "b" = some ⟨b.value, b.bytes, wrappingAddU64 s.sequence 1⟩ := by
    rw [MemoryState.use_lookup, if_pos rfl]
  have hcount : used.entries.size = 2 := by
    rw [← h.size, ← hsize, htouch, MemoryState.compactLru_entries]
  have hlength : used.lru.length = 3 + n % 23 := by
    simp only [used, MemoryState.use, List.length_append, List.length_singleton, h.markers]
    omega
  refine ⟨⟨a, ?_, haseq, havalue⟩, ⟨⟨b.value, b.bytes, wrappingAddU64 s.sequence 1⟩, ?_, hbvalue⟩,
    hsize.trans h.size, ?_, ?_, ?_⟩
  · rw [htouch, MemoryState.compactLru_entries]
    exact hfirst
  · rw [htouch, MemoryState.compactLru_entries]
    exact hsecond
  · rw [hsequence, hseq]
  all_goals
    rw [htouch, MemoryState.compactLru, hcount, hlength]
    by_cases hroom : 3 + n % 23 ≤ saturatingAddUsize (saturatingMulUsize 2 4) 16
  · rw [if_pos hroom]
    exact List.mem_append_left _ h.marker
  · rw [if_neg hroom]
    refine (Host.order_perm _).mem_iff.mpr (List.mem_map.mpr ⟨("a", a), ?_, by rw [haseq]⟩)
    exact Dict.mem_toList.mpr hfirst
  · have hle : 3 + n % 23 ≤ 24 := hroom
    rw [if_pos hroom, hlength]
    omega
  · have hlt : ¬ 3 + n % 23 ≤ 24 := hroom
    rw [if_neg hroom, (Host.order_perm _).length_eq, List.length_map, Dict.toList, List.length_map,
      show used.entries.entries.length = 2 from hcount]
    omega

theorem Reading.run {n : ℕ} (h : Reading n site.cache.store) : ∀ k : ℕ,
    n + k + 2 < 2 ^ 64 →
    Reading (n + k) (site.run (List.replicate k ⟨.get "b", 0, 0⟩)).cache.store := by
  intro k hk
  induction k generalizing n site with
  | zero => exact h
  | succ k ih =>
    obtain ⟨b, hb, hbvalue⟩ := h.second
    have hstep : Reading (n + 1) (site.step ⟨.get "b", 0, 0⟩).cache.store := by
      rw [step_get hb hbvalue]
      exact h.step (by omega)
    rw [List.replicate_succ, show n + (k + 1) = n + 1 + k by omega]
    exact ih hstep (by omega)

theorem touch_calm {entry : StoredValue MemoryEntry} (h : s.entries.lookup key = some entry)
    (hlru : s.lru.length < 16) :
    s.touch key = s.use key entry.value entry.bytes s.retainedBytes := by
  rw [MemoryState.touch_eq h, MemoryState.compactLru, if_pos]
  simp only [MemoryState.use, List.length_append, List.length_singleton, saturatingAddUsize, usizeMax]
  omega

/-- Once the sequence has cycled, a stale marker can equal the current one. -/
theorem Reading.cycled (h : Reading (2 ^ 64 - 3) s) :
    ¬ ((s.touch "a").touch "a").Marks (· = 1) := by
  obtain ⟨a, ha, haseq, havalue⟩ := h.first
  have hlru : s.lru.length = 5 := h.markers
  let s₁ := s.use "a" a.value a.bytes s.retainedBytes
  have hs₁ : s.touch "a" = s₁ := touch_calm ha (by omega)
  let a₁ : StoredValue MemoryEntry := ⟨a.value, a.bytes, wrappingAddU64 s.sequence 1⟩
  have ha₁ : s₁.entries.lookup "a" = some a₁ := by rw [MemoryState.use_lookup, if_pos rfl]
  have hseq₁ : s₁.sequence = 0 := by
    simp only [s₁, MemoryState.use, h.sequence]
    decide
  have hlru₁ : s₁.lru.length = 6 := by simp [s₁, MemoryState.use, hlru]
  let s₂ := s₁.use "a" a₁.value a₁.bytes s₁.retainedBytes
  have hs₂ : s₁.touch "a" = s₂ := touch_calm ha₁ (by omega)
  have hnext : wrappingAddU64 s₁.sequence 1 = 1 := by rw [hseq₁]; decide
  have hlast : s₂.lru = s₁.lru ++ [("a", 1)] := by simp only [s₂, MemoryState.use, hnext]
  have ha₂ : s₂.entries.lookup "a" = some ⟨a₁.value, a₁.bytes, 1⟩ := by
    rw [MemoryState.use_lookup, if_pos rfl, hnext]
  rw [hs₁, hs₂]
  intro hone
  have hcount : s₂.lru.count ("a", 1) = 1 := hone "a" _ ha₂
  have hmem : ("a", 1) ∈ s₁.lru := List.mem_append_left _ h.marker
  have hpos := List.count_pos_iff.mpr hmem
  rw [hlast, List.count_append, List.count_singleton_self] at hcount
  omega

theorem cycling_marks : ¬ ((Site.new roomy).run (cycling (2 ^ 64 - 3))).cache.store.Marks (· = 1) := by
  let s₀ : MemoryState MemoryEntry := .new roomy.storeLimits
  let s₁ := s₀.use "a" ⟨[], none⟩ 0 0
  let s₂ := s₁.use "b" ⟨[], none⟩ 0 0
  have h₁ : s₀.insert "a" ⟨[], none⟩ 0 = s₁ := MemoryState.insert_calm rfl (by decide) (by decide)
  have h₂ : s₁.insert "b" ⟨[], none⟩ 0 = s₂ := MemoryState.insert_calm rfl (by decide) (by decide)
  let calls : List Call := [⟨.set "a" [] .forever, 0, 0⟩, ⟨.set "b" [] .forever, 0, 0⟩]
  let site := (Site.new roomy).run calls
  have hsite : site.cache = { limits := roomy, store := s₂ } := by
    simp only [site, calls, Site.run, List.foldl_cons, List.foldl_nil, Site.step, Site.new,
      MemoryCache.forSite]
    rw [set_forever "a" 0 0 (show _ ≤ roomy.maxEntryBytes by decide),
      set_forever "b" 0 0 (show _ ≤ roomy.maxEntryBytes by decide)]
    simp only [List.length_nil]
    rw [h₁, h₂]
  have hreading : Reading 0 site.cache.store := by
    rw [hsite]
    exact ⟨⟨⟨⟨[], none⟩, 0, 1⟩, rfl, rfl, rfl⟩, ⟨⟨⟨[], none⟩, 0, 2⟩, rfl, rfl⟩, rfl, rfl, by decide, rfl⟩
  have hread := hreading.run (2 ^ 64 - 3) (by decide)
  rw [Nat.zero_add] at hread
  have hrun : (Site.new roomy).run (cycling (2 ^ 64 - 3)) =
      ((site.run (List.replicate (2 ^ 64 - 3) ⟨.get "b", 0, 0⟩)).step ⟨.get "a", 0, 0⟩).step
        ⟨.get "a", 0, 0⟩ := by
    simp only [cycling, Site.run, List.foldl_append, List.foldl_cons, List.foldl_nil, site, calls]
  generalize site.run (List.replicate (2 ^ 64 - 3) ⟨.get "b", 0, 0⟩) = before at hread hrun
  obtain ⟨a, ha, -, havalue⟩ := hread.first
  have hstep := step_get ha havalue
  have hkept : ((before.step ⟨.get "a", 0, 0⟩).cache.store.entries.lookup "a").map StoredValue.value =
      some ⟨[], none⟩ := by
    rw [hstep, MemoryState.touch_lookup ha, ha, Option.map_some, havalue]
  obtain ⟨a₁, ha₁, ha₁value⟩ := Option.map_eq_some_iff.mp hkept
  rw [hrun, step_get ha₁ ha₁value, hstep]
  exact hread.cycled

end Host

/-- A platform whose maps iterate in the order of the entries. -/
@[reducible] def listed : Host where
  lastInstant := 2 ^ 64
  order := id
  order_perm := List.Perm.refl

/-! ### Replacement and eviction -/

/-- Room for two entries. -/
def twoEntries : MemoryCacheLimits := { MemoryCacheLimits.initial with maxEntries := 2 }

/-- A first entry is replaced, and a third evicts the second, which was used least recently. -/
def replacing : List Call :=
  [⟨.set "a" [1] .default, 0, 0⟩, ⟨.set "b" [2, 2] .default, 1, 1⟩, ⟨.set "a" [3] .default, 2, 2⟩,
    ⟨.set "c" [4] .default, 3, 3⟩]

attribute [local instance] listed in
theorem replacing_fits : (Site.new twoEntries).Fits replacing := by
  refine ⟨?_, ?_, ?_, ?_, trivial⟩
  all_goals
    intro key entry hwritten
    obtain ⟨rfl, rfl⟩ := Prod.mk.inj (Option.some.inj hwritten)
    decide +kernel

attribute [local instance] listed in
theorem memory_cache_is_coherent_replacing :
    let site := (Site.new twoEntries).run replacing
    site.cache.store.entries.size ≤ 2 ∧ site.cache.store.retainedBytes = site.cache.store.stored ∧
    site.cache.store.Marks (· = 1) ∧ (site.cache.exec ⟨.get "b", 4, 4⟩).1 = .found none ∧
    (∃ entry, site.last "a" = some entry ∧ (site.cache.exec ⟨.get "a", 4, 4⟩).1 = .found (some entry.value)) ∧
    ((site.step ⟨.set "d" [5] .default, 5, 5⟩).cache.exec ⟨.get "d", 6, 6⟩).1 = .found (some [5]) := by
  intro site
  obtain ⟨hsize, hexact, hmarks, -, hread, hwrite⟩ := memory_cache_is_coherent twoEntries replacing
  have hevicted : (site.cache.exec ⟨.get "b", 4, 4⟩).1 = .found none := by decide +kernel
  have hkept : (site.cache.exec ⟨.get "a", 4, 4⟩).1 ≠ .found none := by decide +kernel
  obtain ⟨entry, hlast, -, hfound⟩ := (hread "a" 4 4).resolve_left hkept
  have hdone : (site.cache.exec ⟨.set "d" [5] .default, 5, 5⟩).1 = .done := by decide +kernel
  have hnext := hwrite ⟨.set "d" [5] .default, 5, 5⟩ "d" [5] .default (by decide) rfl (.inl ⟨rfl, hdone⟩)
  refine ⟨hsize, (hexact replacing_fits).1, hmarks (by decide), hevicted, ⟨entry, hlast, hfound⟩,
    hnext.2 6 6 ?_⟩
  rintro t ⟨⟩
  decide

attribute [local instance] listed in
/-- Sizes that sum past `usize::MAX` are not counted exactly, and a sequence that has cycled marks an
    entry twice. -/
theorem machine_arithmetic_shows :
    roomy.validate = .ok () ∧
    (let store := ((Site.new roomy).run (overflowing (List.replicate (2 ^ 63 - 1) 0))).cache.store
     store.retainedBytes ≠ store.stored) ∧
    ¬ ((Site.new roomy).run (cycling (2 ^ 64 - 3))).cache.store.Marks (· = 1) := by
  refine ⟨rfl, ?_, cycling_marks⟩
  obtain ⟨hstored, hcapped⟩ := overflowing_stored (List.length_replicate ..)
  intro store heq
  have hmax : usizeMax < 2 ^ 64 := by decide
  rw [← hstored] at hmax
  exact absurd (heq ▸ hmax) (Nat.not_lt.mpr hcapped)

end Vyuh.Cache
