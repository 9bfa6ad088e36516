import Mathlib
import Vyuh.Lib.Run
import Vyuh.Tasks.Runner.Lanes

/-! The flow cache of a lane over every sequence of operations on it. `Accounted` says what its byte
    count promises; `Dict.Stamped` over `lastUse` says that the entries stand in the order they were
    last remembered, so that the loop of `remember_flow`, which takes the front, evicts the least
    recently used entries. Reading the whole cache for a flush uses every entry alike and moves none. -/

namespace Vyuh.Tasks
open Lib

variable {lane lane' : LaneState}

section
variable [RecordLayout]

/-- Cached bytes are counted exactly and within the budget; every entry is a flow that can go on. -/
structure Accounted (lane : LaneState) : Prop where
  bytes : lane.cachedBytes = lane.flowCache.weigh flowBytes
  bound : lane.cachedBytes ≤ lane.conf.cacheBytes
  flows : ∀ e ∈ lane.flowCache.toList,
    e.2.record.id = e.1 ∧ e.2.record.kind = .flow ∧ e.2.record.status.terminal = false

/-- One operation on the cache of a lane. -/
inductive CacheOp where
  | remember (snapshot : Snapshot)
  | forget (id : TaskId)
  | cancel (ids : List TaskId)
  | own (name : TaskLane) (owner : LaneOwnerPoll) (now : Instant) (lease : Duration)
      (effects : PollEffects)
  | discard

def CacheOp.apply : CacheOp → LaneState → LaneState
  | .remember snapshot, lane => lane.rememberFlow snapshot
  | .forget id, lane => lane.forgetFlow id
  | .cancel ids, lane => lane.cancelQueued ids
  | .own name owner now lease effects, lane => (lane.applyOwnerPoll name owner now lease effects).1
  | .discard, lane => lane.discard

/-- The snapshots a lane caches and the one it is given are alive together, each on allocations of
    its own, so their sizes add up within the address space. -/
def CacheOp.Alive : CacheOp → LaneState → Prop
  | .remember snapshot, lane =>
    (lane.forgetFlow snapshot.record.id).flowCache.weigh flowBytes + flowBytes snapshot ≤ usizeMax
  | _, _ => True

/-- One operation on a lane. -/
def CacheStep (lane : LaneState) (op : CacheOp) (lane' : LaneState) : Prop :=
  op.Alive lane ∧ lane' = op.apply lane

/-- Whether an operation is a use of one flow. -/
def CacheOp.uses (id : TaskId) : CacheOp → Bool
  | .remember snapshot => snapshot.record.id = id
  | _ => false

/-- How many operations there were up to the last use of a flow. -/
def lastUse (ops : List CacheOp) (id : TaskId) : ℕ :=
  (ops.rdropWhile fun op => !op.uses id).length

/-! ### Forgetting -/

namespace Accounted

variable {lane lane' : LaneState}

/-- A lane that kept only some entries, and counted them, is accounted. -/
theorem shrink (h : Accounted lane) (hconf : lane'.conf = lane.conf)
    (hbytes : lane'.cachedBytes = lane'.flowCache.weigh flowBytes)
    (hle : lane'.cachedBytes ≤ lane.cachedBytes)
    (hsub : ∀ e ∈ lane'.flowCache.toList, e ∈ lane.flowCache.toList) : Accounted lane' :=
  ⟨hbytes, hconf ▸ hle.trans h.bound, fun e he => h.flows e (hsub e he)⟩

theorem cleared (hcache : lane.flowCache = ∅) (hbytes : lane.cachedBytes = 0) : Accounted lane := by
  refine ⟨by simp [hcache, hbytes], by omega, fun e he => ?_⟩
  rw [hcache] at he
  exact (nomatch he)

/-- An accounted lane forgets an entry with exactly its bytes. -/
theorem forgetFlow_eq (h : Accounted lane) (id : TaskId) :
    lane.forgetFlow id = { lane with
      flowCache := lane.flowCache.erase id
      cachedBytes := (Dict.weigh flowBytes (lane.flowCache.erase id)) } := by
  unfold LaneState.forgetFlow
  split
  · next old hold =>
    have hweigh := Dict.weigh_erase flowBytes hold
    rw [h.bytes, ← hweigh, Nat.add_sub_cancel_left]
  · next hnone => rw [Dict.erase_of_lookup_none hnone, ← h.bytes]

theorem forget (h : Accounted lane) (id : TaskId) : Accounted (lane.forgetFlow id) := by
  have hsub := Dict.erase_toList_sublist lane.flowCache id
  rw [h.forgetFlow_eq id]
  refine h.shrink rfl rfl ?_ fun e he => hsub.subset he
  rw [h.bytes]
  cases hold : lane.flowCache.lookup id with
  | none => simp [Dict.erase_of_lookup_none hold]
  | some old =>
    have hweigh := Dict.weigh_erase flowBytes hold
    simp only
    omega

end Accounted

/-! ### Making room -/

theorem evictFlow_some {size : ℕ} (h : lane.evictFlow size = some lane') :
    ∃ e rest, lane.flowCache.popFront = some (e, rest) ∧
      lane' = { lane with flowCache := rest, cachedBytes := lane.cachedBytes - flowBytes e.2 } := by
  unfold LaneState.evictFlow at h
  split at h
  · exact (nomatch h)
  · split at h
    · exact (nomatch h)
    · next id old rest hpop =>
      exact ⟨(id, old), rest, hpop, (Option.some.inj h).symm⟩

/-- The loop stops with room, or with nothing left to evict. -/
theorem evictFlow_none {size : ℕ} (h : lane.evictFlow size = none) :
    saturatingAddUsize lane.cachedBytes size ≤ lane.conf.cacheBytes ∨ lane.flowCache = ∅ := by
  unfold LaneState.evictFlow at h
  split at h
  · next hroom => exact .inl hroom
  · split at h
    · next hpop => exact .inr (Dict.popFront_eq_none hpop)
    · exact (nomatch h)

/-- The eviction loop ends from every state, after at most one pass for each entry. -/
theorem makeRoom_loop (size : ℕ) (lane : LaneState) :
    ∃ n, n ≤ lane.flowCache.size ∧ Loop (LaneState.evictFlow size) lane n (lane.makeRoom size) := by
  have hfall : ∀ s s' : LaneState, s.evictFlow size = some s' → s'.flowCache.size < s.flowCache.size := by
    intro s s' hpass
    obtain ⟨e, rest, hpop, rfl⟩ := evictFlow_some hpass
    have hsize := Dict.size_of_popFront hpop
    simp only
    omega
  exact Loop.ends (μ := fun s => s.flowCache.size) hfall lane.flowCache.size lane (Nat.le_refl _)

/-- The loop takes one entry a pass from the front, and keeps the account. -/
theorem Accounted.loop {size n : ℕ} (h : Accounted lane)
    (hloop : Loop (LaneState.evictFlow size) lane n lane') :
    ∃ evicted, evicted.length = n ∧ lane.flowCache.toList = evicted ++ lane'.flowCache.toList ∧
      lane' = { lane with flowCache := lane'.flowCache, cachedBytes := lane'.cachedBytes } ∧
      lane'.cachedBytes ≤ lane.cachedBytes ∧ Accounted lane' := by
  induction hloop with
  | stop _ => exact ⟨[], rfl, rfl, rfl, Nat.le_refl _, h⟩
  | @pass lane mid lane' n hpass _ ih =>
    obtain ⟨e, rest, hpop, rfl⟩ := evictFlow_some hpass
    have hlist := Dict.toList_of_popFront hpop
    have hweigh := Dict.weigh_of_popFront flowBytes hpop
    have hmid : Accounted
        { lane with flowCache := rest, cachedBytes := lane.cachedBytes - flowBytes e.2 } := by
      refine h.shrink rfl ?_ (Nat.sub_le _ _) fun e' he => ?_
      · show lane.cachedBytes - flowBytes e.2 = rest.weigh flowBytes
        rw [h.bytes, hweigh, Nat.add_sub_cancel_left]
      · rw [hlist]
        exact List.mem_cons_of_mem _ he
    obtain ⟨evicted, hlen, hcache, hframe, hle, hacc⟩ := ih hmid
    refine ⟨e :: evicted, by rw [List.length_cons, hlen], ?_, hframe, ?_, hacc⟩
    · rw [hlist, List.cons_append, ← hcache]
    · exact hle.trans (Nat.sub_le _ _)

/-- After the loop a snapshot within the budget fits beside what is left. -/
theorem Accounted.room {size n : ℕ} (h : Accounted lane) (hsize : size ≤ lane.conf.cacheBytes)
    (halive : lane.flowCache.weigh flowBytes + size ≤ usizeMax)
    (hloop : Loop (LaneState.evictFlow size) lane n lane') :
    lane'.cachedBytes + size ≤ lane'.conf.cacheBytes := by
  obtain ⟨evicted, -, -, hframe, hle, hacc⟩ := h.loop hloop
  have hconf : lane'.conf = lane.conf := by rw [hframe]
  have hstop := (hloop.inv (I := fun _ => True) (fun _ _ _ _ => trivial) trivial).2
  rcases evictFlow_none hstop with hroom | hempty
  · have hbytes := h.bytes
    rw [saturatingAddUsize, Nat.min_eq_left (by omega)] at hroom
    exact hroom
  · have hzero : lane'.cachedBytes = 0 := by rw [hacc.bytes, hempty, Dict.weigh_empty]
    rw [hzero, hconf]
    omega

/-! ### Remembering -/

theorem cacheable_iff {conf : LaneConf} {snapshot : Snapshot} :
    LaneState.cacheable conf snapshot = true ↔ snapshot.record.kind = .flow ∧
      snapshot.record.status.terminal = false ∧ flowBytes snapshot ≤ conf.cacheBytes := by
  simp [LaneState.cacheable, and_assoc]

/-- A snapshot that fits and is not cached yet keeps the account. -/
theorem Accounted.insert (h : Accounted lane) {snapshot : Snapshot}
    (hc : LaneState.cacheable lane.conf snapshot = true)
    (hnew : lane.flowCache.lookup snapshot.record.id = none)
    (hroom : lane.cachedBytes + flowBytes snapshot ≤ lane.conf.cacheBytes) :
    Accounted (lane.insertFlow snapshot) := by
  obtain ⟨hkind, hlive, -⟩ := cacheable_iff.mp hc
  refine ⟨?_, hroom, fun e he => ?_⟩
  · show lane.cachedBytes + flowBytes snapshot = (lane.flowCache.pushBack _ snapshot).weigh flowBytes
    rw [Dict.weigh_pushBack, Dict.erase_of_lookup_none hnew, h.bytes]
  · replace he : e ∈ (lane.flowCache.pushBack snapshot.record.id snapshot).toList := he
    rw [Dict.toList_pushBack, Dict.erase_of_lookup_none hnew, List.mem_append,
      List.mem_singleton] at he
    rcases he with he | rfl
    · exact h.flows e he
    · exact ⟨rfl, hkind, hlive⟩

/-- A forgotten flow is not in the cache, and no eviction brings it back. -/
theorem Accounted.absent {size n : ℕ} (h : Accounted lane) {id : TaskId}
    (hloop : Loop (LaneState.evictFlow size) (lane.forgetFlow id) n lane') :
    lane'.flowCache.lookup id = none := by
  obtain ⟨evicted, -, hcache, -, -, -⟩ := (h.forget id).loop hloop
  cases hlook : lane'.flowCache.lookup id with
  | none => rfl
  | some old =>
    have hmem : (id, old) ∈ (lane.forgetFlow id).flowCache.toList := by
      rw [hcache]
      exact List.mem_append_right _ (Dict.mem_toList.mpr hlook)
    rw [h.forgetFlow_eq] at hmem
    exact absurd rfl (Dict.mem_toList_erase.mp hmem).1

theorem Accounted.remember (h : Accounted lane) {snapshot : Snapshot}
    (halive : (CacheOp.remember snapshot).Alive lane) : Accounted (lane.rememberFlow snapshot) := by
  have hforget := h.forget snapshot.record.id
  simp only [LaneState.rememberFlow]
  split
  · exact hforget
  · next hc =>
    replace hc : LaneState.cacheable (lane.forgetFlow snapshot.record.id).conf snapshot = true := by
      simpa using hc
    obtain ⟨n, -, hloop⟩ := makeRoom_loop (flowBytes snapshot) (lane.forgetFlow snapshot.record.id)
    obtain ⟨evicted, -, -, hframe, -, hacc⟩ := hforget.loop hloop
    have hroom := hforget.room (cacheable_iff.mp hc).2.2 halive hloop
    refine hacc.insert ?_ (h.absent hloop) hroom
    rw [hframe]
    exact hc

/-! ### Every operation -/

theorem Accounted.forgetAll (h : Accounted lane) (ids : List TaskId) :
    Accounted (ids.foldl (fun lane id => lane.forgetFlow id) lane) := by
  induction ids generalizing lane with
  | nil => exact h
  | cons id ids ih => exact ih (h.forget id)

theorem Accounted.cancel (h : Accounted lane) (ids : List TaskId) :
    Accounted (lane.cancelQueued ids) := by
  have hqueue : Accounted
      { lane with tasks := lane.tasks.filter fun s => !decide (s.record.id ∈ ids) } :=
    h.shrink rfl h.bytes (Nat.le_refl _) fun _ he => he
  exact hqueue.forgetAll ids

theorem Accounted.apply {lane : LaneState} (h : Accounted lane) :
    ∀ op : CacheOp, op.Alive lane → Accounted (op.apply lane)
  | .remember _, halive => h.remember halive
  | .forget id, _ => h.forget id
  | .cancel ids, _ => h.cancel ids
  | .discard, _ => .cleared rfl rfl
  | .own name owner now lease effects, _ => by
    show Accounted (lane.applyOwnerPoll name owner now lease effects).1
    by_cases hsame : lane.ownerToken = owner.token
    · refine h.shrink ?_ ?_ ?_ ?_ <;> simp [LaneState.applyOwnerPoll, hsame, h.bytes]
    · refine .cleared ?_ ?_ <;> simp [LaneState.applyOwnerPoll, hsame]

/-! ### Recency -/

omit [RecordLayout] in
theorem lastUse_concat (ops : List CacheOp) (op : CacheOp) (id : TaskId) :
    lastUse (ops ++ [op]) id = if op.uses id then ops.length + 1 else lastUse ops id := by
  simp only [lastUse, List.rdropWhile_concat]
  by_cases h : op.uses id
  · simp [h]
  · simp [h]

omit [RecordLayout] in
theorem lastUse_remember (ops : List CacheOp) (snapshot : Snapshot) :
    lastUse (ops ++ [.remember snapshot]) =
      Function.update (lastUse ops) snapshot.record.id (ops.length + 1) := by
  funext id
  rw [lastUse_concat, Function.update_apply]
  simp [CacheOp.uses, eq_comm]

/-- The entries of a lane stand in the order of their last use. -/
def Recent (ops : List CacheOp) (lane : LaneState) : Prop :=
  lane.flowCache.Stamped (lastUse ops) ops.length

theorem forgetFlow_cache (lane : LaneState) (id : TaskId) :
    (lane.forgetFlow id).flowCache = lane.flowCache.erase id := by
  unfold LaneState.forgetFlow
  split
  · rfl
  · next hnone => exact (Dict.erase_of_lookup_none hnone).symm

namespace Recent

variable {ops : List CacheOp} {lane lane' : LaneState}

theorem forget (h : Recent ops lane) (id : TaskId) : Recent ops (lane.forgetFlow id) := by
  rw [Recent, forgetFlow_cache]
  exact h.erase id

theorem forgetAll (h : Recent ops lane) (ids : List TaskId) :
    Recent ops (ids.foldl (fun lane id => lane.forgetFlow id) lane) := by
  induction ids generalizing lane with
  | nil => exact h
  | cons id ids ih => exact ih (h.forget id)

theorem cancel (h : Recent ops lane) (ids : List TaskId) : Recent ops (lane.cancelQueued ids) := by
  have hqueue : Recent ops
      { lane with tasks := lane.tasks.filter fun s => !decide (s.record.id ∈ ids) } := h
  exact hqueue.forgetAll ids

theorem loop {size n : ℕ} (h : Recent ops lane) (hloop : Loop (LaneState.evictFlow size) lane n lane') :
    Recent ops lane' := by
  refine (hloop.inv (I := Recent ops) (fun s s' hs hpass => ?_) h).1
  obtain ⟨e, rest, hpop, rfl⟩ := evictFlow_some hpass
  exact (Dict.Stamped.popFront hs hpop).1

omit [RecordLayout] in
/-- An operation that is no use leaves the last uses as they were. -/
theorem unused (h : Recent ops lane) {op : CacheOp} (hop : ∀ id, op.uses id = false) :
    Recent (ops ++ [op]) lane := by
  refine Dict.Stamped.congr h (by simp) fun e _ => ?_
  rw [lastUse_concat, hop, if_neg (by simp)]

/-- Remembering a flow makes it the most recent one. -/
theorem remember (h : Recent ops lane) (snapshot : Snapshot) :
    Recent (ops ++ [.remember snapshot]) (lane.rememberFlow snapshot) := by
  have hforget := h.forget snapshot.record.id
  rw [Recent, lastUse_remember, List.length_append, List.length_singleton]
  simp only [LaneState.rememberFlow]
  split
  · refine Dict.Stamped.congr hforget (Nat.le_succ _) fun e he => Function.update_of_ne ?_ ..
    rw [forgetFlow_cache] at he
    exact (Dict.mem_toList_erase.mp he).1
  · obtain ⟨n, -, hloop⟩ := makeRoom_loop (flowBytes snapshot) (lane.forgetFlow snapshot.record.id)
    exact Dict.Stamped.pushBack (hforget.loop hloop) snapshot.record.id snapshot

theorem apply (h : Recent ops lane) : ∀ op : CacheOp, Recent (ops ++ [op]) (op.apply lane)
  | .remember snapshot => h.remember snapshot
  | .forget id => (h.forget id).unused fun _ => rfl
  | .cancel ids => (h.cancel ids).unused fun _ => rfl
  | .discard => by
    have hclear : Recent ops lane.discard := Dict.Stamped.empty
    exact hclear.unused fun _ => rfl
  | .own name owner now lease effects => by
    refine unused ?_ fun _ => rfl
    show Recent ops (lane.applyOwnerPoll name owner now lease effects).1
    by_cases hsame : lane.ownerToken = owner.token
    · simpa [Recent, LaneState.applyOwnerPoll, hsame] using h
    · simpa [Recent, LaneState.applyOwnerPoll, hsame] using Dict.Stamped.empty

end Recent

/-- What a run of cache operations keeps, whatever came before it. -/
theorem cache_run {ops : List CacheOp} (hrun : Run CacheStep lane ops lane') :
    ∀ done, Accounted lane → Recent done lane → Accounted lane' ∧ Recent (done ++ ops) lane' := by
  induction hrun with
  | nil lane => exact fun done hacc hrec => ⟨hacc, by simpa using hrec⟩
  | @cons lane mid lane' op ops first rest ih =>
    obtain ⟨halive, rfl⟩ := first
    intro done hacc hrec
    simpa using ih (done ++ [op]) (hacc.apply op halive) (hrec.apply op)

/-- After any sequence of operations the cache of a lane counts its bytes exactly and keeps them
    within the budget, and holds only flows that can go on. A snapshot that may enter it is inserted
    after a loop that ends, one entry a pass, having taken the least recently used entries. -/
theorem flow_cache_bounded {conf : LaneConf} {start : Instant} {ops : List CacheOp} {lane : LaneState}
    (hrun : Run CacheStep (LaneState.new conf start) ops lane) :
    Accounted lane ∧
      ∀ snapshot : Snapshot, LaneState.cacheable lane.conf snapshot = true →
        ∃ room evicted,
          Loop (LaneState.evictFlow (flowBytes snapshot)) (lane.forgetFlow snapshot.record.id)
            evicted.length room ∧
          lane.rememberFlow snapshot = room.insertFlow snapshot ∧
          (lane.forgetFlow snapshot.record.id).flowCache.toList = evicted ++ room.flowCache.toList ∧
          ∀ old ∈ evicted, ∀ kept ∈ room.flowCache.toList, lastUse ops old.1 < lastUse ops kept.1 := by
  have hnew : Accounted (LaneState.new conf start) := .cleared rfl rfl
  obtain ⟨hacc, hrec⟩ := cache_run hrun [] hnew Dict.Stamped.empty
  refine ⟨hacc, fun snapshot hc => ?_⟩
  have hforget := hacc.forget snapshot.record.id
  obtain ⟨n, -, hloop⟩ := makeRoom_loop (flowBytes snapshot) (lane.forgetFlow snapshot.record.id)
  obtain ⟨evicted, rfl, hcache, -, -, -⟩ := hforget.loop hloop
  refine ⟨_, evicted, hloop, ?_, hcache, ?_⟩
  · have hconf : (lane.forgetFlow snapshot.record.id).conf = lane.conf := by rw [hacc.forgetFlow_eq]
    simp [LaneState.rememberFlow, hconf, hc]
  · have hsorted := (hrec.forget snapshot.record.id).sorted
    rw [hcache, List.pairwise_append] at hsorted
    exact hsorted.2.2

/-- A suspended flow whose snapshot holds a hundred bytes of input. -/
def smallFlow (n : ℕ) : Snapshot where
  record := {
    id := ⟨BitVec.ofNat 128 n⟩, parentId := none, rootId := none, kind := .flow, name := "flow"
    input := "", state := none, resumeInput := none, status := .suspended, cancelled := false
    attempts := 0, stepAttempts := 0, lane := "default", lastResult := none, idempotencyKey := none
    idempotencyFingerprint := none, idempotencyExpiresAt := none, nodeId := none, readyAt := none
    createdAt := 0, updatedAt := 0, completedAt := none }
  capacity := ⟨100, 0, 0, 0, 0, 0, 0, 0⟩

/-- A sticky lane with room for one small flow. -/
def narrowLane : LaneConf where
  lane := ⟨"default"⟩
  claimBatchSize := 1
  laneLock := none
  globalRate := none
  retry := ⟨1, 0, 0⟩
  sticky := true
  concurrency := 1
  rate := none
  flowCacheBytes := 300
  flowCacheFits := by decide

/-- A layout without fixed overhead. -/
abbrev flatLayout : RecordLayout := ⟨0⟩

end

attribute [local instance] flatLayout in
/-- Two small flows, of which the second evicts the first, and room for a third. -/
theorem flow_cache_bounded_pair :
    let lane := ((LaneState.new narrowLane 0).rememberFlow (smallFlow 1)).rememberFlow (smallFlow 2)
    Accounted lane ∧
      ∃ room, lane.rememberFlow (smallFlow 3) = LaneState.insertFlow (smallFlow 3) room := by
  have hfirst : (CacheOp.remember (smallFlow 1)).Alive (LaneState.new narrowLane 0) := by
    unfold CacheOp.Alive
    decide
  have hsecond : (CacheOp.remember (smallFlow 2)).Alive
      ((LaneState.new narrowLane 0).rememberFlow (smallFlow 1)) := by
    unfold CacheOp.Alive
    decide +kernel
  obtain ⟨hacc, hroom⟩ := flow_cache_bounded (.cons ⟨hfirst, rfl⟩ (.cons ⟨hsecond, rfl⟩ (.nil _)))
  obtain ⟨room, _, _, h, _⟩ := hroom (smallFlow 3) (by decide +kernel)
  exact ⟨hacc, room, h⟩

end Vyuh.Tasks
