import Vyuh.Tasks.Runner.Flush
import Vyuh.Tasks.Runner.Shedding

/-! The accounts of a runner over whole runs: each lane's count is the number of its outcomes that are still held,
    the tables of what runs agree, and no outcome is lost on the way to the store but with a lane's owner. -/

namespace Vyuh.Tasks
open Lib

variable {id : Uuid} {runner : TaskRunner} {entry : InFlight}

/-! ### Counting -/

theorem countLane_append (lane : TaskLane) (first second : List TaskCommit) :
    countLane lane (first ++ second) = countLane lane first + countLane lane second := List.countP_append

theorem countLane_perm (lane : TaskLane) {first second : List TaskCommit} (h : first.Perm second) :
    countLane lane first = countLane lane second := h.countP_eq _

theorem countLane_flatMap (lane : TaskLane) (requests : List DbRequest) :
    countLane lane (requests.flatMap (·.commits)) = (requests.map fun request => countLane lane request.commits).sum :=
  List.countP_flatMap

/-! ### Unresolved operations -/

namespace TaskRunner

def requestsOf (inFlight : Dict Uuid InFlight) : List DbRequest := inFlight.toList.map (·.2.request)

theorem requestsOf_insert (inFlight : Dict Uuid InFlight) (id : Uuid) (entry : InFlight) :
    requestsOf (inFlight.insert id entry) = entry.request :: requestsOf (inFlight.erase id) := rfl

theorem requestsOf_erase {inFlight : Dict Uuid InFlight} (h : inFlight.lookup id = some entry) :
    (requestsOf inFlight).Perm (entry.request :: requestsOf (inFlight.erase id)) := by
  unfold requestsOf Dict.toList
  rw [List.map_map, List.map_map]
  exact (Dict.perm_erase h).map fun e => e.2.request

/-- A new operation is in front; nothing else changes. -/
theorem requestsOf_fresh {inFlight : Dict Uuid InFlight} (entry : InFlight)
    (h : inFlight.lookup id = none) :
    requestsOf (inFlight.insert id entry) = entry.request :: requestsOf inFlight := by
  rw [requestsOf_insert, Dict.erase_of_lookup_none h]

/-- A phase is no part of the request. -/
theorem requests_setPhase (id : Uuid) (phase : DbPhase) (runner : TaskRunner) :
    (runner.setPhase id phase).requests.Perm runner.requests := by
  unfold setPhase
  cases hlookup : runner.inFlight.lookup id with
  | none => exact .refl _
  | some entry => exact (requestsOf_erase hlookup).symm

theorem lookup_setPhase {id other : Uuid} (phase : DbPhase) (h : runner.inFlight.lookup other = none) :
    (runner.setPhase id phase).inFlight.lookup other = none := by
  unfold setPhase
  cases hlookup : runner.inFlight.lookup id with
  | none => exact h
  | some entry =>
    have hne : other ≠ id := by
      rintro rfl
      rw [h] at hlookup
      simp at hlookup
    simpa [Dict.lookup_insert_apply, hne] using h

theorem empty_of_size {κ υ : Type} {d : Dict κ υ} (h : d.size = 0) : d = ∅ :=
  AList.ext (List.length_eq_zero_iff.mp h)

/-- A runner that finished draining runs nothing and holds nothing. -/
theorem finished_spec (h : runner.finished = true) :
    runner.mode = .draining ∧ runner.runningInvocations = ∅ ∧ runner.outputBuffer = [] ∧ runner.inFlight = ∅ := by
  unfold TaskRunner.finished at h
  simp only [Bool.and_eq_true, decide_eq_true_eq, List.isEmpty_iff] at h
  obtain ⟨⟨⟨hmode, hinv⟩, hbuffer⟩, hflight⟩ := h
  exact ⟨hmode, empty_of_size hinv, hbuffer, empty_of_size hflight⟩

/-- The one lane of a name, changed. -/
theorem lanes_modifyLane (h : runner.NamesDistinct) (lane : TaskLane) (f : LaneState → LaneState) :
    (runner.modifyLane lane f).lanes = runner.lanes.map fun queue => if queue.name = lane then f queue else queue := by
  have hnames : (runner.lanes.map LaneState.name).Nodup := h
  exact modifyFirst_eq_map lane f hnames

theorem names_modifyLane (h : runner.NamesDistinct) (lane : TaskLane) {f : LaneState → LaneState}
    (hf : ∀ queue, (f queue).name = queue.name) :
    (runner.modifyLane lane f).NamesDistinct := by
  have hnames : (runner.modifyLane lane f).lanes.map LaneState.name = runner.lanes.map LaneState.name :=
    modifyFirst_map LaneState.name _ f (fun queue _ => hf queue) _
  unfold NamesDistinct at h ⊢
  rwa [hnames]

/-- A runner that goes on is not changed by the deadline. -/
theorem expire_of_running {now : Instant} (h : ¬ (runner.expire now).stopped = true) :
    runner.expire now = runner := by
  unfold expire at h ⊢
  split
  · next hdue =>
    rw [if_pos hdue] at h
    exact absurd rfl h
  · rfl

/-- The runner left with work that nobody answered for. -/
def abandoned (runner : TaskRunner) : Bool :=
  runner.mode = .dead || runner.mode = .faulted || runner.mode = .retired

end TaskRunner

/-- An outcome whose task shares a lane's loss. -/
def Ledger.Lost (ledger : Ledger) (commit : TaskCommit) : Prop :=
  ∃ other ∈ ledger.accepted, other.taskId = commit.taskId ∧ ∃ lane ∈ ledger.lost, other.lane? = some lane

/-- The accounts of a runner. -/
structure Sound (runner : TaskRunner) (ledger : Ledger) : Prop where
  names : runner.NamesDistinct
  counted : ∀ entry ∈ runner.lanes.map (·.entry), entry.2 = countLane entry.1.lane runner.held
  running : runner.Running
  conserved : ∃ dropped : List TaskCommit,
    (ledger.accepted : Multiset TaskCommit) = runner.held + ledger.acknowledged + dropped ∧
      (runner.abandoned = false → ∀ commit ∈ dropped, ledger.Lost commit)
  returning : DbRequest.giveBack ∈ runner.requests → runner.mode = .draining ∧ runner.held = [] ∧
    ∀ id, runner.runningInvocations.lookup id = none
  finished : runner.mode = .finished → runner.held = []

namespace Sound

open TaskRunner

variable {runner next : TaskRunner} {ledger : Ledger}

/-- Every outcome still held was accepted. -/
theorem accepted (h : Sound runner ledger) {commit : TaskCommit} (hmem : commit ∈ runner.held) :
    commit ∈ ledger.accepted := by
  obtain ⟨dropped, heq, -⟩ := h.conserved
  rw [← Multiset.mem_coe, heq, Multiset.mem_add, Multiset.mem_add]
  exact .inl (.inl hmem)

/-! ### What is shed, and what is left behind -/

theorem sheds {lost : List TaskLane} {dropped : List TaskCommit} (h : Sound runner ledger)
    (hs : Sheds lost dropped runner next) (hlost : ∀ lane ∈ lost, lane ∈ ledger.lost) : Sound next ledger := by
  have hrequests : next.requests = runner.requests := congrArg requestsOf hs.inFlight
  have hheld : runner.held.Perm (next.held ++ dropped) := by
    unfold held
    rw [hrequests, List.append_assoc]
    refine (hs.buffer.append_right _).trans ?_
    rw [List.append_assoc]
    exact List.perm_append_comm.append_left _
  have hnil (hr : runner.held = []) : next.held = [] := by
    rw [hr] at hheld
    exact (List.append_eq_nil_iff.mp hheld.symm.eq_nil).1
  refine ⟨hs.names h.names, ?_, hs.running h.running, ?_, ?_, ?_⟩
  · intro entry hmem
    obtain ⟨before, hbefore, rfl⟩ := List.mem_map.mp ((hs.entries h.names).subset hmem)
    have hcount := h.counted before hbefore
    rw [countLane_perm _ hheld, countLane_append] at hcount
    simp only [uncount]
    omega
  · obtain ⟨old, heq, hreason⟩ := h.conserved
    refine ⟨dropped ++ old, ?_, ?_⟩
    · have hcoe : (runner.held : Multiset TaskCommit) = next.held + dropped := by
        rw [Multiset.coe_add]
        exact Multiset.coe_eq_coe.mpr hheld
      rw [heq, hcoe, ← Multiset.coe_add]
      abel
    · intro hmode commit hmem
      rcases List.mem_append.mp hmem with hmem | hmem
      · obtain ⟨other, hother, htask, lane, hlane, hof⟩ := hs.reason commit hmem
        exact ⟨other, h.accepted (List.mem_append_left _ hother), htask, lane, hlost lane hlane, hof⟩
      · refine hreason ?_ commit hmem
        unfold abandoned at hmode ⊢
        rwa [← hs.mode]
  · intro hgive
    rw [hrequests] at hgive
    obtain ⟨hmode, hempty, hidle⟩ := h.returning hgive
    refine ⟨hs.mode.trans hmode, hnil hempty, fun id => ?_⟩
    cases hlookup : next.runningInvocations.lookup id with
    | none => rfl
    | some invocation =>
      have hbefore := hs.invocations id invocation hlookup
      rw [hidle id] at hbefore
      simp at hbefore
  · exact fun hmode => hnil (h.finished (hs.mode.symm.trans hmode))

theorem quiet (h : Sound runner ledger) (hq : Quiet runner next) : Sound next ledger :=
  h.sheds (.ofQuiet hq) fun _ hmem => absurd hmem List.not_mem_nil

/-- A runner that leaves holds nothing; what it held is not accounted for any more. -/
theorem leave {mode : RunMode} (h : Sound runner ledger) (hmode : mode = .dead ∨ mode = .faulted ∨ mode = .retired) :
    Sound (runner.leave mode) ledger := by
  refine ⟨?_, ?_, ?_, ?_, ?_, ?_⟩
  · have hnames := h.names
    unfold NamesDistinct at hnames ⊢
    rwa [TaskRunner.leave, discardWork, List.map_map]
  · intro entry hmem
    obtain ⟨lane, hlane, rfl⟩ := List.mem_map.mp hmem
    obtain ⟨before, -, rfl⟩ := List.mem_map.mp hlane
    rfl
  · intro id invocationId
    refine ⟨fun hnone => ?_, ?_⟩
    · exact absurd hnone (by simp [TaskRunner.leave, discardWork])
    · rintro ⟨invocation, hnone, -⟩
      exact absurd hnone (by simp [TaskRunner.leave, discardWork])
  · obtain ⟨old, heq, -⟩ := h.conserved
    refine ⟨runner.held ++ old, ?_, ?_⟩
    · have hempty : (runner.leave mode).held = [] := rfl
      rw [heq, hempty, ← Multiset.coe_add, Multiset.coe_nil]
      abel
    · intro hnot
      rcases hmode with rfl | rfl | rfl <;> exact absurd hnot (by simp [abandoned, TaskRunner.leave, discardWork])
  · exact fun hgive => absurd hgive List.not_mem_nil
  · exact fun _ => rfl

theorem expire (h : Sound runner ledger) (now : Instant) : Sound (runner.expire now) ledger := by
  unfold TaskRunner.expire
  split
  · exact h.leave (.inl rfl)
  · exact h

/-- More lanes may count as lost. -/
theorem moreLost (h : Sound runner ledger) (lanes : List TaskLane) :
    Sound runner { ledger with lost := ledger.lost ++ lanes } where
  __ := h
  conserved := by
    obtain ⟨dropped, heq, hreason⟩ := h.conserved
    refine ⟨dropped, heq, fun hmode commit hmem => ?_⟩
    obtain ⟨other, hother, htask, lane, hlane, hof⟩ := hreason hmode commit hmem
    exact ⟨other, hother, htask, lane, List.mem_append_left _ hlane, hof⟩

/-! ### Operations -/

/-- Outcomes move between the queue and the requests, or on to the store; what runs and the mode stay. -/
theorem moves {gone : List TaskCommit} (h : Sound runner ledger)
    (hentries : (next.lanes.map (·.entry)).Perm ((runner.lanes.map (·.entry)).map (uncount gone)))
    (hheld : runner.held.Perm (next.held ++ gone)) (htasks : next.runningTasks = runner.runningTasks)
    (hinv : next.runningInvocations = runner.runningInvocations) (hmode : next.mode = runner.mode)
    (hgive : DbRequest.giveBack ∈ next.requests → DbRequest.giveBack ∈ runner.requests ∨ runner.finished = true) :
    Sound next { ledger with acknowledged := ledger.acknowledged ++ gone } := by
  have hnil (hr : runner.held = []) : next.held = [] := by
    rw [hr] at hheld
    exact (List.append_eq_nil_iff.mp hheld.symm.eq_nil).1
  refine ⟨?_, ?_, ?_, ?_, ?_, fun hfin => hnil (h.finished (hmode.symm.trans hfin))⟩
  · have hperm := hentries.map fun entry => entry.1.lane
    rw [List.map_map, List.map_map, List.map_map] at hperm
    exact hperm.nodup_iff.mpr h.names
  · intro after hmem
    obtain ⟨before, hbefore, rfl⟩ := List.mem_map.mp (hentries.subset hmem)
    have hcount := h.counted before hbefore
    rw [countLane_perm _ hheld, countLane_append] at hcount
    simp only [uncount]
    omega
  · have hrunning := h.running
    unfold Running at hrunning ⊢
    rwa [htasks, hinv]
  · obtain ⟨dropped, heq, hreason⟩ := h.conserved
    refine ⟨dropped, ?_, fun hleft => hreason ?_⟩
    · rw [heq, Multiset.coe_eq_coe.mpr hheld, ← Multiset.coe_add, ← Multiset.coe_add]
      abel
    · unfold abandoned at hleft ⊢
      rwa [← hmode]
  · intro hmem
    rw [hinv, hmode]
    rcases hgive hmem with hold | hfin
    · obtain ⟨hdrain, hempty, hidle⟩ := h.returning hold
      exact ⟨hdrain, hnil hempty, hidle⟩
    · obtain ⟨hdrain, hidle, hbuffer, hflight⟩ := finished_spec hfin
      have hempty : runner.held = [] := by
        unfold held requests
        rw [hbuffer, hflight]
        rfl
      rw [hidle]
      exact ⟨hdrain, hnil hempty, fun _ => rfl⟩

/-- A phase changes no account. -/
theorem setPhase (h : Sound runner ledger) (id : Uuid) (phase : DbPhase) :
    Sound (runner.setPhase id phase) ledger := by
  have hrequests := requests_setPhase id phase runner
  have hsame : (runner.setPhase id phase).lanes = runner.lanes ∧
      (runner.setPhase id phase).outputBuffer = runner.outputBuffer ∧
      (runner.setPhase id phase).runningTasks = runner.runningTasks ∧
      (runner.setPhase id phase).runningInvocations = runner.runningInvocations ∧
      (runner.setPhase id phase).mode = runner.mode := by
    unfold TaskRunner.setPhase
    split <;> exact ⟨rfl, rfl, rfl, rfl, rfl⟩
  obtain ⟨hlanes, hbuffer, htasks, hinv, hmode⟩ := hsame
  have hheld : runner.held.Perm ((runner.setPhase id phase).held ++ []) := by
    unfold held
    rw [hbuffer, List.append_nil]
    exact (hrequests.symm.flatMap_right _).append_left _
  have hmoved := h.moves (by simp [hlanes]) hheld htasks hinv hmode fun hgive => .inl (hrequests.subset hgive)
  rwa [List.append_nil] at hmoved

theorem retryDatabase (h : Sound runner ledger) (id : Uuid) : Sound (runner.retryDatabase id) ledger := by
  unfold TaskRunner.retryDatabase
  split
  · exact h.setPhase id .recovering
  · exact h

end Sound

/-- A request is taken out of the runner: its outcomes leave the output queue, the rest is quiet. -/
structure Asks (request : DbRequest) (runner next : TaskRunner) : Prop where
  entries : (next.lanes.map (·.entry)).Perm (runner.lanes.map (·.entry))
  buffer : runner.outputBuffer = request.commits ++ next.outputBuffer
  inFlight : next.inFlight = runner.inFlight
  tasks : next.runningTasks = runner.runningTasks
  invocations : next.runningInvocations = runner.runningInvocations
  mode : next.mode = runner.mode

namespace Asks

open TaskRunner

variable {request : DbRequest} {runner next : TaskRunner} {permits : Permits} {now : Instant}

theorem ofQuiet (h : Quiet runner next) (hcommits : request.commits = []) : Asks request runner next where
  entries := h.entries
  buffer := by rw [hcommits, h.buffer, List.nil_append]
  inFlight := h.inFlight
  tasks := h.tasks
  invocations := h.invocations
  mode := h.mode

/-- Once started, it is one more operation. -/
theorem requests (h : Asks request runner next) (now : Instant)
    (hfresh : runner.inFlight.lookup id = none) :
    (next.startDatabase now id request).requests = request :: runner.requests := by
  have hnext : next.inFlight.lookup id = none := by rw [h.inFlight, hfresh]
  refine (requestsOf_fresh _ hnext).trans ?_
  rw [h.inFlight]
  rfl

theorem flushRequest (h : runner.flushRequest now permits = some (request, next)) :
    Asks request runner next ∧ request ≠ .giveBack := by
  rw [flushRequest_eq] at h
  split at h
  · obtain ⟨rfl, rfl⟩ := Prod.mk.inj (Option.some.inj h)
    refine ⟨⟨.refl _, ?_, rfl, rfl, rfl, rfl⟩, fun hgive => by simp [deliveryRequest] at hgive⟩
    exact (List.take_append_drop ..).symm
  · simp at h

/-- What the next operation asks for. -/
theorem nextRequest (permits : Permits) (now : Instant) (runner : TaskRunner) :
    (∃ next, runner.nextRequest permits now = (none, next) ∧ Quiet runner next) ∨
    (∃ request next, runner.nextRequest permits now = (some request, next) ∧ Asks request runner next ∧
      request ≠ .giveBack) := by
  unfold TaskRunner.nextRequest
  cases hbeat : runner.heartbeatRequest now with
  | some request =>
    have heq : request = .heartbeat := by
      unfold heartbeatRequest at hbeat
      simp only at hbeat
      split at hbeat
      · exact (Option.some.inj hbeat).symm
      · simp at hbeat
    subst heq
    exact .inr ⟨_, _, rfl, ofQuiet (.refl runner) rfl, by simp⟩
  | none =>
    simp only
    cases hcoord : runner.coordinateRequest permits now with
    | some pair =>
      obtain ⟨request, next⟩ := pair
      obtain ⟨hquiet, claims, rfl⟩ := quiet_coordinateRequest hcoord
      exact .inr ⟨_, _, rfl, ofQuiet hquiet rfl, by simp⟩
    | none =>
      simp only
      cases hflush : runner.flushRequest now permits with
      | some pair =>
        obtain ⟨request, next⟩ := pair
        obtain ⟨hasks, hne⟩ := flushRequest hflush
        exact .inr ⟨_, _, rfl, hasks, hne⟩
      | none =>
        simp only
        obtain ⟨hquiet, hclaim⟩ := quiet_claimRequest permits now runner
        generalize runner.claimRequest permits now = result at hquiet hclaim ⊢
        obtain ⟨_ | request, next⟩ := result
        · exact .inl ⟨next, rfl, hquiet⟩
        · obtain ⟨claims, rfl⟩ := hclaim request rfl
          exact .inr ⟨_, _, rfl, ofQuiet hquiet rfl, by simp⟩

end Asks

/-! ### The loop of the admission -/

namespace TaskRunner

variable {runner : TaskRunner} {permits : Permits} {now : Instant}

/-- What one pass does: a retry, nothing that counts, or a new operation. -/
theorem admitPass_cases (permits : Permits) (now : Instant) (id : Uuid) (runner : TaskRunner) :
    (∃ retry, (runner.admitPass permits now id).2 = runner.retryDatabase retry) ∨
    Quiet runner (runner.admitPass permits now id).2 ∨
    ∃ request next, runner.nextRequest permits now = (some request, next) ∧ Asks request runner next ∧
      request ≠ .giveBack ∧ (runner.admitPass permits now id).2 = next.startDatabase now id request := by
  unfold admitPass
  split
  · cases runner.retryDue now with
    | none => exact .inr (.inl (.refl runner))
    | some retry => exact .inl ⟨retry, rfl⟩
  · split
    · next retry _ _ => exact .inl ⟨retry, rfl⟩
    · rcases Asks.nextRequest permits now runner with ⟨next, heq, hquiet⟩ | ⟨request, next, heq, hasks, hne⟩
      · rw [heq]
        exact .inr (.inl hquiet)
      · rw [heq]
        exact .inr (.inr ⟨request, next, rfl, hasks, hne, rfl⟩)

/-- Other identifiers stay new. -/
theorem lookup_admitPass {id other : Uuid} (hne : other ≠ id) (h : runner.inFlight.lookup other = none) :
    (runner.admitPass permits now id).2.inFlight.lookup other = none := by
  rcases admitPass_cases permits now id runner with ⟨retry, heq⟩ | hquiet | ⟨request, next, -, hasks, -, heq⟩
  · rw [heq]
    unfold retryDatabase
    split
    · exact lookup_setPhase _ h
    · exact h
  · rw [hquiet.inFlight]
    exact h
  · rw [heq]
    show (next.inFlight.insert id _).lookup other = none
    rw [Dict.lookup_insert_apply, if_neg hne, hasks.inFlight]
    exact h

/-- What every pass with a new identifier keeps, the loop keeps. -/
theorem admitLoop_inv {I : TaskRunner → Prop}
    (hpass : ∀ runner id, I runner → runner.inFlight.lookup id = none → I (runner.admitPass permits now id).2) :
    ∀ (ids : List Uuid) {runner : TaskRunner}, I runner → ids.Nodup →
      (∀ id ∈ ids, runner.inFlight.lookup id = none) → I (admitLoop permits now ids runner)
  | [], _, h, _, _ => h
  | id :: ids, runner, h, hnodup, hfresh => by
    rw [List.nodup_cons] at hnodup
    have hnext := hpass runner id h (hfresh id List.mem_cons_self)
    have hrest (other : Uuid) (hmem : other ∈ ids) :
        (runner.admitPass permits now id).2.inFlight.lookup other = none := by
      refine lookup_admitPass ?_ (hfresh other (List.mem_cons_of_mem _ hmem))
      rintro rfl
      exact hnodup.1 hmem
    unfold admitLoop
    generalize runner.admitPass permits now id = pass at hnext hrest ⊢
    obtain ⟨_ | _, next⟩ := pass
    · exact hnext
    · exact admitLoop_inv hpass ids hnext hnodup.2 hrest

theorem admitReady_inv {I : TaskRunner → Prop} {ids : List Uuid}
    (hpass : ∀ runner id, I runner → runner.inFlight.lookup id = none → I (runner.admitPass permits now id).2)
    (hexpired : I (runner.expire now)) (h : I runner) (hnodup : ids.Nodup)
    (hfresh : ∀ id ∈ ids, runner.inFlight.lookup id = none) : I (runner.admitReady permits now ids) := by
  unfold admitReady
  simp only
  split
  · exact hexpired
  · next hstop =>
    rw [expire_of_running hstop]
    exact admitLoop_inv hpass ids h hnodup hfresh

end TaskRunner

namespace Sound

open TaskRunner

variable {runner next : TaskRunner} {ledger : Ledger}

/-- A new operation holds the outcomes it took from the queue. -/
theorem start {request : DbRequest} (h : Sound runner ledger) (hasks : Asks request runner next)
    (now : Instant) (hfresh : runner.inFlight.lookup id = none)
    (hgive : request = .giveBack → runner.finished = true) :
    Sound (next.startDatabase now id request) ledger := by
  have hrequests := hasks.requests now hfresh
  have hheld : runner.held.Perm ((next.startDatabase now id request).held ++ []) := by
    unfold held
    rw [hrequests, hasks.buffer, List.flatMap_cons, List.append_assoc, List.append_nil, ← List.append_assoc,
      ← List.append_assoc]
    exact List.perm_append_comm.append_right _
  have hmoved : Sound (next.startDatabase now id request)
      { ledger with acknowledged := ledger.acknowledged ++ [] } := by
    refine h.moves ?_ hheld hasks.tasks hasks.invocations hasks.mode ?_
    · show (next.lanes.map (·.entry)).Perm ((runner.lanes.map (·.entry)).map (uncount []))
      simpa using hasks.entries
    · intro hmem
      rw [hrequests] at hmem
      rcases List.mem_cons.mp hmem with heq | hold
      · exact .inr (hgive heq.symm)
      · exact .inl hold
  rwa [List.append_nil] at hmoved

/-- An answered operation leaves, its outcomes acknowledged and off the counts. -/
theorem resolve (h : Sound runner ledger) (hlookup : runner.inFlight.lookup id = some entry)
    (hentries : (next.lanes.map (·.entry)).Perm ((runner.lanes.map (·.entry)).map (uncount entry.request.commits)))
    (hbuffer : next.outputBuffer = runner.outputBuffer) (hflight : next.inFlight = runner.inFlight)
    (htasks : next.runningTasks = runner.runningTasks)
    (hinv : next.runningInvocations = runner.runningInvocations) (hmode : next.mode = runner.mode)
    (now : Instant) :
    Sound (next.resolved now id)
      { ledger with acknowledged := ledger.acknowledged ++ entry.request.commits } := by
  have hrequests : runner.requests.Perm (entry.request :: (next.resolved now id).requests) := by
    show (requestsOf runner.inFlight).Perm (entry.request :: requestsOf (next.inFlight.erase id))
    rw [hflight]
    exact requestsOf_erase hlookup
  have hheld : runner.held.Perm ((next.resolved now id).held ++ entry.request.commits) := by
    unfold held
    refine ((hrequests.flatMap_right _).append_left _).trans ?_
    rw [List.flatMap_cons, ← hbuffer]
    show (next.outputBuffer ++ _).Perm ((next.outputBuffer ++ _) ++ _)
    rw [List.append_assoc]
    exact List.perm_append_comm.append_left _
  refine h.moves hentries hheld htasks hinv hmode fun hgive => .inl ?_
  exact hrequests.symm.subset (List.mem_cons_of_mem _ hgive)

/-- An operation without outcomes leaves. -/
theorem resolveQuiet (h : Sound runner ledger) (hlookup : runner.inFlight.lookup id = some entry)
    (hcommits : entry.request.commits = []) (now : Instant) :
    Sound (runner.resolved now id) ledger := by
  have hresolved : Sound (runner.resolved now id)
      { ledger with acknowledged := ledger.acknowledged ++ entry.request.commits } :=
    h.resolve hlookup (by simp [hcommits]) rfl rfl rfl rfl rfl now
  rwa [hcommits, List.append_nil] at hresolved

/-- A drained runner has given everything back. -/
theorem returned (h : Sound runner ledger) (hgive : DbRequest.giveBack ∈ runner.requests) :
    Sound runner.returned ledger := by
  obtain ⟨hdrain, hempty, hidle⟩ := h.returning hgive
  have hheld : runner.returned.held = [] := by
    have hbuffer := (List.append_eq_nil_iff.mp hempty).1
    unfold held
    rw [show runner.returned.outputBuffer = runner.outputBuffer from rfl, hbuffer]
    rfl
  have hentries : runner.returned.lanes.map (·.entry) = runner.lanes.map (·.entry) := by
    rw [TaskRunner.returned, List.map_map]
    rfl
  refine ⟨?_, ?_, h.running, ?_, fun hmem => absurd hmem List.not_mem_nil, fun _ => hheld⟩
  · have hnames := h.names
    unfold NamesDistinct at hnames ⊢
    rwa [TaskRunner.returned, List.map_map]
  · intro entry hmem
    rw [hentries] at hmem
    rw [hheld, ← hempty]
    exact h.counted entry hmem
  · obtain ⟨dropped, heq, hreason⟩ := h.conserved
    refine ⟨dropped, ?_, fun _ => hreason ?_⟩
    · rw [heq, hheld, hempty]
    · unfold abandoned
      rw [hdrain]
      rfl

/-- The outcomes of a completion are buffered and counted once. -/
theorem complete {completion : Completion} (h : Sound runner ledger) (now : Instant)
    (hlane : ∀ commit ∈ completion.commits, commit.lane? = some completion.lane) (hmode : runner.mode ≠ .finished)
    (hfits : runner.held.length + completion.commits.length ≤ usizeMax) :
    Sound (runner.acceptCompletion now completion)
      { ledger with accepted := ledger.accepted ++ runner.taken completion } := by
  unfold acceptCompletion taken
  cases hlookup : runner.runningInvocations.lookup completion.invocationId with
  | none => simpa using h
  | some invocation =>
    simp only [Option.isSome_some, if_true]
    refine Sound.quiet ?_ (quiet_wakeLane now completion.lane _)
    have hkept : ∀ commit ∈ runner.kept completion, commit.lane? = some completion.lane :=
      fun commit hmem => hlane commit (List.mem_of_mem_filter hmem)
    have hlength : (runner.kept completion).length ≤ completion.commits.length := List.length_filter_le ..
    generalize runner.kept completion = commits at hkept hlength ⊢
    have hperm : ((runner.outputBuffer ++ commits) ++ runner.requests.flatMap (·.commits)).Perm
        (runner.held ++ commits) := by
      unfold held
      rw [List.append_assoc, List.append_assoc]
      exact List.perm_append_comm.append_left _
    refine ⟨?_, ?_, ?_, ?_, ?_, ?_⟩
    · refine names_modifyLane ?_ _ ?_
      · exact h.names
      · exact fun _ => rfl
    · intro entry hmem
      show entry.2 = countLane entry.1.lane ((runner.outputBuffer ++ commits) ++ runner.requests.flatMap (·.commits))
      rw [countLane_perm _ hperm, countLane_append]
      rw [lanes_modifyLane] at hmem
      · obtain ⟨after, hafter, rfl⟩ := List.mem_map.mp hmem
        obtain ⟨lane, hof, rfl⟩ := List.mem_map.mp hafter
        have hcount : lane.uncommitted = countLane lane.name runner.held := h.counted _ (List.mem_map_of_mem hof)
        split
        · next heq =>
          have hall : countLane lane.name commits = commits.length :=
            List.countP_eq_length.mpr fun commit hc => by simpa [heq] using hkept commit hc
          have hle : countLane lane.name runner.held ≤ runner.held.length := List.countP_le_length
          show saturatingAddUsize lane.uncommitted commits.length =
            countLane lane.name runner.held + countLane lane.name commits
          rw [hall, ← hcount, saturatingAddUsize]
          omega
        · next hne =>
          have hnone : countLane lane.name commits = 0 := by
            refine List.countP_eq_zero.mpr fun commit hc => ?_
            rw [hkept commit hc]
            simpa using fun heq => hne heq.symm
          show lane.uncommitted = countLane lane.name runner.held + countLane lane.name commits
          rw [hnone, ← hcount, Nat.add_zero]
      · exact h.names
    · exact running_withdraw h.running hlookup rfl rfl
    · obtain ⟨dropped, heq, hreason⟩ := h.conserved
      refine ⟨dropped, ?_, ?_⟩
      · show ((ledger.accepted ++ commits : List TaskCommit) : Multiset TaskCommit) =
          ((runner.outputBuffer ++ commits) ++ runner.requests.flatMap (·.commits) : List TaskCommit) +
            ledger.acknowledged + dropped
        rw [Multiset.coe_eq_coe.mpr hperm, ← Multiset.coe_add, ← Multiset.coe_add, heq]
        abel
      · intro hmode commit hmem
        obtain ⟨other, hother, hrest⟩ := hreason hmode commit hmem
        exact ⟨other, List.mem_append_left _ hother, hrest⟩
    · intro hgive
      have hidle := (h.returning hgive).2.2 completion.invocationId
      rw [hlookup] at hidle
      simp at hidle
    · exact fun hfin => absurd hfin hmode

/-- A new invocation is listed in both tables. -/
theorem spawn {execution : TaskExecution} (h : Sound runner ledger) (hmode : runner.mode = .running)
    (hspawn : Spawns execution runner next)
    (hfresh : runner.runningInvocations.lookup execution.invocationId = none) (started : List TaskId) :
    Sound next { ledger with started := started } := by
  obtain ⟨mid, hsheds, hfree, rfl⟩ := hspawn
  have hmid := h.sheds hsheds fun _ hmem => absurd hmem List.not_mem_nil
  have hmidMode : mid.mode = .running := hsheds.mode.trans hmode
  have hmidFresh : mid.runningInvocations.lookup execution.invocationId = none := by
    cases hlookup : mid.runningInvocations.lookup execution.invocationId with
    | none => rfl
    | some invocation =>
      rw [hsheds.invocations _ _ hlookup] at hfresh
      simp at hfresh
  refine ⟨hmid.names, hmid.counted, ?_, hmid.conserved, ?_, hmid.finished⟩
  · intro id invocationId
    simp only [lookup_insertAll, Dict.lookup_insert_apply]
    have hbefore := hmid.running id invocationId
    by_cases hid : id ∈ execution.records.map (·.record.id)
    · obtain ⟨record, hrecord, rfl⟩ := List.mem_map.mp hid
      rw [if_pos hid]
      constructor
      · intro heq
        obtain rfl := Option.some.inj heq
        exact ⟨_, if_pos rfl, hid⟩
      · rintro ⟨invocation, hlookup, hmem⟩
        split at hlookup
        · next heq => rw [heq]
        · have hold := hbefore.mpr ⟨invocation, hlookup, hmem⟩
          rw [hfree record hrecord] at hold
          simp at hold
    · rw [if_neg hid, hbefore]
      constructor
      · rintro ⟨invocation, hlookup, hmem⟩
        refine ⟨invocation, ?_, hmem⟩
        rw [if_neg, hlookup]
        rintro rfl
        rw [hmidFresh] at hlookup
        simp at hlookup
      · rintro ⟨invocation, hlookup, hmem⟩
        split at hlookup
        · obtain rfl := Option.some.inj hlookup
          exact absurd hmem hid
        · exact ⟨invocation, hlookup, hmem⟩
  · intro hgive
    have hdrain := (hmid.returning hgive).1
    rw [hmidMode] at hdrain
    simp at hdrain

/-! ### Turns -/

theorem databaseFailed (h : Sound runner ledger) (now : Instant) (id : Uuid) (failure : DbFailure) :
    Sound (runner.databaseFailed now id failure) ledger := by
  unfold TaskRunner.databaseFailed
  split
  · exact h.setPhase id _
  · exact h.leave (.inr (.inl rfl))

/-- What a flush brings is quiet once its outcomes are off the counts. -/
theorem quiet_applyFlush [RecordLayout] (alloc : Allocator) (now : Instant) (commits : List TaskCommit)
    (result : CommitResult) (runner : TaskRunner) :
    Quiet (runner.release commits) (runner.applyFlush alloc now commits result) := by
  unfold applyFlush
  have hinputs := Quiet.foldl (fun runner record => quiet_acceptInput (Snapshot.mk record (alloc record)) runner)
    result.tasks (runner.acknowledgeCommits commits)
  exact hinputs.trans (Quiet.foldl (fun runner lane => quiet_wakeLane now lane runner) _ _)

theorem mode_applyFlush [RecordLayout] (alloc : Allocator) (now : Instant) (commits : List TaskCommit)
    (result : CommitResult) (runner : TaskRunner) : (runner.applyFlush alloc now commits result).mode = runner.mode := by
  rw [(quiet_applyFlush alloc now commits result runner).mode, release_fold]

/-- A committed batch leaves the counts and brings inputs. -/
theorem flushed [RecordLayout] {alloc : Allocator} {now : Instant} {commits : List TaskCommit}
    {capacity : ℕ} {cached : List Snapshot} {phase : DbPhase} (h : Sound runner ledger)
    (hlookup : runner.inFlight.lookup id = some ⟨.commit commits capacity cached, phase⟩)
    (result : CommitResult) :
    Sound ((runner.applyFlush alloc now commits result).resolved now id)
      { ledger with acknowledged := ledger.acknowledged ++ commits } := by
  have hquiet := quiet_applyFlush alloc now commits result runner
  refine h.resolve hlookup ?_ ?_ ?_ ?_ ?_ (mode_applyFlush alloc now commits result runner) now
  · refine hquiet.entries.trans ?_
    exact .of_eq (entries_release h.names commits)
  · rw [hquiet.buffer, release_fold]
  · rw [hquiet.inFlight, release_fold]
  · rw [hquiet.tasks, release_fold]
  · rw [hquiet.invocations, release_fold]

theorem stopped_congr (hmode : next.mode = runner.mode) : next.stopped = runner.stopped := by
  unfold stopped
  rw [hmode]

/-- A poll may drop outcomes of lanes it leaves without an owner; a poll that answers something else faults. -/
theorem polled (alloc : Allocator) (permits : Permits) (h : Sound runner ledger)
    (hstop : ¬ runner.stopped = true) (now : Instant) (hlookup : runner.inFlight.lookup id = some entry)
    (hcommits : entry.request.commits = []) (claims : List LaneClaim) (poll : TaskPoll) :
    Sound (match (do
        validatePoll claims poll
        return runner.applyPoll alloc permits claims poll now : Except TaskRuntimeError TaskRunner) with
      | .error error => runner.databaseFailed now id ⟨.runtime error, none⟩
      | .ok next => if next.stopped then next else next.resolved now id)
      { ledger with lost := ledger.lost ++ disowned (.ok (.poll poll)) } := by
  have hmore := h.moreLost (disowned (.ok (.poll poll)))
  cases validatePoll claims poll with
  | error error => exact hmore.databaseFailed now id _
  | ok _ =>
    obtain ⟨dropped, hsheds⟩ := sheds_applyPoll alloc permits claims poll now runner
    have hnext := hmore.sheds hsheds fun _ hmem => List.mem_append_right _ hmem
    show Sound (if (runner.applyPoll alloc permits claims poll now).stopped then _ else _) _
    rw [stopped_congr hsheds.mode, if_neg hstop]
    exact hnext.resolveQuiet (hsheds.inFlight ▸ hlookup) hcommits now

/-- An answer of the store, whatever it is. -/
theorem applyDatabase [RecordLayout] (alloc : Allocator) (permits : Permits) (h : Sound runner ledger) (now : Instant)
    (id : Uuid) (answer : Except DbFailure DbResponse) :
    Sound (runner.applyDatabase alloc permits now id answer)
      { ledger with
        acknowledged := ledger.acknowledged ++ runner.acknowledges now id answer
        lost := ledger.lost ++ disowned answer } := by
  unfold TaskRunner.applyDatabase acknowledges
  have hexpire := h.expire now
  simp only
  by_cases hstop : (runner.expire now).stopped = true
  · simpa [hstop] using hexpire.moreLost (disowned answer)
  · have hsame := expire_of_running hstop
    rw [hsame] at hstop ⊢
    rw [if_neg hstop, if_neg hstop]
    have hmore := h.moreLost (disowned answer)
    cases hlookup : runner.inFlight.lookup id with
    | none => simpa using hmore
    | some entry =>
      cases answer with
      | error failure => simpa using hmore.databaseFailed now id failure
      | ok response =>
        obtain ⟨request, phase⟩ := entry
        have hmismatch (error : TaskRuntimeError) : Sound (runner.databaseFailed now id ⟨.runtime error, none⟩)
            { ledger with acknowledged := ledger.acknowledged ++ [], lost := ledger.lost ++ disowned (.ok response) } := by
          simpa using hmore.databaseFailed now id _
        have hmore' : Sound runner
            { ledger with acknowledged := ledger.acknowledged ++ [], lost := ledger.lost ++ disowned (.ok response) } := by
          simpa using hmore
        have hledger : Ledger.mk ledger.started ledger.accepted (ledger.acknowledged ++ [])
            (ledger.lost ++ disowned (.ok response)) = { ledger with lost := ledger.lost ++ disowned (.ok response) } := by
          rw [List.append_nil]
        cases request with
        | heartbeat =>
          cases response with
          | heartbeat present =>
            cases present with
            | false => exact hmore'.leave (.inr (.inr rfl))
            | true =>
              have hbeat : Quiet runner (runner.scheduleHeartbeat now) := ⟨.refl _, rfl, rfl, rfl, rfl, rfl, rfl⟩
              simp only [applyResponse, stopped_congr hbeat.mode, if_neg hstop]
              exact (hmore'.quiet hbeat).resolveQuiet hlookup rfl now
          | _ => exact hmismatch _
        | giveBack =>
          cases response with
          | returned =>
            have hgive : DbRequest.giveBack ∈ runner.requests :=
              List.mem_map.mpr ⟨(id, _), Dict.mem_toList.mpr hlookup, rfl⟩
            exact hmore'.returned hgive
          | _ => exact hmismatch _
        | claim claims =>
          cases response with
          | poll poll => exact hledger ▸ h.polled alloc permits hstop now hlookup rfl claims poll
          | _ => exact hmismatch _
        | coordinate claims =>
          cases response with
          | poll poll => exact hledger ▸ h.polled alloc permits hstop now hlookup rfl claims poll
          | _ => exact hmismatch _
        | commit commits capacity cached =>
          cases response with
          | flushed result =>
            have hmode := mode_applyFlush alloc now commits result runner
            simp only [applyResponse, stopped_congr hmode, if_neg hstop]
            exact hmore.flushed hlookup result
          | _ => exact hmismatch _

/-! ### Admission -/

theorem admitPass (permits : Permits) (h : Sound runner ledger) (now : Instant)
    (hfresh : runner.inFlight.lookup id = none) : Sound (runner.admitPass permits now id).2 ledger := by
  rcases admitPass_cases permits now id runner with ⟨retry, heq⟩ | hquiet | ⟨request, next, -, hasks, hne, heq⟩
  · rw [heq]
    exact h.retryDatabase retry
  · exact h.quiet hquiet
  · rw [heq]
    exact h.start hasks now hfresh fun hgive => absurd hgive hne

theorem admitReady (permits : Permits) (h : Sound runner ledger) (now : Instant) {ids : List Uuid} (hnodup : ids.Nodup)
    (hfresh : ∀ id ∈ ids, runner.inFlight.lookup id = none) : Sound (runner.admitReady permits now ids) ledger := by
  refine admitReady_inv (I := fun runner => Sound runner ledger) ?_ (h.expire now) h hnodup hfresh
  intro runner id hsound hid
  exact hsound.admitPass permits now hid

theorem giveBack (h : Sound runner ledger) (now : Instant) (hfresh : runner.inFlight.lookup id = none) :
    Sound (runner.giveBack now id) ledger := by
  unfold TaskRunner.giveBack
  split
  · next hfin => exact h.start (.ofQuiet (.refl runner) rfl) now hfresh fun _ => hfin
  · exact h

theorem shutdown (h : Sound runner ledger) : Sound runner.shutdown ledger := by
  unfold TaskRunner.shutdown
  split
  · exact h
  · next hmode =>
    rw [not_or] at hmode
    refine ⟨h.names, h.counted, h.running, ?_, ?_, fun hfin => by simp at hfin⟩
    · obtain ⟨dropped, heq, hreason⟩ := h.conserved
      refine ⟨dropped, heq, fun _ => hreason ?_⟩
      have hstop := hmode.1
      unfold stopped at hstop
      unfold abandoned
      simp_all
    · exact fun hgive => absurd (h.returning hgive).1 hmode.2

/-- A runner at its start. -/
theorem new (conf : RunnerConf) (node : Uuid) (now : Instant) :
    Sound (TaskRunner.new conf node now) ⟨[], [], [], []⟩ := by
  refine ⟨?_, ?_, ?_, ⟨[], rfl, fun _ _ hmem => absurd hmem List.not_mem_nil⟩, ?_, fun _ => rfl⟩
  · have hnames := conf.lanesDistinct
    unfold NamesDistinct TaskRunner.new
    rwa [List.map_map]
  · intro entry hmem
    obtain ⟨lane, hlane, rfl⟩ := List.mem_map.mp hmem
    obtain ⟨laneConf, -, rfl⟩ := List.mem_map.mp hlane
    rfl
  · intro id invocationId
    simp [TaskRunner.new]
  · exact fun hgive => absurd hgive List.not_mem_nil

end Sound

/-! ### Runs -/

namespace RunnerProcess

variable [RecordLayout] [Serde] {alloc : Allocator} {limits : OutcomeLimits}

omit [RecordLayout] [Serde] in
theorem sound_start (conf : RunnerConf) (node : Uuid) (now : Instant) (clustered : Bool) :
    Sound (start conf node now clustered).runner (start conf node now clustered).ledger := by
  unfold start
  split
  · exact (Sound.new conf node now).quiet ⟨.refl _, rfl, rfl, rfl, rfl, rfl, rfl⟩
  · exact Sound.new conf node now

omit [RecordLayout] in
/-- Every outcome of an execution is one of its lane. -/
theorem completion_lane (execution : TaskExecution) (outcomes : List TaskOutcome) :
    ∀ commit ∈ (completion execution outcomes).commits, commit.lane? = some (completion execution outcomes).lane := by
  intro commit hmem
  obtain ⟨result, -, rfl⟩ := List.mem_map.mp hmem
  rfl

/-- One turn keeps the accounts. -/
theorem sound_step {process next : RunnerProcess} {label : Reading × RunnerTurn}
    (h : Sound process.runner process.ledger) (hstep : Step alloc limits process label next) :
    Sound next.runner next.ledger := by
  obtain ⟨⟨hgoes, henabled⟩, rfl⟩ := hstep
  obtain ⟨reading, turn⟩ := label
  cases turn with
  | input snapshot => exact h.quiet (TaskRunner.quiet_acceptInput snapshot _)
  | control event => exact h.quiet (TaskRunner.quiet_acceptEvent reading.now event _)
  | hook ended => exact h.quiet (TaskRunner.quiet_acceptHook reading.now ended _)
  | admission ids => exact h.admitReady reading.permits reading.now henabled.2.1 henabled.2.2
  | giveBack id => exact h.giveBack reading.now henabled
  | answer id answer => exact h.applyDatabase alloc reading.permits reading.now id answer
  | shutdown => exact h.shutdown
  | expire => exact h.expire reading.now
  | dispatch index id =>
    unfold apply
    simp only
    rcases TaskRunner.dispatch_cases limits reading.permits reading.now index id process.runner h.running with
      ⟨next, heq, hquiet⟩ | ⟨execution, next, heq, hmode, hid, hspawn⟩
    · rw [heq]
      exact h.quiet hquiet
    · rw [heq]
      exact h.spawn hmode hspawn (hid ▸ henabled.2) _
  | finish index outcomes =>
    obtain ⟨execution, hget, hlength, hfits⟩ := henabled
    unfold apply
    simp only [hget]
    refine h.complete reading.now (completion_lane execution outcomes) ?_ ?_
    · intro hfin
      simp [TaskRunner.stopped, hfin] at hgoes
    have hcommits : (completion execution outcomes).commits.length ≤ outcomes.length := by
      simp [completion, TaskExecution.completion, taskCommits, hlength]
    omega

theorem sound_run {conf : RunnerConf} {node : Uuid} {now : Instant} {clustered : Bool}
    {turns : List (Reading × RunnerTurn)} {process : RunnerProcess}
    (hrun : Run (Step alloc limits) (start conf node now clustered) turns process) :
    Sound process.runner process.ledger :=
  hrun.inv (I := fun process => Sound process.runner process.ledger) (fun _ _ _ => sound_step)
    (sound_start conf node now clustered)

/-- In every state a run reaches, each lane's count of uncommitted outcomes is the number of its outcomes in the
    output queue and in unresolved requests, and a task is listed with an invocation exactly when that invocation
    runs and lists the task. -/
theorem runner_accounts {conf : RunnerConf} {node : Uuid} {now : Instant} {clustered : Bool}
    {turns : List (Reading × RunnerTurn)} {process : RunnerProcess}
    (hrun : Run (Step alloc limits) (start conf node now clustered) turns process) :
    (∀ lane ∈ process.runner.lanes, lane.uncommitted = countLane lane.name process.runner.outputBuffer +
      (process.runner.requests.map fun request => countLane lane.name request.commits).sum) ∧
    ∀ id invocationId, process.runner.runningTasks.lookup id = some invocationId ↔
      ∃ invocation, process.runner.runningInvocations.lookup invocationId = some invocation ∧
        id ∈ invocation.taskIds := by
  have hsound := sound_run hrun
  refine ⟨fun lane hmem => ?_, hsound.running⟩
  have hcount := hsound.counted _ (List.mem_map_of_mem hmem)
  rwa [TaskRunner.held, countLane_append, countLane_flatMap] at hcount

/-- The count of a lane is exact in every state a run reaches, and what is taken off it when a request is answered and
    outcomes of the output queue are dropped is never more than it is: the subtraction does not saturate. Tasks are
    listed with the invocations that run and list them. -/
theorem uncommitted_never_saturates {conf : RunnerConf} {node : Uuid} {now : Instant} {clustered : Bool}
    {turns : List (Reading × RunnerTurn)} {process : RunnerProcess}
    (hrun : Run (Step alloc limits) (start conf node now clustered) turns process) :
    (∀ lane ∈ process.runner.lanes,
      lane.uncommitted = countLane lane.name (process.runner.outputBuffer ++
        process.runner.requests.flatMap (·.commits)) ∧
      ∀ dropped : List TaskCommit, dropped.Sublist process.runner.outputBuffer →
        countLane lane.name dropped ≤ lane.uncommitted ∧
        ∀ request ∈ process.runner.requests,
          countLane lane.name dropped ≤ lane.uncommitted - countLane lane.name request.commits ∧
          countLane lane.name request.commits ≤ lane.uncommitted) ∧
    ∀ id invocationId, process.runner.runningTasks.lookup id = some invocationId ↔
      ∃ invocation, process.runner.runningInvocations.lookup invocationId = some invocation ∧
        id ∈ invocation.taskIds := by
  have hsound := sound_run hrun
  refine ⟨fun lane hmem => ⟨hsound.counted _ (List.mem_map_of_mem hmem), fun dropped hdropped => ?_⟩, hsound.running⟩
  have hcount : lane.uncommitted = countLane lane.name process.runner.outputBuffer +
      (process.runner.requests.map fun request => countLane lane.name request.commits).sum := by
    have hheld := hsound.counted _ (List.mem_map_of_mem hmem)
    rwa [TaskRunner.held, countLane_append, countLane_flatMap] at hheld
  have hqueue : countLane lane.name dropped ≤ countLane lane.name process.runner.outputBuffer :=
    hdropped.countP_le
  refine ⟨by omega, fun request hrequest => ?_⟩
  have hanswered : countLane lane.name request.commits ≤
      (process.runner.requests.map fun request => countLane lane.name request.commits).sum :=
    List.le_sum_of_mem (List.mem_map_of_mem hrequest)
  omega

/-- In every run, the outcomes accepted off invocations are the ones in the output queue, in unresolved requests,
    acknowledged by the store, or dropped; unless the runner left as dead, retired or faulted, whatever was dropped
    shares its task with an outcome of a lane that lost its owner; and a runner that finished holds none. -/
theorem outcomes_conserved {conf : RunnerConf} {node : Uuid} {now : Instant} {clustered : Bool}
    {turns : List (Reading × RunnerTurn)} {process : RunnerProcess}
    (hrun : Run (Step alloc limits) (start conf node now clustered) turns process) :
    (∃ dropped, process.ledger.accepted.Perm (process.runner.outputBuffer ++
        process.runner.requests.flatMap (·.commits) ++ process.ledger.acknowledged ++ dropped) ∧
      (process.runner.abandoned = false → ∀ commit ∈ dropped, process.ledger.Lost commit)) ∧
    (process.runner.mode = .finished → process.runner.outputBuffer = [] ∧
      process.runner.requests.flatMap (·.commits) = []) := by
  have hsound := sound_run hrun
  refine ⟨?_, fun hfin => List.append_eq_nil_iff.mp (hsound.finished hfin)⟩
  obtain ⟨dropped, heq, hreason⟩ := hsound.conserved
  refine ⟨dropped, Multiset.coe_eq_coe.mp ?_, hreason⟩
  rw [heq, ← Multiset.coe_add, ← Multiset.coe_add]
  rfl

/-! ### A run -/

end RunnerProcess

theorem one_inRange : 1 ≤ 1 ∧ 1 ≤ maxBatchSize := by decide

/-- A runner with one lane. -/
def oneLane : RunnerConf where
  concurrency := 1
  commitBatchSize := 1
  allLimit := 1
  ingressCapacity := 1
  leaseDuration := 3
  pollInterval := 1
  fallbackInterval := 1
  heartbeatInterval := 1
  lanes := [narrowLane]
  tasks := []
  batchInRange := one_inRange
  allInRange := one_inRange
  lanesDistinct := by decide

/-- A task the runner with node 7 has claimed. -/
def claimedTask : Snapshot :=
  { smallFlow 1 with record := { (smallFlow 1).record with kind := .work, status := .running, nodeId := some 7 } }

namespace RunnerProcess

/-- No text is refused. -/
@[reducible] def anySerde : Serde := ⟨fun _ => none, fun _ => none⟩

attribute [local instance] flatLayout anySerde

/-- One task comes in, runs and completes; its outcome is on its way to the store. -/
def delivery : List (Reading × RunnerTurn) :=
  let reading : Reading := ⟨0, ⟨1, fun _ => 1, 1⟩⟩
  [(reading, .input claimedTask), (reading, .dispatch 0 1), (reading, .finish 0 [.complete]),
    (reading, .admission [2])]

def anyAlloc : Allocator := fun _ => ⟨0, 0, 0, 0, 0, 0, 0, 0⟩

def delivering : RunnerProcess :=
  delivery.foldl (fun process label => process.apply anyAlloc ⟨1, 1⟩ label.1 label.2) (start oneLane 7 0 false)

theorem delivering_run : Run (Step anyAlloc ⟨1, 1⟩) (start oneLane 7 0 false) delivery delivering := by
  refine .cons ⟨⟨rfl, rfl, by decide⟩, rfl⟩ (.cons ⟨⟨rfl, ?_, rfl⟩, rfl⟩ (.cons ⟨⟨rfl, _, rfl, rfl, by decide⟩, rfl⟩
    (.cons ⟨⟨rfl, rfl, by decide, ?_⟩, rfl⟩ (.nil _))))
  · exact fun _ hmem => absurd hmem List.not_mem_nil
  · intro id hmem
    rfl

/-- The outcome on its way is the one its lane counts. -/
theorem runner_accounts_delivery : delivering.runner.lanes.map (·.uncommitted) = [1] ∧
    ∀ lane ∈ delivering.runner.lanes, lane.uncommitted = countLane lane.name delivering.runner.outputBuffer +
      (delivering.runner.requests.map fun request => countLane lane.name request.commits).sum :=
  ⟨rfl, (runner_accounts delivering_run).1⟩

/-- The answer to the request takes off what the lane counts. -/
theorem uncommitted_never_saturates_delivery :
    (delivering.runner.requests.map fun request => countLane narrowLane.lane request.commits) = [1] ∧
    ∀ lane ∈ delivering.runner.lanes, ∀ request ∈ delivering.runner.requests,
      countLane lane.name request.commits ≤ lane.uncommitted :=
  ⟨rfl, fun lane hlane request hrequest =>
    (((uncommitted_never_saturates delivering_run).1 lane hlane).2 [] (List.nil_sublist _)).2 request hrequest |>.2⟩

/-- The store answers that the outcome is committed. -/
def delivered : RunnerProcess :=
  delivering.apply anyAlloc ⟨1, 1⟩ ⟨0, ⟨1, fun _ => 1, 1⟩⟩ (.answer 2 (.ok (.flushed ⟨[], [], []⟩)))

/-- The acknowledged outcome is the accepted one. -/
theorem outcomes_conserved_delivery : delivered.ledger.acknowledged.length = 1 ∧
    ∃ dropped, delivered.ledger.accepted.Perm (delivered.runner.outputBuffer ++
      delivered.runner.requests.flatMap (·.commits) ++ delivered.ledger.acknowledged ++ dropped) := by
  have hrun := delivering_run.append (.single ⟨⟨rfl, trivial⟩, rfl⟩ : Run (Step anyAlloc ⟨1, 1⟩) delivering
    [(⟨0, ⟨1, fun _ => 1, 1⟩⟩, .answer 2 (.ok (.flushed ⟨[], [], []⟩)))] delivered)
  obtain ⟨dropped, hperm, -⟩ := (outcomes_conserved hrun).1
  exact ⟨rfl, dropped, hperm⟩

end RunnerProcess

end Vyuh.Tasks
