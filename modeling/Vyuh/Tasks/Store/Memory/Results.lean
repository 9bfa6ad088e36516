import Vyuh.Tasks.Envelope
import Vyuh.Tasks.Store.Memory.Runs

/-! Results and resume inputs are envelopes. Texts enter a record when an execution is concluded, when a
    child's result is delivered, when a group is assembled and when somebody resumes a task; each of them
    passed its check, and nothing else rewrites them. -/

namespace Vyuh.Tasks.Memory
open Lib

/-- A record whose result and input are accepted envelopes, and that has a result when it is terminal. -/
structure Enveloped [Serde] (r : TaskRecord) : Prop where
  result : ∀ text, r.lastResult = some text → validateResume text = .ok ()
  resume : ∀ text, r.resumeInput = some text → validateResume text = .ok ()
  terminal : r.status.terminal = true → r.lastResult.isSome = true

def MemoryState.Enveloped [Serde] (state : MemoryState) : Prop := ∀ r ∈ state.tasks, Memory.Enveloped r

/-- A submission that carries no results: unfinished, and without an input to resume with. -/
structure IsFresh (write : TaskWrite) : Prop where
  unfinished : write.record.status.terminal = false
  result : write.record.lastResult = none
  resume : write.record.resumeInput = none

/-- Root submissions and children carry no results. -/
structure Op.Fresh (op : Op) : Prop where
  submissions : ∀ write ∈ op.submissions, IsFresh write
  children : ∀ commit ∈ op.commits, ∀ write ∈ commit.writes, IsFresh write

section

variable [Serde]

/-- What keeps a text or removes it, and makes nothing terminal. -/
theorem Enveloped.moved {r r' : TaskRecord} (h : Enveloped r)
    (hresult : r'.lastResult = r.lastResult) (hresume : r'.resumeInput = r.resumeInput)
    (hterminal : r'.status.terminal = true → r.status.terminal = true) : Enveloped r' := by
  refine ⟨?_, ?_, fun ht => ?_⟩
  · rw [hresult]; exact h.result
  · rw [hresume]; exact h.resume
  · rw [hresult]; exact h.terminal (hterminal ht)

/-- A move of rows that keeps them enveloped. -/
theorem enveloped_rows {rows rows' : List TaskRecord} (h : ∀ r ∈ rows, Enveloped r)
    (hmove : Rows (fun r r' => Enveloped r → Enveloped r') rows rows') : ∀ r ∈ rows', Enveloped r := by
  intro r' hr'
  obtain ⟨r, hr, hstep⟩ := hmove.mem_right hr'
  exact hstep (h r hr)

/-! ### Concluded and granted executions -/

theorem applyTransition_enveloped (hs : Serde.Documented) {outcome : TaskOutcome} {policy : TaskRetry}
    {now : DateTime} {r t : TaskRecord} {u : Unit} (hr : Enveloped r)
    (h : applyTransition outcome policy now r = (.ok u, t)) : Enveloped t := by
  have hresult : ∀ {text status input}, validateResume text = .ok () →
      (∀ given, input = some given → validateResume given = .ok ()) → ∀ t : TaskRecord,
      t.lastResult = some text → t.resumeInput = input → t.status = status → Enveloped t := by
    intro text status input htext hinput t hlast hresume hstatus
    refine ⟨fun given hg => ?_, fun given hg => hinput given (hresume ▸ hg), fun _ => ?_⟩
    · rw [hlast] at hg
      exact Option.some.inj hg ▸ htext
    · rw [hlast]; rfl
  cases outcome with
  | complete =>
    obtain rfl := Step.modify_ok.mp h
    exact hresult (validateResume_unit hs) hr.resume _ rfl rfl rfl
  | completeWith output =>
    rw [applyTransition] at h
    cases hv : validateOutput output with
    | ok _ =>
      rw [hv] at h
      obtain rfl := Step.modify_ok.mp h
      exact hresult (validateResume_success hs hv) hr.resume _ rfl rfl rfl
    | error e =>
      rw [hv] at h
      obtain rfl := Step.modify_ok.mp h
      exact hresult (validateResume_failure hs r.id _) hr.resume _ rfl rfl rfl
  | suspend state | spawn state _ | all state _ =>
    obtain rfl := Step.modify_ok.mp h
    exact ⟨fun _ hl => (by cases hl), hr.resume, fun ht => (by cases ht)⟩
  | sleep state delay =>
    obtain ⟨deadline, rfl⟩ := sleep_ok h
    exact ⟨fun _ hl => (by cases hl), hr.resume, fun ht => (by cases ht)⟩
  | retry error =>
    have hfailure := validateResume_failure hs r.id error
    rcases retry_ok h with rfl | ⟨deadline, rfl⟩
    · exact hresult hfailure hr.resume _ rfl rfl rfl
    · exact hresult hfailure hr.resume _ rfl rfl rfl
  | fail error =>
    obtain rfl := Step.modify_ok.mp h
    exact hresult (validateResume_failure hs r.id error) hr.resume _ rfl rfl rfl

theorem Concludes.enveloped (hs : Serde.Documented) {conf : TaskStoreConf} {policy : TaskRetry}
    {now : DateTime} {outcome : TaskOutcome} {mark : Bool} {r t : TaskRecord} (hr : Enveloped r)
    (h : Concludes conf policy now outcome (marked mark r) t) : Enveloped t := by
  obtain ⟨applied, ha, hf⟩ := h
  simp only [applyOutcome, Step.bind_ok, Step.modify_ok] at ha
  obtain ⟨_, mid, hm, rfl⟩ := ha
  have hmarked : Enveloped (marked mark r) := hr.moved rfl rfl fun ht => ht
  have hmid := applyTransition_enveloped hs hmarked hm
  obtain ⟨⟨expiry, rfl⟩, -⟩ := finalizeIdempotency_ok hf
  refine ⟨hmid.result, fun text htext => ?_, hmid.terminal⟩
  simp only at htext
  split at htext
  · exact hmid.resume text htext
  · exact nomatch htext

theorem grant_enveloped {node : Uuid} {now : DateTime} {r t : TaskRecord} {u : Unit} (hr : Enveloped r)
    (h : grant node now r = (.ok u, t)) : Enveloped t := by
  obtain ⟨-, -, rfl⟩ := grant_ok.mp h
  exact hr.moved rfl rfl fun ht => nomatch ht

/-! ### The fallible part of a turn -/

/-- Rows and queued deliveries of a turn. -/
structure Turn.Enveloped (turn : Turn) : Prop where
  rows : turn.state.Enveloped
  deliveries : ∀ delivery ∈ turn.deliveries, validateResume delivery.2 = .ok ()

theorem announced_envelope {r : TaskRecord} (hr : Enveloped r) {delivery : Delivery}
    (h : delivery ∈ announced r) : validateResume delivery.2 = .ok () := by
  rw [announced] at h
  cases hp : r.parentId with
  | none => rw [hp] at h; cases h
  | some parent =>
    cases hl : r.lastResult with
    | none => rw [hp, hl] at h; cases h
    | some text =>
      rw [hp, hl] at h
      simp only at h
      split at h
      · rw [List.mem_singleton.mp h]
        exact hr.result text hl
      · cases h

theorem does_enveloped (hs : Serde.Documented) {runner : Option Uuid} {now : DateTime} {turn turn' : Turn}
    {event : Event} (ht : turn.Enveloped) (h : Does runner now turn event turn') : turn'.Enveloped := by
  have hset : ∀ {index : ℕ} {new : TaskRecord}, Enveloped new →
      ∀ r ∈ turn.state.tasks.set index new, Enveloped r := by
    intro index new hnew r hr
    rcases List.mem_or_eq_of_mem_set hr with hr | rfl
    · exact ht.rows r hr
    · exact hnew
  cases h with
  | conclude mark stored active concludes =>
    have hnew := concludes.enveloped hs (ht.rows _ (List.mem_of_getElem? stored))
    refine ⟨hset hnew, fun delivery hd => ?_⟩
    rcases List.mem_append.mp hd with hd | hd
    · exact ht.deliveries delivery hd
    · exact announced_envelope hnew hd
  | grant who stored due wanted granted =>
    refine ⟨hset (grant_enveloped (ht.rows _ (List.mem_of_getElem? stored)) granted), fun delivery hd => ?_⟩
    rw [Turn.write, List.append_nil] at hd
    exact ht.deliveries delivery hd
  | release stored running =>
    have hnew : ∀ old : TaskRecord, Enveloped old →
        Enveloped { old with nodeId := none, updatedAt := now } := fun old h => h.moved rfl rfl fun h => h
    refine ⟨hset (hnew _ (ht.rows _ (List.mem_of_getElem? stored))), fun delivery hd => ?_⟩
    rw [Turn.write, List.append_nil] at hd
    exact ht.deliveries delivery hd
  | coordinate rates locks => exact ⟨ht.rows, ht.deliveries⟩

theorem works_enveloped (hs : Serde.Documented) {runner : Option Uuid} {now : DateTime} {turn turn' : Turn}
    {tasks : List TaskRecord} (ht : turn.Enveloped) (h : Works runner now turn tasks turn') :
    turn'.Enveloped := by
  obtain ⟨events, hrun, -⟩ := h
  exact hrun.inv (fun _ _ _ ht h => does_enveloped hs ht h) ht

/-! ### Settling -/

theorem aggregateMembers_gathers (hs : Serde.Documented) (tasks : List TaskRecord) :
    ∀ (ids : List TaskId) (buffer buffer' : String) (values : List String), Gathers buffer values →
      aggregateMembers tasks buffer ids = .ok buffer' → ∃ values', Gathers buffer' values'
  | [], buffer, buffer', values, hg, h => by
    obtain rfl := Except.ok.inj h
    exact ⟨values, hg⟩
  | id :: ids, buffer, buffer', values, hg, h => by
    rw [aggregateMembers] at h
    split at h
    · exact nomatch h
    · next next hnext =>
      obtain ⟨value, -, -, hvalue⟩ := (appendResult_ok hs hg).mp hnext
      exact aggregateMembers_gathers hs tasks ids next buffer' _ hvalue h

/-- A claimed parent's input is an envelope, complete or not. -/
theorem aggregate_envelope (hs : Serde.Documented) (state : MemoryState) (parent : TaskId)
    (wait : TaskWait) : validateResume (aggregate state parent wait) = .ok () := by
  rw [aggregate]
  split
  · exact validateResume_failure hs parent _
  · split
    · exact validateResume_failure hs parent _
    · next buffer hbuffer =>
      obtain ⟨values, hvalues⟩ := aggregateMembers_gathers hs state.tasks _ _ _ [] gathers_nil hbuffer
      exact hvalues.closed hs

theorem materialized_enveloped (hs : Serde.Documented) (snapshots : List TaskRecord) (state : MemoryState)
    (h : state.Enveloped) : (materialized state snapshots).Enveloped := by
  refine foldl_rel (R := fun s s' : MemoryState => s.Enveloped → s'.Enveloped) (fun _ h => h)
    (fun _ _ _ h h' hs => h' (h hs)) _ snapshots state (fun s t _ hs' => ?_) h
  rcases materializeOne_cases s t with ⟨-, he⟩ | ⟨wait, -, he⟩
  · rw [he]; exact hs'
  · rw [he]
    refine enveloped_rows hs' (modifyFirst_rows _ _ (fun _ h => h) (fun r _ hr => ?_) s.tasks)
    refine ⟨hr.result, fun text htext => ?_, hr.terminal⟩
    obtain rfl := Option.some.inj htext
    exact aggregate_envelope hs s t.id wait

/-- Waking a record with an accepted input, or with the one it has. -/
theorem Enveloped.woken {r : TaskRecord} (h : Enveloped r) {input : Option String} (time now : DateTime)
    (hinput : ∀ text, input = some text → validateResume text = .ok ()) :
    Enveloped (wake now { r with resumeInput := input, updatedAt := time }) :=
  ⟨h.result, hinput, fun ht => nomatch ht⟩

theorem installed_enveloped (now : DateTime) (waits : List (TaskId × TaskWait)) (state : MemoryState)
    (h : state.Enveloped) : (installed now state waits).Enveloped := by
  refine foldl_rel (R := fun s s' : MemoryState => s.Enveloped → s'.Enveloped) (fun _ h => h)
    (fun _ _ _ h h' hs => h' (h hs)) _ waits state (fun s entry _ hs' => ?_) h
  rcases installOne_cases now s entry with ⟨he, -⟩ | ⟨-, he⟩
  · rw [he]; exact hs'
  · rw [he]
    exact enveloped_rows hs'
      (modifyFirst_rows _ _ (fun _ h => h) (fun r _ hr => hr.woken r.updatedAt now hr.resume) s.tasks)

omit [Serde] in
/-- Grouping keeps the texts that were queued. -/
theorem groupDeliveries_texts {P : String → Prop} (deliveries : List Delivery)
    (h : ∀ delivery ∈ deliveries, P delivery.2) : ∀ entry ∈ groupDeliveries deliveries, P entry.2.2 := by
  refine foldl_rel (R := fun g g' : List Grouped => (∀ entry ∈ g, P entry.2.2) → ∀ entry ∈ g', P entry.2.2)
    (fun _ h => h) (fun _ _ _ h h' hg => h' (h hg)) addDelivery deliveries [] (fun g delivery hm hg => ?_)
    fun _ hm => nomatch hm
  have hadd : ∀ g : List Grouped, (∀ entry ∈ g, P entry.2.2) →
      ∀ entry ∈ addDelivery g delivery, P entry.2.2 := by
    intro g
    induction g with
    | nil =>
      intro _ entry he
      rw [List.mem_singleton.mp he]
      exact h delivery hm
    | cons head g ih =>
      intro hg entry he
      have htail : ∀ entry ∈ g, P entry.2.2 := fun entry hm => hg entry (List.mem_cons_of_mem _ hm)
      obtain ⟨key, count, first⟩ := head
      rw [addDelivery] at he
      split at he
      · rcases List.mem_cons.mp he with rfl | he
        · exact hg (key, count, first) List.mem_cons_self
        · exact htail entry he
      · split at he
        · rcases List.mem_cons.mp he with rfl | he
          · exact h delivery hm
          · exact hg entry he
        · rcases List.mem_cons.mp he with rfl | he
          · exact hg _ List.mem_cons_self
          · exact ih htail entry he
  exact hadd g hg

theorem delivered_enveloped (hs : Serde.Documented) (now : DateTime) (grouped : List Grouped)
    (state : MemoryState) (hg : ∀ entry ∈ grouped, validateResume entry.2.2 = .ok ())
    (h : state.Enveloped) : (delivered now state grouped).Enveloped := by
  refine foldl_rel (R := fun s s' : MemoryState => s.Enveloped → s'.Enveloped) (fun _ h => h)
    (fun _ _ _ h h' hs => h' (h hs)) _ grouped state (fun s entry hm hs' => ?_) h
  have hcases := deliverOne_cases now s entry
  generalize deliverOne now s entry = s' at hcases
  cases hcases with
  | nobody hf => exact hs'
  | waiting hf hw hd => exact hs'
  | direct hf hw =>
    refine enveloped_rows hs' (modifyFirst_rows _ _ (fun _ h => h) (fun r _ hr => ?_) s.tasks)
    refine hr.woken now now fun text htext => ?_
    rw [← Option.some.inj htext]
    exact hg entry hm
  | underflow hf hw hd =>
    refine enveloped_rows hs' (modifyFirst_rows _ _ (fun _ h => h) (fun r _ hr => ?_) s.tasks)
    refine hr.woken now now fun text htext => ?_
    rw [← Option.some.inj htext]
    exact validateResume_failure hs entry.1 _
  | settled hf hw hd =>
    exact enveloped_rows hs'
      (modifyFirst_rows _ _ (fun _ h => h) (fun r _ hr => hr.woken now now hr.resume) s.tasks)

theorem settleTurn_enveloped (hs : Serde.Documented) {turn : Turn} {children : List TaskRecord}
    (waits : List (TaskId × TaskWait)) (phases : FMap String LaneOwnerPhase) (poll : TaskPoll)
    (commits : List TaskCommit) (now : DateTime) (ht : turn.Enveloped)
    (hc : ∀ child ∈ children, Enveloped child) :
    (settleTurn turn children waits phases poll commits now).1.Enveloped := by
  obtain ⟨cleared, locks, hsettle⟩ := settleTurn_delivered turn children waits phases poll commits now
  rw [hsettle]
  have hinstalled := installed_enveloped now waits _ (materialized_enveloped hs poll.tasks _ ht.rows)
  have htexts := groupDeliveries_texts (P := fun text => validateResume text = .ok ()) _ ht.deliveries
  refine delivered_enveloped hs now _ _ htexts fun r hr => ?_
  rcases List.mem_append.mp hr with hr | hr
  · exact hinstalled r hr
  · exact hc r hr

/-! ### Operations -/

omit [Serde] in
/-- A fresh submission as a row. -/
theorem IsFresh.stamped [Serde] {write : TaskWrite} (h : IsFresh write) {now : DateTime} {r : TaskRecord}
    (hr : stampWrite write now = .ok r) : Enveloped r := by
  obtain ⟨ready, rfl⟩ := stampWrite_ok hr
  refine ⟨fun text ht => ?_, fun text ht => ?_, fun ht => ?_⟩
  · rw [h.result] at ht; exact nomatch ht
  · rw [h.resume] at ht; exact nomatch ht
  · rw [h.unfinished] at ht; exact nomatch ht

theorem Released.enveloped {now : DateTime} {r r' : TaskRecord} (h : Released now r r')
    (hr : Enveloped r) : Enveloped r' := by
  rcases h with rfl | ⟨-, rfl⟩
  · exact hr
  · exact hr.moved rfl rfl fun ht => ht

theorem Promotes.enveloped {eligible : ℕ → TaskRecord → Prop} {node : Uuid} {now : DateTime} {i : ℕ}
    {rows rows' taken : List TaskRecord} (h : Promotes eligible node now i rows rows' taken)
    (hr : ∀ r ∈ rows, Enveloped r) : ∀ r ∈ rows', Enveloped r := by
  refine enveloped_rows hr (h.moves.imp fun r r' hmove hr => ?_)
  rcases hmove with rfl | ⟨-, hgrant⟩
  · exact hr
  · exact grant_enveloped hr hgrant

variable (store : MemoryTaskStore) {state : MemoryState} (hs : Serde.Documented) (hd : state.Distinct)
  (he : state.Enveloped)

include hs hd he

theorem claimOperation_enveloped (node : Uuid) (claims : List (LaneClaim × Uuid)) (batch : ℕ)
    (lease : Duration) (now : DateTime) :
    (atomicOperation (some node) claims [] batch lease now state).2.Enveloped := by
  rcases claimOperation_cases hd node claims batch lease now with hkept | ⟨turn, poll, hclaims, hsettled⟩
  · rw [hkept]
    exact he
  · have hbegin : state.begin.Enveloped := ⟨he, fun _ hm => nomatch hm⟩
    have hturn := works_enveloped hs hbegin (claimTasksState_works hclaims)
    rw [hsettled]
    exact settleTurn_enveloped hs [] _ poll [] now hturn fun _ hm => nomatch hm

theorem commitOperation_enveloped (commits : List TaskCommit) (batch : ℕ) (lease : Duration)
    (now : DateTime) (hf : ∀ commit ∈ commits, ∀ write ∈ commit.writes, IsFresh write) :
    (atomicOperation none [] commits batch lease now state).2.Enveloped := by
  rcases commitOperation_cases hd commits batch lease now with hkept | ⟨staged, turn, hcommits, hsettled⟩
  · rw [hkept]
    exact he
  · have hbegin : state.begin.Enveloped := ⟨he, fun _ hm => nomatch hm⟩
    have hturn := works_enveloped hs hbegin (hcommits.works none)
    rw [hsettled]
    refine settleTurn_enveloped hs _ _ _ commits now hturn fun child hchild => ?_
    obtain ⟨commit, hm, -, row, -, write, hw, hstamp⟩ := hcommits.staging.adopts.2 child hchild
    have hchild : IsFresh (childWrite row write) :=
      ⟨(hf commit hm write hw).unfinished, (hf commit hm write hw).result, (hf commit hm write hw).resume⟩
    exact hchild.stamped hstamp

omit hs hd in
theorem exec_quiet_enveloped {op : Op} (hop : op.quiet = true) (hf : op.Fresh) :
    (exec store op state).2.Enveloped := by
  have hedit := exec_edits store hop state
  generalize (exec store op state).2 = after at hedit ⊢
  cases hedit with
  | refused | registered => exact he
  | retired =>
    refine enveloped_rows he (rows_map _ _ fun r _ hr => ?_)
    split
    · exact hr.moved rfl rfl fun ht => ht
    · exact hr
  | returned =>
    refine enveloped_rows he (rows_map _ _ fun r _ hr => ?_)
    split
    · refine hr.moved rfl rfl fun ht => ?_
      simp only [returnTask] at ht
      split at ht
      · cases ht
      · exact ht
    · exact hr
  | stored _ _ _ hstamped hwalk =>
    intro r hr
    rcases List.mem_append.mp hr with hr | hr
    · exact he r hr
    · refine hwalk.enveloped (fun t ht => ?_) r hr
      obtain ⟨write, hw, hstamp⟩ := hstamped t ht
      exact (hf.submissions write hw).stamped hstamp
  | reassigned =>
    refine enveloped_rows he (rows_mapIdx _ _ fun index r hr => ?_)
    split
    · exact hr.moved rfl rfl fun ht => ht
    · exact hr
  | @resumed _ _ now _ _ hinput =>
    refine enveloped_rows he (modifyFirst_rows _ _ (fun _ h => h) (fun r _ hr => ?_) state.tasks)
    refine hr.woken now now fun text htext => ?_
    rw [← Option.some.inj htext]
    exact hinput

theorem exec_enveloped {op : Op} (hf : op.Fresh) : (exec store op state).2.Enveloped := by
  cases hop : op.quiet with
  | true => exact exec_quiet_enveloped store he hop hf
  | false =>
    have hdone := exec_performs store hop state
    generalize (exec store op state).2 = after at hdone ⊢
    cases hdone with
    | refused | setUp => exact he
    | claimed => exact claimOperation_enveloped hs hd he _ _ _ _ _
    | committed => exact commitOperation_enveloped hs hd he _ _ _ _ hf.children
    | @admitted _ _ _ now _ _ _ _ _ _ hturn hwalk =>
      have hcommit := commitOperation_enveloped hs hd he op.commits store.commitBatchSize store.leaseDuration
        now hf.children
      rw [hturn] at hcommit
      exact hwalk.enveloped hcommit
    | @recovered now _ staged _ _ cancelled _ hgiven hcancels hturn =>
      have hrows : staged.Enveloped := enveloped_rows he (hgiven.rows.imp fun _ _ h => h.enveloped)
      have hcommit := commitOperation_enveloped hs (hgiven.distinct hd) hrows cancelled store.commitBatchSize
        store.leaseDuration now (childless_of_cancels hcancels)
      rw [hturn] at hcommit
      exact hcommit

end

/-! ### Runs -/

section

variable [Serde] (store : MemoryTaskStore)

/-- CORRECT: in every state reached from submissions that carry no results, whatever runners report, every
    stored result and resume input is an envelope of at most 32 768 bytes that the validator accepts, and
    every terminal task has a result. -/
theorem results_are_envelopes (hs : Serde.Documented) {state : MemoryState}
    (h : Reachable Started (Steps store fun _ op => op.Fresh) state) :
    ∀ r ∈ state.tasks,
      (∀ text, r.lastResult = some text ∨ r.resumeInput = some text →
        text.utf8ByteSize ≤ 32768 ∧ validateResume text = .ok ()) ∧
      (r.status.terminal = true → r.lastResult.isSome = true) := by
  have hinv : state.Distinct ∧ state.Enveloped := by
    refine h.inv (I := fun s => s.Distinct ∧ s.Enveloped) ?_ fun s op s' hi hstep => ?_
    · rintro s ⟨conf, rfl⟩
      exact ⟨List.nodup_nil, fun _ hr => nomatch hr⟩
    · obtain ⟨hf, rfl⟩ := hstep
      exact ⟨(exec_extends store hi.1 op).distinct hi.1, exec_enveloped store hs hi.1 hi.2 hf⟩
  intro r hr
  have henveloped := hinv.2 r hr
  refine ⟨fun text htext => ?_, henveloped.terminal⟩
  have hvalid : validateResume text = .ok () := by
    rcases htext with htext | htext
    · exact henveloped.result text htext
    · exact henveloped.resume text htext
  exact ⟨(validateResume_ok.mp hvalid).1, hvalid⟩

end

/-- Parses that refuse the empty text only. -/
@[reducible] def lenientSerde : Serde where
  rawValueError text := if text = "" then some "EOF while parsing a value" else none
  envelopeError text := if text = "" then some "EOF while parsing a value" else none

attribute [local instance] lenientSerde in
theorem lenientSerde_documented : Serde.Documented := by
  have hnonempty : ∀ text : String, 0 < text.utf8ByteSize → Serde.envelopeError text = none := by
    intro text hpos
    refine if_neg fun hempty => ?_
    rw [hempty] at hpos
    exact nomatch hpos
  refine ⟨rfl, nofun, fun value _ => hnonempty _ ?_, fun id message => hnonempty _ ?_, fun text h => h,
    fun values _ => hnonempty _ ?_⟩
  · have hsize : "\x7d".utf8ByteSize = 1 := by decide
    rw [String.utf8ByteSize_append, hsize]
    omega
  · rw [failureText_size]
    omega
  · have hsize : "]".utf8ByteSize = 1 := by decide
    rw [String.utf8ByteSize_append, hsize]
    omega

/-- Node 7 registers, a task is submitted, claimed and completed. -/
def completedOnce : List Op :=
  [.registerNode 7 1, .storeTasks [plainWrite (freshRecord 1 .work "open")] 2,
    .claimTasks 7 [(⟨⟨"open"⟩, 1, none⟩, 0)] 3,
    .commitTasks [.outcome 7 1 (freshRecord 1 .work "open").id ⟨"open"⟩ .complete none] 4]

theorem completedOnce_fresh : ∀ op ∈ completedOnce, op.Fresh := by
  intro op hm
  simp only [completedOnce, List.mem_cons, List.not_mem_nil, or_false] at hm
  rcases hm with rfl | rfl | rfl | rfl
  · exact ⟨fun _ hw => (nomatch hw), fun _ hm => (nomatch hm)⟩
  · refine ⟨fun write hw => ?_, fun _ hm => (nomatch hm)⟩
    obtain rfl := List.mem_singleton.mp hw
    exact ⟨rfl, rfl, rfl⟩
  · exact ⟨fun _ hw => (nomatch hw), fun _ hm => (nomatch hm)⟩
  · refine ⟨fun _ hw => (nomatch hw), fun commit hm write hw => ?_⟩
    obtain rfl := List.mem_singleton.mp hm
    exact nomatch hw

attribute [local instance] lenientSerde in
theorem results_are_envelopes_one_completion :
    ((MemoryState.new smallConf).execs smallStore completedOnce).tasks.map
        (fun r => (r.status, r.lastResult)) = [(.succeeded, some unitResult)] ∧
      ∀ r ∈ ((MemoryState.new smallConf).execs smallStore completedOnce).tasks,
        (∀ text, r.lastResult = some text ∨ r.resumeInput = some text →
          text.utf8ByteSize ≤ 32768 ∧ validateResume text = .ok ()) ∧
        (r.status.terminal = true → r.lastResult.isSome = true) := by
  refine ⟨by decide, results_are_envelopes smallStore lenientSerde_documented ?_⟩
  exact ⟨_, completedOnce, ⟨smallConf, rfl⟩,
    MemoryState.execs_run smallStore completedOnce _ fun op hm _ => completedOnce_fresh op hm⟩

end Vyuh.Tasks.Memory
