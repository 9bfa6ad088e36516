import Vyuh.Tasks.Store.Memory.RetryRuns

/-! A cancelled record has ended. A cancellation fails its task in the turn that accepts it, and nothing
    else marks a record, so in a store to which unmarked tasks are submitted no record that could still
    be claimed is marked. -/

namespace Vyuh.Tasks.Memory
open Lib

/-- A record marked as cancelled has ended. -/
def Ceased (r : TaskRecord) : Prop := r.cancelled = true → r.status.terminal = true

/-- A rewrite under which a marked record stays ended. -/
def Ceases (r r' : TaskRecord) : Prop := Ceased r → Ceased r'

theorem Ceases.refl (r : TaskRecord) : Ceases r r := fun h => h

theorem Ceases.trans {a b c : TaskRecord} (h : Ceases a b) (h' : Ceases b c) : Ceases a c := fun ha => h' (h ha)

theorem ceased_of_unmarked {r : TaskRecord} (h : r.cancelled = false) : Ceased r := fun hc => by
  rw [h] at hc
  exact nomatch hc

theorem Ceased.unmarked {r : TaskRecord} (h : Ceased r) (hs : r.status.terminal = false) :
    r.cancelled = false := by
  cases hc : r.cancelled with
  | false => rfl
  | true =>
    rw [h hc] at hs
    exact nomatch hs

/-- A rewrite that does not mark and does not revive. -/
theorem Ceases.of_eq {r r' : TaskRecord} (hc : r'.cancelled = r.cancelled)
    (hs : r.status.terminal = true → r'.status.terminal = true) : Ceases r r' := fun h hm => hs (h (hc ▸ hm))

/-- A rewrite of a record that has not ended. -/
theorem Ceases.of_active {r r' : TaskRecord} (hc : r'.cancelled = r.cancelled)
    (hs : r.status.terminal = false) : Ceases r r' := fun h => ceased_of_unmarked (hc.trans (h.unmarked hs))

theorem Released.ceases {now : DateTime} {r r' : TaskRecord} (h : Released now r r') : Ceases r r' := by
  rcases h with rfl | ⟨-, rfl⟩
  · exact .refl r'
  · exact .of_eq rfl fun h => h

theorem grant_ceases {node : Uuid} {now : DateTime} {r r' : TaskRecord} {u : Unit}
    (hs : r.status.terminal = false) (h : grant node now r = (.ok u, r')) : Ceases r r' := by
  obtain ⟨-, -, rfl⟩ := grant_ok.mp h
  exact .of_active rfl hs

/-- All of the rows marked as cancelled have ended. -/
def AllCeased (rows : List TaskRecord) : Prop := ∀ r ∈ rows, Ceased r

theorem AllCeased.moved {rows rows' : List TaskRecord} (h : AllCeased rows) (hmove : Rows Ceases rows rows') :
    AllCeased rows' := by
  intro r' hr'
  obtain ⟨r, hr, hceases⟩ := hmove.mem_right hr'
  exact hceases (h r hr)

theorem AllCeased.append {rows new : List TaskRecord} (h : AllCeased rows) (hn : AllCeased new) :
    AllCeased (rows ++ new) := by
  intro r hr
  rcases List.mem_append.mp hr with hr | hr
  · exact h r hr
  · exact hn r hr

section

variable [Serde] {state : MemoryState} {now : DateTime}

/-! ### Claim turns -/

variable {node : Uuid} {conf : TaskStoreConf} {lease : Duration} {turn turn' : Turn} {poll : LanePoll}

/-- A claim leaves each row alone, fails it, or grants it. -/
theorem Serves.ceases {w : LaneWindow} {permits : ℕ} {rateWake : Option Duration}
    (h : Serves node conf w permits rateWake turn poll turn') :
    Rows Ceases turn.state.tasks turn'.state.tasks := by
  refine h.moves.imp fun r r' hr => ?_
  rcases hr with rfl | hended | ⟨hgrant, i, hi, hrow⟩
  · exact .refl r'
  · intro _ _
    rw [hended.failed.1]
    rfl
  · obtain ⟨-, hdue⟩ := LaneWindow.queue_due ((selected_sublist _ _ _ _).subset hi) hrow
    exact grant_ceases (not_terminal_of_active (isActive_of_isDue hdue)) hgrant

theorem claimOne_ceases {entry : LaneClaim × Uuid} (hconf : turn.state.conf = some conf)
    (h : claimOne node conf lease now entry turn = (.ok poll, turn')) :
    Rows Ceases turn.state.tasks turn'.state.tasks := by
  obtain ⟨laneConf, -, ⟨-, permits, rateWake, hserves⟩ | ⟨-, hidles⟩⟩ := claimOne_serves hconf h
  · exact hserves.ceases
  · exact hidles.rows.imp fun _ _ h => h.ceases

/-! ### Settling -/

omit [Serde] in
/-- What installing waits leaves of each row: the row, or the row woken as the parent of an empty group. -/
theorem installed_woken (now : DateTime) (state : MemoryState) (waits : List (TaskId × TaskWait)) :
    Rows (fun r r' => r' = r ∨ r' = wake now r ∧ r.id ∈ waits.map (·.1)) state.tasks
      (installed now state waits).tasks := by
  refine foldl_rel (R := fun s s' : MemoryState => Rows (fun r r' => r' = r ∨
    r' = wake now r ∧ r.id ∈ waits.map (·.1)) s.tasks s'.tasks) (fun s => rows_refl (fun _ => .inl rfl) _)
    (fun a b c => rows_trans fun r r' r'' h h' => ?_) _ waits state fun s entry hm => ?_
  · rcases h with rfl | ⟨rfl, hid⟩
    · exact h'
    · rcases h' with rfl | ⟨rfl, -⟩ <;> exact .inr ⟨rfl, hid⟩
  · rcases installOne_cases now s entry with ⟨he, -⟩ | ⟨-, he⟩ <;> rw [he]
    · exact rows_refl (fun _ => .inl rfl) _
    · refine modifyFirst_rows _ _ (fun _ => .inl rfl) (fun r hr => .inr ⟨rfl, ?_⟩) s.tasks
      rw [of_decide_eq_true hr]
      exact List.mem_map_of_mem hm

omit [Serde] in
theorem delivered_ceases (now : DateTime) (state : MemoryState) (grouped : List Grouped) :
    Rows Ceases state.tasks (delivered now state grouped).tasks := by
  refine foldl_rel (R := fun s s' : MemoryState => Rows Ceases s.tasks s'.tasks)
    (fun s => rows_refl Ceases.refl _) (fun a b c => rows_trans fun _ _ _ h h' => h.trans h') _ grouped state
    fun s entry _ => ?_
  have hunmarked : ∀ {id : TaskId} {r : TaskRecord}, awaits id r = true → r.cancelled = false := by
    intro id r h
    simp only [awaits, Bool.and_eq_true, Bool.not_eq_true'] at h
    exact h.1.2
  have h := deliverOne_cases now s entry
  generalize deliverOne now s entry = s' at h
  cases h with
  | nobody hf => exact rows_refl Ceases.refl _
  | waiting hf hw hd => exact rows_refl Ceases.refl _
  | direct hf hw | underflow hf hw hd | settled hf hw hd =>
    refine modifyFirst_rows (awaits entry.1) _ Ceases.refl (fun r hr _ => ?_) s.tasks
    have hcancelled := hunmarked hr
    exact ceased_of_unmarked hcancelled

/-- Settling revives no cancelled record. -/
theorem settleTurn_ceases (turn : Turn) (children : List TaskRecord) (waits : List (TaskId × TaskWait))
    (phases : FMap String LaneOwnerPhase) (poll : TaskPoll) (commits : List TaskCommit) (now : DateTime)
    (h : Installable waits turn.state.tasks) : Rows Ceases (turn.state.tasks ++ children)
      (settleTurn turn children waits phases poll commits now).1.tasks := by
  obtain ⟨cleared, locks, hs⟩ := settleTurn_delivered turn children waits phases poll commits now
  have hmaterialized := materialized_rows poll.tasks turn.state
  have hinstalled := installed_woken now (materialized turn.state poll.tasks) waits
  have hrows : Rows Ceases turn.state.tasks
      (installed now (materialized turn.state poll.tasks) waits).tasks := by
    refine Rows.imp_mem (hmaterialized.comp hinstalled) fun r hr r' hmoved => ?_
    obtain ⟨mid, hinput, hwoken⟩ := hmoved
    have hmid : Ceases r mid ∧ mid.id = r.id ∧ mid.status = r.status := by
      rcases hinput with rfl | ⟨-, input, rfl⟩
      · exact ⟨.refl mid, rfl, rfl⟩
      · exact ⟨.of_eq rfl fun h => h, rfl, rfl⟩
    obtain ⟨hceases, hid, hstatus⟩ := hmid
    refine hceases.trans ?_
    rcases hwoken with rfl | ⟨rfl, hm⟩
    · exact .refl r'
    · obtain ⟨entry, he, hentry⟩ := List.mem_map.mp hm
      have hsuspended := h.suspended entry he r hr (hid.symm.trans hentry.symm)
      exact .of_active rfl (by rw [hstatus, hsuspended]; rfl)
  have hdelivered := delivered_ceases now
    ((installed now (materialized turn.state poll.tasks) waits).adopt children)
    (groupDeliveries turn.deliveries)
  rw [hs]
  exact rows_trans (fun _ _ _ h h' => h.trans h') (hrows.append (rows_refl Ceases.refl children)) hdelivered

/-! ### Turns -/

theorem claimOperation_ceased (hd : state.Distinct) (h : AllCeased state.tasks) (node : Uuid)
    (claims : List (LaneClaim × Uuid)) (batch : ℕ) (lease : Duration) (now : DateTime) :
    AllCeased (atomicOperation (some node) claims [] batch lease now state).2.tasks := by
  rcases claimOperation_cases hd node claims batch lease now with hkept | ⟨turn, poll, hclaims, hsettled⟩
  · rw [hkept]
    exact h
  · rw [hsettled]
    obtain ⟨conf, hconf, hcollect⟩ := claimTasksState_ok hclaims
    have hworks : Rows Ceases state.tasks turn.state.tasks :=
      collect_rows Ceases.refl (fun _ _ _ h h' => h.trans h') claimOne_ceases claims _ _ _ hconf hcollect
    have hsettle := settleTurn_ceases turn [] [] state.phases poll [] now ⟨List.nodup_nil, fun _ he => nomatch he⟩
    rw [List.append_nil] at hsettle
    exact (h.moved hworks).moved hsettle

/-- The next version of a row a commit was accepted on: a cancellation fails it, and nothing else marks. -/
theorem Transitioned.ceased {commit : TaskCommit} {row task : TaskRecord} {lane : TaskLaneConf}
    {outcome : TaskOutcome} (h : Transitioned state now commit row conf lane outcome task) : Ceased task := by
  intro hc
  have hmarked : (marked commit.isCancel row).cancelled = true := h.concludes.concluded.cancelled.symm.trans hc
  have hconcludes := h.concludes
  rw [h.cancelled hmarked] at hconcludes
  rw [concludes_cancellation hconcludes]
  rfl

omit [Serde] in
theorem mem_overwrite : ∀ {updates : List (ℕ × TaskRecord)} {rows : List TaskRecord} {r : TaskRecord},
    r ∈ overwrite updates rows → r ∈ rows ∨ ∃ update ∈ updates, update.2 = r
  | [], _, _, h => .inl h
  | update :: updates, rows, r, h => by
    rw [overwrite, List.foldl_cons, ← overwrite] at h
    rcases mem_overwrite h with hr | ⟨later, hm, he⟩
    · rcases List.mem_or_eq_of_mem_set hr with hr | rfl
      · exact .inl hr
      · exact .inr ⟨update, List.mem_cons_self, rfl⟩
    · exact .inr ⟨later, List.mem_cons_of_mem _ hm, he⟩

/-- A commit turn over unmarked children. -/
theorem commitOperation_ceased (hd : state.Distinct) (h : AllCeased state.tasks) {commits : List TaskCommit}
    (hf : ∀ commit ∈ commits, ∀ write ∈ commit.writes, write.record.cancelled = false) (batch : ℕ)
    (lease : Duration) (now : DateTime) :
    AllCeased (atomicOperation none [] commits batch lease now state).2.tasks := by
  rcases commitOperation_cases hd commits batch lease now with hkept | ⟨staged, turn, hcommits, hsettled⟩
  · rw [hkept]
    exact h
  · rw [hsettled]
    have hwritten : AllCeased turn.state.tasks := by
      intro r hr
      rw [hcommits.result] at hr
      rcases mem_overwrite hr with hr | ⟨update, hu, rfl⟩
      · exact h r hr
      · rcases hcommits.staging.updated update hu with hu | ⟨commit, -, row, -, conf, lane, outcome, ht⟩
        · exact nomatch hu
        · exact ht.ceased
    have hchildren : AllCeased staged.children := by
      intro child hchild
      obtain ⟨commit, hm, -, row, -, write, hw, hstamp⟩ := hcommits.staging.adopts.2 child hchild
      obtain ⟨ready, rfl⟩ := childStamp hstamp
      exact ceased_of_unmarked (hf commit hm write hw)
    exact (hwritten.append hchildren).moved
      (settleTurn_ceases _ _ _ _ _ _ _ (hcommits.installable hd))

/-! ### Operations -/

/-- An operation of a framework whose new tasks are not marked. -/
structure Unmarked (state : MemoryState) (op : Op) : Prop where
  submissions : ∀ write ∈ op.submissions, write.record.cancelled = false
  children : ∀ commit ∈ op.commits, ∀ write ∈ commit.writes, write.record.cancelled = false

omit [Serde] in
/-- Promotions of pending rows. -/
theorem Promotes.ceases {eligible : ℕ → TaskRecord → Prop} {i : ℕ} {rows rows' taken : List TaskRecord}
    (h : Promotes eligible node now i rows rows' taken) (hp : ∀ j r, eligible j r → r.status = .pending) :
    Rows Ceases rows rows' := by
  refine h.moves.imp fun r r' hr => ?_
  rcases hr with rfl | ⟨⟨j, hready⟩, hgrant⟩
  · exact .refl r'
  · exact grant_ceases (by rw [hp j r hready]; rfl) hgrant

omit [Serde] in
/-- Unmarked submissions. -/
theorem ceased_stamped (now : DateTime) {writes : List TaskWrite} {staged : List TaskRecord}
    (hf : ∀ write ∈ writes, write.record.cancelled = false) (h : StampedFrom writes now staged) :
    AllCeased staged := by
  intro t ht
  obtain ⟨write, hw, hstamp⟩ := h t ht
  obtain ⟨ready, rfl⟩ := stampWrite_ok hstamp
  exact ceased_of_unmarked (hf write hw)

variable (store : MemoryTaskStore)

theorem exec_quiet_ceased {op : Op} (hop : op.quiet = true) (hcall : Unmarked state op)
    (h : AllCeased state.tasks) : AllCeased (exec store op state).2.tasks := by
  have hedit := exec_edits store hop state
  generalize (exec store op state).2 = after at hedit ⊢
  cases hedit with
  | refused | registered => exact h
  | retired =>
    refine h.moved (rows_map _ _ fun r _ => ?_)
    split
    · exact .of_eq rfl fun h => h
    · exact .refl r
  | returned =>
    refine h.moved (rows_map _ _ fun r _ => ?_)
    split
    · refine .of_eq rfl fun hterminal => ?_
      have hstopped : r.status ≠ .running := fun he => by
        rw [he] at hterminal
        cases hterminal
      rw [returnTask, if_neg hstopped]
      exact hterminal
    · exact .refl r
  | @stored _ now _ _ _ _ _ _ _ hstamped hwalk =>
    refine h.append ((ceased_stamped now hcall.submissions hstamped).moved
      (hwalk.ceases fun j r hready => ?_))
    obtain ⟨-, conf, -, hdirect⟩ := hready
    exact direct_pending hdirect
  | reassigned =>
    refine h.moved (rows_mapIdx _ _ fun i r => ?_)
    split
    · exact .of_eq rfl fun h => h
    · exact .refl r
  | resumed _ _ hfound hlive =>
    exact h.moved (rows_modifyFound Ceases.refl hfound fun _ => ceased_of_unmarked hlive)

theorem exec_ceased (hd : state.Distinct) {op : Op} (hcall : Unmarked state op) (h : AllCeased state.tasks) :
    AllCeased (exec store op state).2.tasks := by
  cases hop : op.quiet with
  | true => exact exec_quiet_ceased store hop hcall h
  | false =>
    have hdone := exec_performs store hop state
    generalize (exec store op state).2 = after at hdone ⊢
    cases hdone with
    | refused => exact h
    | setUp ratesNow hconf => exact h
    | claimed _ => exact claimOperation_ceased hd h _ _ _ _ _
    | committed ht => exact commitOperation_ceased hd h hcall.children _ _ _
    | @admitted _ _ _ now _ _ _ _ _ _ hturn hwalk =>
      have hcommit := commitOperation_ceased hd h hcall.children store.commitBatchSize store.leaseDuration now
      rw [hturn] at hcommit
      refine hcommit.moved (hwalk.ceases fun j r hready => ?_)
      obtain ⟨conf, -, hadmissible⟩ := hready
      simp only [admissible, Bool.and_eq_true] at hadmissible
      exact direct_pending hadmissible.2
    | @recovered now _ staged _ _ cancelled _ hgiven hcancels hturn =>
      have hcommit := commitOperation_ceased (hgiven.distinct hd)
        (h.moved (hgiven.rows.imp fun _ _ h => h.ceases))
          (childless_of_cancels hcancels) store.commitBatchSize store.leaseDuration now
      rw [hturn] at hcommit
      exact hcommit

/-- In every state reached by unmarked submissions, a cancelled record has ended. -/
theorem reachable_ceased (h : Reachable Started (Steps store Unmarked) state) : AllCeased state.tasks := by
  refine (h.inv (I := fun s => s.Distinct ∧ AllCeased s.tasks) ?_ ?_).2
  · rintro _ ⟨conf, rfl⟩
    exact ⟨List.nodup_nil, fun _ hr => nomatch hr⟩
  · rintro s op s' ⟨hd, hc⟩ ⟨hcall, rfl⟩
    exact ⟨(exec_extends store hd op).distinct hd, exec_ceased store hd hcall hc⟩

end

end Vyuh.Tasks.Memory
