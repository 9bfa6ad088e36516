import Vyuh.Tasks.Store.Memory.Settling
import Vyuh.Tasks.Store.Memory.Submissions
import Vyuh.Tasks.Store.Memory.Turns

/-! How stored records evolve. `Evolves` collects what every rewrite of a record respects, whichever
    operation makes it: identity and key stay, `attempts` never goes down and pays for every new owner,
    nothing starts to hold a key it did not hold. `Steady` adds that a terminal record is not rewritten
    at all. Both are closed under composition, so an operation respects them when each of its loops
    does. -/

namespace Vyuh.Tasks.Memory
open Lib

variable {r : TaskRecord} {commits : List TaskCommit}

/-- Only a running record has an owner. -/
def Owned (r : TaskRecord) : Prop := r.nodeId.isSome = true → r.status = .running

/-- What every rewrite respects. New owners satisfy `grantee`, update times are old or `clock`'s. -/
structure Evolves (grantee : Uuid → Prop) (clock : DateTime → Prop) (r r' : TaskRecord) : Prop where
  id : r'.id = r.id
  parentId : r'.parentId = r.parentId
  name : r'.name = r.name
  key : r'.idempotencyKey = r.idempotencyKey
  attempts : r.attempts ≤ r'.attempts
  owner : r.attempts = r'.attempts → r'.nodeId = r.nodeId ∨ r'.nodeId = none
  granted : ∀ node, r'.nodeId = some node → r.nodeId = some node ∨ grantee node
  owned : Owned r → Owned r'
  held : ∀ time, idempotencyHeld r' time = true → idempotencyHeld r time = true
  updated : r'.updatedAt = r.updatedAt ∨ clock r'.updatedAt

/-- An evolution that leaves terminal records alone. -/
structure Steady (grantee : Uuid → Prop) (clock : DateTime → Prop) (r r' : TaskRecord) : Prop extends
    Evolves grantee clock r r' where
  terminal : Owned r → r.status.terminal = true → r' = r

section

variable {grantee : Uuid → Prop} {clock : DateTime → Prop}

theorem Evolves.refl (r : TaskRecord) : Evolves grantee clock r r where
  id := rfl
  parentId := rfl
  name := rfl
  key := rfl
  attempts := le_refl _
  owner _ := .inl rfl
  granted _ h := .inl h
  owned h := h
  held _ h := h
  updated := .inl rfl

theorem Evolves.trans {a b c : TaskRecord} (h : Evolves grantee clock a b)
    (h' : Evolves grantee clock b c) : Evolves grantee clock a c where
  id := h'.id.trans h.id
  parentId := h'.parentId.trans h.parentId
  name := h'.name.trans h.name
  key := h'.key.trans h.key
  attempts := le_trans h.attempts h'.attempts
  owner heq := by
    have hab : a.attempts = b.attempts := le_antisymm h.attempts (heq ▸ h'.attempts)
    rcases h'.owner (hab ▸ heq) with hn | hn
    · rw [hn]
      exact h.owner hab
    · exact .inr hn
  granted node hn := by
    rcases h'.granted node hn with hb | hg
    · exact h.granted node hb
    · exact .inr hg
  owned ho := h'.owned (h.owned ho)
  held time ht := h.held time (h'.held time ht)
  updated := by
    rcases h'.updated with hu | hu
    · rw [hu]
      exact h.updated
    · exact .inr hu

theorem Steady.refl (r : TaskRecord) : Steady grantee clock r r := ⟨Evolves.refl r, fun _ _ => rfl⟩

theorem Steady.trans {a b c : TaskRecord} (h : Steady grantee clock a b)
    (h' : Steady grantee clock b c) : Steady grantee clock a c := by
  refine ⟨h.toEvolves.trans h'.toEvolves, fun ho ht => ?_⟩
  obtain rfl := h.terminal ho ht
  exact h'.terminal ho ht

/-- Widening the owners and times allowed. -/
theorem Evolves.mono {grantee' : Uuid → Prop} {clock' : DateTime → Prop} {r r' : TaskRecord}
    (h : Evolves grantee clock r r') (hg : ∀ node, grantee node → grantee' node)
    (hc : ∀ time, clock time → clock' time) : Evolves grantee' clock' r r' :=
  { h with
    granted := fun node hn => (h.granted node hn).imp_right (hg node)
    updated := h.updated.imp_right (hc _) }

theorem Steady.mono {grantee' : Uuid → Prop} {clock' : DateTime → Prop} {r r' : TaskRecord}
    (h : Steady grantee clock r r') (hg : ∀ node, grantee node → grantee' node)
    (hc : ∀ time, clock time → clock' time) : Steady grantee' clock' r r' :=
  ⟨h.toEvolves.mono hg hc, h.terminal⟩

/-! ### The rewrites -/

theorem idempotencyHeld_of_active (h : isActive r.status = true) (time : DateTime) :
    idempotencyHeld r time = true := by
  rw [idempotencyHeld, h, Bool.true_or]

theorem not_terminal_of_active {status : TaskStatus} (h : isActive status = true) :
    status.terminal = false := by
  cases status <;> first | rfl | exact nomatch h

/-- Concluding an execution: the owner goes, the attempt stays spent. -/
theorem steady_conclude [Serde] {conf : TaskStoreConf} {policy : TaskRetry} {now : DateTime}
    {outcome : TaskOutcome} {mark : Bool} {r t : TaskRecord} (hactive : isActive r.status = true)
    (h : Concludes conf policy now outcome (marked mark r) t) : Steady grantee (· = now) r t := by
  have hc := h.concluded
  refine ⟨⟨hc.id, hc.parentId, hc.name, hc.idempotencyKey, hc.attempts.ge, fun _ => .inr hc.owner,
    fun node hn => ?_, fun _ hn => ?_, fun time _ => idempotencyHeld_of_active hactive time,
    .inr hc.updated⟩, fun _ ht => ?_⟩
  · rw [hc.owner] at hn; exact nomatch hn
  · rw [hc.owner] at hn; exact nomatch hn
  · rw [not_terminal_of_active hactive] at ht; exact nomatch ht

/-- Granting an execution: one more attempt, a new owner. -/
theorem steady_grant {node : Uuid} {now : DateTime} {r t : TaskRecord} {u : Unit}
    (hactive : isActive r.status = true) (h : grant node now r = (.ok u, t)) :
    Steady (· = node) (· = now) r t := by
  obtain ⟨-, -, rfl⟩ := grant_ok.mp h
  have hlt : r.attempts < r.attempts + 1 := by omega
  refine ⟨⟨rfl, rfl, rfl, rfl, hlt.le, fun he => absurd he hlt.ne, fun n hn => .inr ?_, fun _ _ => rfl,
    fun time _ => idempotencyHeld_of_active hactive time, .inr rfl⟩, fun _ ht => ?_⟩
  · exact (Option.some.inj hn).symm
  · rw [not_terminal_of_active hactive] at ht; exact nomatch ht

/-- Clearing the owner and moving the update time or the lane: what release, return, retirement and
    reassignment have in common. The status may only go back from running to pending. -/
theorem steady_clear {r : TaskRecord} {lane : String} {status : TaskStatus} {ready : Option DateTime}
    {time : DateTime} (hs : status = r.status ∨ (r.status = .running ∧ status = .pending))
    (ht : time = r.updatedAt ∨ clock time)
    (hterm : Owned r → r.status.terminal = true →
      { r with lane := lane, status := status, readyAt := ready, nodeId := none, updatedAt := time } = r) :
    Steady grantee clock r
      { r with lane := lane, status := status, readyAt := ready, nodeId := none, updatedAt := time } := by
  refine ⟨⟨rfl, rfl, rfl, rfl, le_refl _, fun _ => .inr rfl, fun _ hn => (nomatch hn),
    fun _ hn => (nomatch hn), fun t hheld => ?_, ht⟩, hterm⟩
  rcases hs with rfl | ⟨hr, rfl⟩
  · exact hheld
  · exact idempotencyHeld_of_active (by rw [hr]; rfl) t

/-- Waking a suspended record, with or without new input. -/
theorem steady_wake {input : Option String} {ready : Option DateTime} {time : DateTime}
    (hs : r.status = .suspended) (ht : time = r.updatedAt ∨ clock time) :
    Steady grantee clock r
      { r with status := .pending, resumeInput := input, readyAt := ready, updatedAt := time } := by
  refine ⟨⟨rfl, rfl, rfl, rfl, le_refl _, fun _ => .inl rfl, fun _ hn => .inl hn, fun ho hn => ?_,
    fun t _ => idempotencyHeld_of_active (by rw [hs]; rfl) t, ht⟩, fun _ hterm => ?_⟩
  · have := ho hn
    rw [hs] at this
    exact nomatch this
  · rw [hs] at hterm; exact nomatch hterm

/-- Storing a resume input changes nothing else. -/
theorem evolves_input (r : TaskRecord) (input : Option String) :
    Evolves grantee clock r { r with resumeInput := input } :=
  ⟨rfl, rfl, rfl, rfl, le_refl _, fun _ => .inl rfl, fun _ hn => .inl hn, fun h => h, fun _ h => h,
    .inl rfl⟩

/-! ### The fallible part of a turn -/

section Turns

variable [Serde] {runner : Option Uuid} {now : DateTime} {turn turn' : Turn} {tasks : List TaskRecord}

theorem does_rows {event : Event} (h : Does runner now turn event turn') :
    Rows (Steady (fun node => runner = some node) (· = now)) turn.state.tasks turn'.state.tasks := by
  cases h with
  | conclude mark stored active concludes =>
    exact rows_set Steady.refl _ _ _ _ stored (steady_conclude active concludes)
  | grant who stored due wanted granted =>
    refine rows_set Steady.refl _ _ _ _ stored ?_
    exact (steady_grant (isActive_of_isDue due) granted).mono (fun node hn => hn ▸ who) fun _ ht => ht
  | release stored running =>
    refine rows_set Steady.refl _ _ _ _ stored (steady_clear (.inl rfl) (.inr rfl) fun _ ht => ?_)
    rw [running] at ht; exact nomatch ht
  | coordinate rates locks => exact rows_refl Steady.refl _

theorem works_rows (h : Works runner now turn tasks turn') :
    Rows (Steady (fun node => runner = some node) (· = now)) turn.state.tasks turn'.state.tasks := by
  obtain ⟨events, hrun, -⟩ := h
  induction hrun with
  | nil turn => exact rows_refl Steady.refl _
  | cons first rest ih => exact rows_trans (fun _ _ _ h h' => h.trans h') (does_rows first) ih

theorem works_frame (h : Works runner now turn tasks turn') :
    SameFrame turn.state turn'.state ∧ turn'.state.waits = turn.state.waits := by
  obtain ⟨events, hrun, -⟩ := h
  induction hrun with
  | nil turn => exact ⟨SameFrame.refl _, rfl⟩
  | @cons turn turn₁ turn₂ event events first rest ih =>
    have hone : SameFrame turn.state turn₁.state ∧ turn₁.state.waits = turn.state.waits := by
      cases first <;> exact ⟨⟨rfl, rfl, rfl⟩, rfl⟩
    exact ⟨hone.1.trans ih.1, ih.2.trans hone.2⟩

/-- Whatever a turn granted was not terminal when the turn began. -/
theorem works_granted (h : Works runner now turn tasks turn') :
    ∀ t ∈ tasks, ∃ r ∈ turn.state.tasks, r.id = t.id ∧ (Owned r → r.status.terminal = false) := by
  obtain ⟨events, hrun, rfl⟩ := h
  induction hrun with
  | nil turn => exact fun t ht => nomatch ht
  | @cons turn turn₁ turn₂ event events first rest ih =>
    have hlater : ∀ t ∈ grants events,
        ∃ r ∈ turn.state.tasks, r.id = t.id ∧ (Owned r → r.status.terminal = false) := by
      intro t ht
      obtain ⟨r₁, hr₁, hid, hterm⟩ := ih t ht
      obtain ⟨r, hr, hsteady⟩ := (does_rows first).mem_right hr₁
      refine ⟨r, hr, hsteady.id ▸ hid, fun ho => ?_⟩
      cases hs : r.status.terminal with
      | false => rfl
      | true =>
        obtain rfl := hsteady.terminal ho hs
        rw [← hs]
        exact hterm ho
    cases first with
    | grant who stored due wanted granted =>
      intro t ht
      rcases List.mem_cons.mp ht with rfl | ht
      · refine ⟨_, List.mem_of_getElem? stored, (steady_grant (isActive_of_isDue due) granted).id.symm,
          fun _ => not_terminal_of_active (isActive_of_isDue due)⟩
      · exact hlater t ht
    | conclude mark stored active concludes => exact hlater
    | release stored running => exact hlater
    | coordinate rates locks => exact hlater

end Turns

/-! ### Settling -/

section Settles

variable {now : DateTime}

theorem awaits_suspended {id : TaskId} (h : awaits id r = true) :
    r.status = .suspended := by
  simp only [awaits, Bool.and_eq_true, decide_eq_true_eq] at h
  exact h.2

theorem delivered_rows (state : MemoryState) (grouped : List Grouped) :
    Rows (Steady grantee (· = now)) state.tasks (delivered now state grouped).tasks := by
  refine foldl_rel (R := fun s s' : MemoryState => Rows (Steady grantee (· = now)) s.tasks s'.tasks)
    (fun s => rows_refl Steady.refl s.tasks) (fun a b c => rows_trans fun _ _ _ h h' => h.trans h')
    _ grouped state fun s entry _ => ?_
  have h := deliverOne_cases now s entry
  generalize deliverOne now s entry = s' at h
  cases h with
  | nobody hf => exact rows_refl Steady.refl _
  | waiting hf hw hd => exact rows_refl Steady.refl _
  | direct hf hw | underflow hf hw hd | settled hf hw hd =>
    refine modifyFirst_rows (awaits entry.1) _ Steady.refl (fun r hr => ?_) s.tasks
    exact steady_wake (awaits_suspended hr) (.inr rfl)

/-- The rows of every wait to install are suspended, and no wait is there twice. -/
structure Installable (waits : List (TaskId × TaskWait)) (rows : List TaskRecord) : Prop where
  distinct : (waits.map (·.1)).Nodup
  suspended : ∀ entry ∈ waits, ∀ r ∈ rows, r.id = entry.1 → r.status = .suspended

theorem installed_rows : ∀ (waits : List (TaskId × TaskWait)) (state : MemoryState),
    Installable waits state.tasks →
      Rows (Steady grantee clock) state.tasks (installed now state waits).tasks
  | [], state, _ => rows_refl Steady.refl _
  | entry :: waits, state, h => by
    have hn := h.distinct
    rw [List.map_cons, List.nodup_cons] at hn
    rw [installed, List.foldl_cons, ← installed]
    have hone : Rows (fun r r' => Steady grantee clock r r' ∧ (r.id ≠ entry.1 → r' = r)) state.tasks
        (installOne now state entry).tasks := by
      rcases installOne_cases now state entry with ⟨he, -⟩ | ⟨-, he⟩
      · rw [he]
        exact rows_refl (fun r => ⟨Steady.refl r, fun _ => rfl⟩) _
      · rw [he]
        refine Rows.of_modifyFirst _ _ (fun r => ⟨Steady.refl r, fun _ => rfl⟩) _ fun r hr hp => ?_
        have hid : r.id = entry.1 := of_decide_eq_true hp
        exact ⟨steady_wake (h.suspended entry List.mem_cons_self r hr hid) (.inl rfl),
          fun hne => absurd hid hne⟩
    refine rows_trans (fun _ _ _ h h' => h.trans h') (hone.imp fun _ _ h => h.1)
      (installed_rows waits _ ⟨hn.2, fun other ho r hr hid => ?_⟩)
    obtain ⟨r₀, hr₀, hsteady, hsame⟩ := hone.mem_right hr
    have hid₀ : r₀.id = other.1 := hsteady.id ▸ hid
    obtain rfl := hsame fun he => hn.1 (by
      rw [← he, hid₀]
      exact List.mem_map_of_mem ho)
    exact h.suspended other (List.mem_cons_of_mem _ ho) r hr₀ hid

/-- Settling rewrites inputs of claimed parents, then moves rows steadily and stores the children. -/
theorem settled_rows [Serde] (grantee : Uuid → Prop) (turn : Turn) (children : List TaskRecord)
    (waits : List (TaskId × TaskWait)) (phases : FMap String LaneOwnerPhase) (poll : TaskPoll)
    (commits : List TaskCommit) (now : DateTime) (h : Installable waits turn.state.tasks) :
    ∃ moved fresh, (settleTurn turn children waits phases poll commits now).1.tasks = moved ++ fresh ∧
      Rows (fun r r' => ∃ m, Inputs (poll.tasks.map (·.id)) r m ∧ Steady grantee (· = now) m r')
        turn.state.tasks moved ∧
      Rows (Steady grantee (· = now)) children fresh := by
  obtain ⟨cleared, locks, hs⟩ := settleTurn_delivered turn children waits phases poll commits now
  have hinputs := materialized_rows poll.tasks turn.state
  have hinst : Rows (Steady grantee (· = now)) (materialized turn.state poll.tasks).tasks
      (installed now (materialized turn.state poll.tasks) waits).tasks := by
    refine installed_rows waits _ ⟨h.distinct, fun entry he r hr hid => ?_⟩
    obtain ⟨r₀, hr₀, hin⟩ := hinputs.mem_right hr
    rcases hin with rfl | ⟨-, input, rfl⟩
    · exact h.suspended entry he r hr₀ hid
    · exact h.suspended entry he r₀ hr₀ hid
  have hdel : Rows (Steady grantee (· = now)) _ _ := delivered_rows
    ((installed now (materialized turn.state poll.tasks) waits).adopt children)
    (groupDeliveries turn.deliveries)
  obtain ⟨moved, fresh, heq, hmoved, hfresh⟩ := hdel.split
  refine ⟨moved, fresh, ?_, ?_, hfresh⟩
  · rw [hs]
    exact heq
  · have hsteady := rows_trans (fun _ _ _ h h' => h.trans h') hinst hmoved
    exact hinputs.comp hsteady

end Settles

end

/-! ### Whole turns -/

/-- New rows: none, or a batch staged against the rows that were there. -/
def Stores (clock : DateTime → Prop) (existing origins : List TaskRecord) : Prop :=
  origins = [] ∨ ∃ now, clock now ∧ Batch existing now origins

/-- What an operation may leave of a table: the old rows, moved steadily, and behind them a batch of
    new rows, moved steadily from what was staged. -/
structure Extends (grantee : Uuid → Prop) (clock : DateTime → Prop) (fresh : TaskRecord → Prop)
    (state state' : MemoryState) : Prop where
  conf : state'.conf = state.conf
  rows : ∃ moved origins new, state'.tasks = moved ++ new ∧
    Rows (Steady grantee clock) state.tasks moved ∧ Rows (Steady grantee clock) origins new ∧
    Stores clock state.tasks origins ∧ ∀ t ∈ origins, fresh t

section

variable {grantee : Uuid → Prop} {clock : DateTime → Prop} {fresh : TaskRecord → Prop}
  {s s' s'' : MemoryState}

/-- An operation that stores nothing new. -/
theorem Extends.of_rows (hc : s'.conf = s.conf) (h : Rows (Steady grantee clock) s.tasks s'.tasks) :
    Extends grantee clock fresh s s' :=
  ⟨hc, s'.tasks, [], [], (List.append_nil _).symm, h, .nil, .inl rfl, fun _ hm => nomatch hm⟩

theorem Extends.refl (s : MemoryState) : Extends grantee clock fresh s s :=
  .of_rows rfl (rows_refl Steady.refl _)

/-- An operation with no row to store stores none. -/
theorem Extends.rows_only (h : Extends grantee clock (fun _ => False) s s') :
    Rows (Steady grantee clock) s.tasks s'.tasks := by
  obtain ⟨moved, origins, new, ht, hrows, hnew, -, hf⟩ := h.rows
  cases hnew with
  | nil => rwa [ht, List.append_nil]
  | cons => exact (hf _ List.mem_cons_self).elim

/-- Storing a batch behind the rows. -/
theorem Extends.of_batch {now : DateTime} {new : List TaskRecord} (hc : s'.conf = s.conf)
    (ht : s'.tasks = s.tasks ++ new) (hn : clock now) (hb : Batch s.tasks now new)
    (hf : ∀ t ∈ new, fresh t) : Extends grantee clock fresh s s' :=
  ⟨hc, s.tasks, new, new, ht, rows_refl Steady.refl _, rows_refl Steady.refl _, .inr ⟨now, hn, hb⟩, hf⟩

/-- Identifiers stay distinct. -/
theorem Extends.distinct (h : Extends grantee clock fresh s s') (hd : s.Distinct) : s'.Distinct := by
  obtain ⟨moved, origins, new, ht, hrows, hnew, hstores, -⟩ := h.rows
  rw [MemoryState.Distinct, ht, List.map_append, hrows.map_eq fun _ _ h => h.id,
    hnew.map_eq fun _ _ h => h.id]
  rcases hstores with rfl | ⟨now, -, hb⟩
  · rw [List.map_nil, List.append_nil]
    exact hd
  · exact hb.nodup hd

/-- What every steady move keeps and every new row starts with holds of all rows. -/
theorem Extends.inv {P : TaskRecord → Prop} (h : Extends grantee clock fresh s s')
    (hold : ∀ r ∈ s.tasks, P r) (hfresh : ∀ t, fresh t → P t)
    (hstep : ∀ r r', Steady grantee clock r r' → P r → P r') : ∀ r ∈ s'.tasks, P r := by
  obtain ⟨moved, origins, new, ht, hrows, hnew, -, hf⟩ := h.rows
  intro r hr
  rw [ht] at hr
  rcases List.mem_append.mp hr with hr | hr
  · obtain ⟨r₀, hr₀, hsteady⟩ := hrows.mem_right hr
    exact hstep r₀ r hsteady (hold r₀ hr₀)
  · obtain ⟨r₀, hr₀, hsteady⟩ := hnew.mem_right hr
    exact hstep r₀ r hsteady (hfresh r₀ (hf r₀ hr₀))

/-- A stored row is found, moved steadily, where it was. -/
theorem Extends.get (h : Extends grantee clock fresh s s') {i : ℕ} (hi : s.tasks[i]? = some r) :
    ∃ r', s'.tasks[i]? = some r' ∧ Steady grantee clock r r' := by
  obtain ⟨moved, origins, new, ht, hrows, -⟩ := h.rows
  obtain ⟨r', hi', hsteady⟩ := hrows.get hi
  rw [ht, List.getElem?_append_left (List.getElem?_eq_some_iff.mp hi').1]
  exact ⟨r', hi', hsteady⟩

/-- More steady moves after the operation, on new rows too. -/
theorem Extends.before_rows (h : Extends grantee clock fresh s s') (hc : s''.conf = s'.conf)
    (h' : Rows (Steady grantee clock) s'.tasks s''.tasks) : Extends grantee clock fresh s s'' := by
  obtain ⟨moved, origins, new, ht, hrows, hnew, hstores, hf⟩ := h.rows
  rw [ht] at h'
  obtain ⟨moved', new', ht', hmoved, hlater⟩ := h'.split
  exact ⟨hc.trans h.conf, moved', origins, new', ht',
    rows_trans (fun _ _ _ h h' => h.trans h') hrows hmoved,
    rows_trans (fun _ _ _ h h' => h.trans h') hnew hlater, hstores, hf⟩

theorem Extends.mono {grantee' : Uuid → Prop} {clock' : DateTime → Prop} {fresh' : TaskRecord → Prop}
    (h : Extends grantee clock fresh s s') (hg : ∀ node, grantee node → grantee' node)
    (hc : ∀ time, clock time → clock' time) (hf : ∀ t, fresh t → fresh' t) :
    Extends grantee' clock' fresh' s s' := by
  obtain ⟨moved, origins, new, ht, hrows, hnew, hstores, hn⟩ := h.rows
  refine ⟨h.conf, moved, origins, new, ht, hrows.imp fun _ _ h => h.mono hg hc,
    hnew.imp fun _ _ h => h.mono hg hc, ?_, fun t hm => hf t (hn t hm)⟩
  rcases hstores with rfl | ⟨now, ht, hb⟩
  · exact .inl rfl
  · exact .inr ⟨now, hc now ht, hb⟩

end

/-- A child an accepted commit stages. -/
def IsChild (state : MemoryState) (now : DateTime) (commits : List TaskCommit) (t : TaskRecord) : Prop :=
  ∃ commit ∈ commits, ∃ index row, Accepts state now commit index row ∧ ∃ write ∈ commit.writes,
    stampWrite (childWrite row write) now = .ok t

section

variable [Serde] {now : DateTime} {state : MemoryState}

omit [Serde] in
/-- Replacing inputs of rows that were not terminal does not disturb a steady evolution. -/
theorem steady_around_inputs {grantee : Uuid → Prop} {clock : DateTime → Prop} {ids : List TaskId}
    {a b c : List TaskRecord} (h : Rows (Steady grantee clock) a b)
    (h' : Rows (fun r r' => ∃ m, Inputs ids r m ∧ Steady grantee clock m r') b c)
    (hids : ∀ r ∈ a, Owned r → r.status.terminal = true → r.id ∉ ids) :
    Rows (Steady grantee clock) a c := by
  refine (h.comp h').imp_mem fun r hr r' ⟨r₁, hs, m, hin, hs'⟩ => ?_
  have hm : Evolves grantee clock r₁ m := by
    rcases hin with rfl | ⟨-, input, rfl⟩
    · exact Evolves.refl m
    · exact evolves_input r₁ _
  refine ⟨(hs.toEvolves.trans hm).trans hs'.toEvolves, fun ho ht => ?_⟩
  obtain rfl := hs.terminal ho ht
  rcases hin with rfl | ⟨hmem, -⟩
  · exact hs'.terminal ho ht
  · exact absurd hmem (hids r₁ hr ho ht)

omit [Serde] in
/-- Rows with one identifier are one row. -/
theorem MemoryState.Distinct.eq {s : MemoryState} (hd : s.Distinct) {r r' : TaskRecord}
    (hr : r ∈ s.tasks) (hr' : r' ∈ s.tasks) (h : r.id = r'.id) : r = r' :=
  List.inj_on_of_nodup_map hd hr hr' h

theorem claimTurn_extends {node : Uuid} {claims : List (LaneClaim × Uuid)} {lease : Duration}
    {result : TaskPoll × CommitResult} {turn' : Turn} (hd : state.Distinct)
    (h : runTurn (some node) claims [] lease now state.begin = (.ok result, turn')) :
    Extends (some node = some ·) (· = now) (fun _ => False) state turn'.state := by
  obtain ⟨turn, poll, hclaim, hsettle⟩ := runTurn_claims h
  have hworks := claimTasksState_works hclaim
  have hstate : turn'.state = (settleTurn turn [] [] state.phases poll [] now).1 :=
    congrArg Prod.fst hsettle
  have hframe := (works_frame hworks).1.trans (settleTurn_frame turn [] [] state.phases poll [] now)
  obtain ⟨moved, fresh, heq, hmoved, hfresh⟩ := settled_rows (some node = some ·) turn [] []
    state.phases poll [] now ⟨List.nodup_nil, fun _ h => nomatch h⟩
  have hrows : Rows (Steady (some node = some ·) (· = now)) state.tasks moved := by
    refine steady_around_inputs (works_rows hworks) hmoved fun r hr ho ht hmem => ?_
    obtain ⟨t, htm, hid⟩ := List.mem_map.mp hmem
    obtain ⟨r', hr', hid', hterm⟩ := works_granted hworks t htm
    obtain rfl := hd.eq hr hr' (hid'.trans hid).symm
    rw [hterm ho] at ht
    exact nomatch ht
  cases hfresh
  rw [List.append_nil] at heq
  exact Extends.of_rows (hstate ▸ hframe.conf) (hstate ▸ heq ▸ hrows)

/-- The rows a staged batch rewrote are there when the commit half of the turn is over. -/
theorem Commits.written {staged : Staged} {turn : Turn} (h : Commits now commits state.begin staged turn)
    {update : ℕ × TaskRecord} (hu : update ∈ staged.updates) :
    turn.state.tasks[update.1]? = some update.2 := by
  rw [h.result]
  refine overwrite_written _ _ (h.staging.indices_nodup h.distinct) (fun other ho => ?_) update hu
  rcases h.staging.updated other ho with ho | ⟨_, _, row, ha, _⟩
  · exact nomatch ho
  · exact (List.getElem?_eq_some_iff.mp ha.stored).1

/-- The rows a batch suspended for their groups are suspended when their waits are installed. -/
theorem Commits.installable {staged : Staged} {turn : Turn} (hd : state.Distinct)
    (h : Commits now commits state.begin staged turn) :
    Installable staged.waits turn.state.tasks := by
  have hids := h.staging.ids_nodup h.distinct
  refine ⟨hids.sublist h.staging.waits_sublist, fun entry he r hr hid => ?_⟩
  obtain ⟨update, hu, huid, hsusp⟩ := h.staging.waits_suspended entry he
  have hturn : turn.state.Distinct := by
    rw [MemoryState.Distinct, (works_rows (h.works none)).map_eq fun _ _ h => h.id]
    exact hd
  rw [hturn.eq hr (List.mem_of_getElem? (h.written hu)) (hid.trans huid.symm)]
  exact hsusp

/-- The rows of a committed turn: the old ones, moved steadily, then the staged children. -/
theorem Commits.rows {staged : Staged} {turn : Turn} (p : TaskPoll) (hd : state.Distinct)
    (h : Commits now commits state.begin staged turn) (hp : p.tasks = []) :
    ∃ moved fresh, (settleTurn turn staged.children staged.waits state.phases p commits now).1.tasks =
        moved ++ fresh ∧
      Rows (Steady (fun _ => False) (· = now)) state.tasks turn.state.tasks ∧
      Rows (Steady (fun _ => False) (· = now)) turn.state.tasks moved ∧
      Rows (Steady (fun _ => False) (· = now)) staged.children fresh := by
  obtain ⟨moved, fresh, heq, hmoved, hfresh⟩ := settled_rows (fun _ => False) turn staged.children
    staged.waits state.phases p commits now (h.installable hd)
  have hrows : Rows (Steady (fun _ => False) (· = now)) state.tasks turn.state.tasks :=
    (works_rows (h.works none)).imp fun _ _ h => h.mono (fun _ hn => (nomatch hn)) fun _ ht => ht
  have hsettled := steady_around_inputs (rows_refl Steady.refl _) hmoved fun r _ _ _ hmem => by
    rw [hp] at hmem
    exact nomatch hmem
  exact ⟨moved, fresh, heq, hrows, hsettled, hfresh⟩

theorem commitTurn_extends {lease : Duration} {result : TaskPoll × CommitResult} {turn' : Turn}
    (hd : state.Distinct) (h : runTurn none [] commits lease now state.begin = (.ok result, turn')) :
    Extends (fun _ => False) (· = now) (IsChild state now commits) state turn'.state := by
  obtain ⟨staged, turn, hcommits, hsettle⟩ := runTurn_commits h
  have hstate : turn'.state = _ := congrArg Prod.fst hsettle
  have hframe := (works_frame (hcommits.works none)).1.trans
    (settleTurn_frame turn staged.children staged.waits state.phases ⟨[], []⟩ commits now)
  obtain ⟨moved, fresh, heq, hrows, hsettled, hfresh⟩ := hcommits.rows ⟨[], []⟩ hd rfl
  obtain ⟨hbatch, hmade⟩ := hcommits.staging.adopts
  exact ⟨hstate ▸ hframe.conf, moved, staged.children, fresh, hstate ▸ heq,
    rows_trans (fun _ _ _ h h' => h.trans h') hrows hsettled, hfresh, .inr ⟨now, rfl, hbatch⟩, hmade⟩

end

end Vyuh.Tasks.Memory
