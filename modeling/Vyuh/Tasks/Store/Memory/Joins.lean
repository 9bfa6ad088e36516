import Vyuh.Lib.Ledger
import Vyuh.Tasks.Store.Memory.Cancellation

/-! What a parent still gets from its children. A child owes its parent one completion until it is
    terminal, and the turn that makes it terminal queues the delivery, so what a parent is owed, by rows
    and by the queue together, is the same throughout the fallible part of a turn (`works_owed`). `Books`
    is what rows, waits and queued deliveries satisfy between the phases of a turn. -/

namespace Vyuh.Tasks.Memory
open Lib

/-- The parent a record still owes its completion. -/
def creditor (r : TaskRecord) : Option TaskId := if r.status.terminal then none else r.parentId

theorem creditor_eq_some {r : TaskRecord} {parent : TaskId} :
    creditor r = some parent ↔ r.status.terminal = false ∧ r.parentId = some parent := by
  rw [creditor]
  cases r.status.terminal <;> simp

/-- What `owed` completions mean to a record. -/
structure Expects (waits : FMap TaskId TaskWait) (p : TaskRecord) (owed : ℕ) : Prop where
  awake : p.status.terminal = false → p.status ≠ .suspended →
    owed = 0 ∧ ∀ wait, waits p.id = some wait → wait.remainingCompletions = 0
  single : p.status = .suspended → waits p.id = none → owed ≤ 1
  joined : p.status = .suspended → ∀ wait, waits p.id = some wait →
    wait.remainingCompletions = owed ∧ 0 < owed

/-- A wait and the rows it speaks of. -/
structure GroupOf (rows : List TaskRecord) (parent : TaskId) (wait : TaskWait) : Prop where
  root : ∃ p ∈ rows, p.id = parent ∧ (p.status = .suspended → p.cancelled = false)
  distinct : wait.children.Nodup
  stored : ∀ child ∈ wait.children, ∃ r ∈ rows, r.id = child ∧ r.parentId = some parent
  unfinished : ∀ r ∈ rows, creditor r = some parent → r.id ∈ wait.children
  fits : wait.remainingCompletions ≤ i32Max

/-- Rows, waits and the deliveries that are due agree. -/
structure Books (rows : List TaskRecord) (waits : FMap TaskId TaskWait) (due : TaskId → ℕ) : Prop where
  lineage : ∀ r ∈ rows, ∀ parent, r.parentId = some parent → ∃ p ∈ rows, p.id = parent
  expects : ∀ p ∈ rows, Expects waits p (owing creditor rows p.id + due p.id)
  groups : ∀ parent wait, waits parent = some wait → GroupOf rows parent wait

/-! ### Rows that move -/

/-- A rewrite that keeps a record's place among parents and children, takes no ending back and puts
    nothing to sleep. -/
structure Minds (r r' : TaskRecord) : Prop where
  id : r'.id = r.id
  parentId : r'.parentId = r.parentId
  ended : r.status.terminal = true → r'.status.terminal = true
  slept : r'.status = .suspended → r.status = .suspended ∧ r'.cancelled = r.cancelled

theorem Minds.refl (r : TaskRecord) : Minds r r := ⟨rfl, rfl, fun h => h, fun h => ⟨h, rfl⟩⟩

theorem Minds.trans {a b c : TaskRecord} (h : Minds a b) (h' : Minds b c) : Minds a c where
  id := h'.id.trans h.id
  parentId := h'.parentId.trans h.parentId
  ended ha := h'.ended (h.ended ha)
  slept hc := by
    obtain ⟨hb, hcancelled⟩ := h'.slept hc
    obtain ⟨ha, hcancelled'⟩ := h.slept hb
    exact ⟨ha, hcancelled.trans hcancelled'⟩

/-- What is unfinished after a rewrite was unfinished before it. -/
theorem Minds.unfinished {r r' : TaskRecord} (h : Minds r r') (ht : r'.status.terminal = false) :
    r.status.terminal = false := by
  cases hs : r.status.terminal with
  | false => rfl
  | true => rw [h.ended hs] at ht; cases ht

/-- A rewrite makes no new debt. -/
theorem Minds.owes {r r' : TaskRecord} {parent : TaskId} (h : Minds r r') (ho : creditor r' = some parent) :
    creditor r = some parent := by
  rw [creditor_eq_some] at ho ⊢
  exact ⟨h.unfinished ho.1, h.parentId.symm.trans ho.2⟩

/-- Books stay in order over rewritten rows when the expectations of the new rows are met. -/
theorem Books.moved {rows rows' : List TaskRecord} {waits waits' : FMap TaskId TaskWait}
    {due due' : TaskId → ℕ} (h : Books rows waits due) (hrows : Rows Minds rows rows')
    (hexpects : ∀ p ∈ rows', Expects waits' p (owing creditor rows' p.id + due' p.id))
    (hgroups : ∀ parent wait', waits' parent = some wait' → ∃ wait, waits parent = some wait ∧
      wait'.children = wait.children ∧ wait'.remainingCompletions ≤ i32Max) : Books rows' waits' due' where
  lineage r' hr' parent hp := by
    obtain ⟨r, hr, hm⟩ := hrows.mem_right hr'
    obtain ⟨p, hpm, hid⟩ := h.lineage r hr parent (hm.parentId.symm.trans hp)
    obtain ⟨p', hp', hm'⟩ := hrows.mem_left hpm
    exact ⟨p', hp', hm'.id.trans hid⟩
  expects := hexpects
  groups parent wait' hw' := by
    obtain ⟨wait, hw, hchildren, hfits⟩ := hgroups parent wait' hw'
    obtain ⟨⟨p, hpm, hid, hc⟩, hdistinct, hstored, hopen, -⟩ := h.groups parent wait hw
    refine ⟨?_, hchildren ▸ hdistinct, fun child hchild => ?_, fun r' hr' ho => ?_, hfits⟩
    · obtain ⟨p', hp', hm⟩ := hrows.mem_left hpm
      refine ⟨p', hp', hm.id.trans hid, fun hs => ?_⟩
      obtain ⟨hslept, hcancelled⟩ := hm.slept hs
      exact hcancelled.trans (hc hslept)
    · obtain ⟨r, hr, hrid, hrp⟩ := hstored child (hchildren ▸ hchild)
      obtain ⟨r', hr', hm⟩ := hrows.mem_left hr
      exact ⟨r', hr', hm.id.trans hrid, hm.parentId.trans hrp⟩
    · obtain ⟨r, hr, hm⟩ := hrows.mem_right hr'
      rw [hchildren, hm.id]
      exact hopen r hr (hm.owes ho)

/-- What a claim leaves of a record: it ends, or it sleeps exactly if it slept. -/
structure Claimed (r r' : TaskRecord) : Prop extends Minds r r' where
  asleep : r'.status.terminal = false → (r'.status = .suspended ↔ r.status = .suspended)

theorem Claimed.refl (r : TaskRecord) : Claimed r r := ⟨.refl r, fun _ => Iff.rfl⟩

theorem Claimed.trans {a b c : TaskRecord} (h : Claimed a b) (h' : Claimed b c) : Claimed a c :=
  ⟨h.toMinds.trans h'.toMinds, fun hc => (h'.asleep hc).trans (h.asleep (h'.unfinished hc))⟩

/-- A record whose expectations are met still has them met when it ends or keeps its state. -/
theorem Expects.claimed {waits : FMap TaskId TaskWait} {p p' : TaskRecord} {owed : ℕ}
    (h : Expects waits p owed) (hm : Claimed p p') : Expects waits p' owed where
  awake ht hs := by
    rw [hm.id]
    exact h.awake (hm.unfinished ht) fun hp => hs ((hm.asleep ht).mpr hp)
  single hs hw := h.single ((hm.asleep (by rw [hs]; rfl)).mp hs) (hm.id ▸ hw)
  joined hs wait hw := h.joined ((hm.asleep (by rw [hs]; rfl)).mp hs) wait (hm.id ▸ hw)

/-- Claims keep the books: what rows no longer owe is due. -/
theorem Books.claimed {rows rows' : List TaskRecord} {waits : FMap TaskId TaskWait}
    {due due' : TaskId → ℕ} (h : Books rows waits due) (hrows : Rows Claimed rows rows')
    (howed : ∀ k, owing creditor rows' k + due' k = owing creditor rows k + due k) :
    Books rows' waits due' := by
  refine h.moved (hrows.imp fun _ _ h => h.toMinds) (fun p' hp' => ?_) fun parent wait hw =>
    ⟨wait, hw, rfl, (h.groups parent wait hw).fits⟩
  obtain ⟨p, hp, hm⟩ := hrows.mem_right hp'
  rw [howed, hm.id]
  exact (h.expects p hp).claimed hm

/-- A wait may be forgotten when no sleeping row has its identifier. -/
theorem Books.forget {rows : List TaskRecord} {waits waits' : FMap TaskId TaskWait} {due : TaskId → ℕ}
    (h : Books rows waits due) (hw : ∀ id, waits' id = waits id ∨
      waits' id = none ∧ ∀ p ∈ rows, p.id = id → p.status ≠ .suspended) : Books rows waits' due := by
  refine h.moved (rows_refl Minds.refl _) (fun p hp => ?_) fun parent wait hwait => ?_
  · have he := h.expects p hp
    rcases hw p.id with hsame | ⟨hnone, hawake⟩
    · exact ⟨fun ht hs => hsame ▸ he.awake ht hs, fun hs hn => he.single hs (hsame ▸ hn),
        fun hs wait hwait => he.joined hs wait (hsame ▸ hwait)⟩
    · have hs := hawake p hp rfl
      exact ⟨fun ht _ => ⟨(he.awake ht hs).1, fun wait hwait => by rw [hnone] at hwait; cases hwait⟩,
        fun h => absurd h hs, fun h => absurd h hs⟩
  · rcases hw parent with hsame | ⟨hnone, -⟩
    · exact ⟨wait, hsame ▸ hwait, rfl, (h.groups parent wait (hsame ▸ hwait)).fits⟩
    · rw [hnone] at hwait
      cases hwait

theorem Released.claimed {now : DateTime} {r r' : TaskRecord} (h : Released now r r') : Claimed r r' := by
  rcases h with rfl | ⟨-, rfl⟩
  · exact .refl r'
  · exact ⟨⟨rfl, rfl, fun h => h, fun h => ⟨h, rfl⟩⟩, fun _ => Iff.rfl⟩

section

variable [Serde] {now : DateTime} {runner : Option Uuid} {turn turn' : Turn} {tasks : List TaskRecord}

/-! ### The fallible part of a turn -/

omit [Serde] in
/-- A record that just ended owes its parent one delivery, and queues it. -/
theorem announced_parents {old new : TaskRecord} (hactive : isActive old.status = true)
    (hparent : new.parentId = old.parentId)
    (hresult : new.status.terminal = true → new.lastResult.isSome = true)
    (ht : new.status.terminal = true) :
    creditor new = none ∧ (announced new).map (·.1) = (creditor old).toList := by
  obtain ⟨result, hr⟩ := Option.isSome_iff_exists.mp (hresult ht)
  refine ⟨by rw [creditor, if_pos ht], ?_⟩
  rw [creditor, not_terminal_of_active hactive, if_neg Bool.false_ne_true, announced, hparent, hr]
  cases old.parentId with
  | none => rfl
  | some parent => simp [ht]

/-- An event moves no completion: what a row no longer owes is in the queue. -/
theorem does_owed {event : Event} (h : Does runner now turn event turn') (parent : TaskId) :
    owing creditor turn'.state.tasks parent + posted turn'.deliveries parent =
      owing creditor turn.state.tasks parent + posted turn.deliveries parent := by
  cases h with
  | @conclude index old new conf policy outcome mark stored active concludes =>
    have hc := concludes.concluded
    cases ht : new.status.terminal with
    | true =>
      obtain ⟨hclosed, hqueued⟩ := announced_parents active hc.parentId hc.result ht
      exact owed_set_closed stored hclosed hqueued parent
    | false =>
      have hkept : creditor new = creditor old := by
        rw [creditor, creditor, ht, not_terminal_of_active active, hc.parentId]
        rfl
      have hquiet : announced new = [] := by
        rw [announced]
        split <;> simp [ht]
      simp only [Turn.write, hquiet, List.append_nil, owing_set_kept stored hkept]
  | @grant index old new node who stored due wanted granted =>
    obtain ⟨-, -, he⟩ := grant_ok.mp granted
    have hkept : creditor new = creditor old := by
      rw [creditor, creditor, not_terminal_of_active (isActive_of_isDue due), he]
      rfl
    simp only [Turn.write, List.append_nil, owing_set_kept stored hkept]
  | @release index old stored running =>
    have hkept : creditor { old with nodeId := none, updatedAt := now } = creditor old := rfl
    simp only [Turn.write, List.append_nil, owing_set_kept stored hkept]
  | coordinate rates locks => rfl

/-- What a parent is owed does not change while a turn works. -/
theorem works_owed (h : Works runner now turn tasks turn') (parent : TaskId) :
    owing creditor turn'.state.tasks parent + posted turn'.deliveries parent =
      owing creditor turn.state.tasks parent + posted turn.deliveries parent := by
  obtain ⟨events, hrun, -⟩ := h
  induction hrun with
  | nil turn => rfl
  | cons first rest ih => exact ih.trans (does_owed first parent)

/-- A row that a turn rewrote is in its log. -/
theorem works_logged (h : Works runner now turn tasks turn') :
    turn.undo ⊆ turn'.undo ∧ ∀ r' ∈ turn'.state.tasks,
      r' ∈ turn.state.tasks ∨ ∃ old ∈ turn'.undo, old.id = r'.id := by
  obtain ⟨events, hrun, -⟩ := h
  induction hrun with
  | nil turn => exact ⟨fun _ h => h, fun _ h => .inl h⟩
  | @cons turn turn₁ turn₂ event events first rest ih =>
    have hone : turn.undo ⊆ turn₁.undo ∧ ∀ r' ∈ turn₁.state.tasks,
        r' ∈ turn.state.tasks ∨ ∃ old ∈ turn₁.undo, old.id = r'.id := by
      have hwrite : ∀ (index : ℕ) (old new : TaskRecord) (queued : List Delivery), new.id = old.id →
          turn.undo ⊆ (turn.write index old new queued).undo ∧
            ∀ r' ∈ (turn.write index old new queued).state.tasks,
              r' ∈ turn.state.tasks ∨ ∃ old' ∈ (turn.write index old new queued).undo, old'.id = r'.id := by
        intro index old new queued hid
        refine ⟨List.subset_append_left _ _, fun r' hr' => ?_⟩
        rcases List.mem_or_eq_of_mem_set hr' with hr' | rfl
        · exact .inl hr'
        · exact .inr ⟨old, List.mem_append_right _ (List.mem_singleton_self _), hid.symm⟩
      cases first with
      | conclude mark stored active concludes => exact hwrite _ _ _ _ concludes.concluded.id
      | grant who stored due wanted granted =>
        obtain ⟨-, -, rfl⟩ := grant_ok.mp granted
        exact hwrite _ _ _ _ rfl
      | release stored running => exact hwrite _ _ _ _ rfl
      | coordinate rates locks => exact ⟨fun _ h => h, fun _ h => .inl h⟩
    refine ⟨fun _ h => ih.1 (hone.1 h), fun r' hr' => ?_⟩
    rcases ih.2 r' hr' with hr' | hlogged
    · rcases hone.2 r' hr' with hr' | ⟨old, ho, hid⟩
      · exact .inl hr'
      · exact .inr ⟨old, ih.1 ho, hid⟩
    · exact .inr hlogged

/-- What runs after some work ran before it, or was granted by it. -/
theorem works_running (h : Works runner now turn tasks turn') :
    ∀ r' ∈ turn'.state.tasks, r'.status = .running →
      (∃ r ∈ turn.state.tasks, r.id = r'.id ∧ r.status = .running) ∨ ∃ t ∈ tasks, t.id = r'.id := by
  obtain ⟨events, hrun, rfl⟩ := h
  induction hrun with
  | nil turn => exact fun r' hr' hs => .inl ⟨r', hr', rfl, hs⟩
  | @cons turn turn₁ turn₂ event events first rest ih =>
    have hgrants : ∀ t ∈ grants events, t ∈ grants (event :: events) := by
      intro t ht
      cases event <;> simp_all [grants]
    intro r' hr' hs
    rcases ih r' hr' hs with ⟨r, hr, hid, hrunning⟩ | ⟨t, ht, hid⟩
    · cases first with
      | @conclude index old new conf policy outcome mark stored active concludes =>
        rcases List.mem_or_eq_of_mem_set hr with hr | rfl
        · exact .inl ⟨r, hr, hid, hrunning⟩
        · exact absurd hrunning concludes.concluded.stopped
      | @grant index old new node who stored due wanted granted =>
        rcases List.mem_or_eq_of_mem_set hr with hr | rfl
        · exact .inl ⟨r, hr, hid, hrunning⟩
        · exact .inr ⟨r, List.mem_cons_self, hid⟩
      | @release index old stored running =>
        rcases List.mem_or_eq_of_mem_set hr with hr | rfl
        · exact .inl ⟨r, hr, hid, hrunning⟩
        · exact .inl ⟨old, List.mem_of_getElem? stored, hid, running⟩
      | coordinate rates locks => exact .inl ⟨r, hr, hid, hrunning⟩
    · exact .inr ⟨t, hgrants t ht, hid⟩

/-! ### Claim turns -/

variable {node : Uuid} {conf : TaskStoreConf} {lease : Duration} {poll : LanePoll}

/-- What a lane's turn makes of a record: what runs goes on or ends. -/
structure Handled (r r' : TaskRecord) : Prop extends Claimed r r' where
  ran : r.status = .running → r'.status = .running ∨ r'.status.terminal = true

omit [Serde] in
theorem Handled.refl (r : TaskRecord) : Handled r r := ⟨.refl r, .inl⟩

omit [Serde] in
theorem Handled.trans {a b c : TaskRecord} (h : Handled a b) (h' : Handled b c) : Handled a c := by
  refine ⟨h.toClaimed.trans h'.toClaimed, fun ha => ?_⟩
  rcases h.ran ha with hb | hb
  · exact h'.ran hb
  · exact .inr (h'.ended hb)

theorem Serves.handled {w : LaneWindow} {permits : ℕ} {rateWake : Option Duration}
    (h : Serves node conf w permits rateWake turn poll turn') :
    Rows Handled turn.state.tasks turn'.state.tasks := by
  refine h.moves.imp fun r r' hr => ?_
  rcases hr with rfl | hended | ⟨hgrant, i, hi, hrow⟩
  · exact .refl r'
  · have hc := hended.concluded
    have ht : r'.status.terminal = true := by rw [hended.failed.1]; rfl
    refine ⟨⟨⟨hc.id, hc.parentId, fun _ => ht, fun hs => ?_⟩, fun hf => by rw [ht] at hf; cases hf⟩,
      fun _ => .inr ht⟩
    rw [hs] at ht
    cases ht
  · obtain ⟨-, hdue⟩ := LaneWindow.queue_due ((selected_sublist _ _ _ _).subset hi) hrow
    have hactive : r.status ≠ .suspended := by
      intro hs
      simp [isDue, hs] at hdue
    obtain ⟨-, -, rfl⟩ := grant_ok.mp hgrant
    refine ⟨⟨⟨rfl, rfl, fun ht => ?_, fun hs => (by cases hs)⟩, fun _ => ?_⟩, fun _ => .inl rfl⟩
    · rw [not_terminal_of_active (isActive_of_isDue hdue)] at ht
      cases ht
    · simp [hactive]

theorem claimOne_handled {entry : LaneClaim × Uuid} (hconf : turn.state.conf = some conf)
    (h : claimOne node conf lease now entry turn = (.ok poll, turn')) :
    Rows Handled turn.state.tasks turn'.state.tasks := by
  obtain ⟨laneConf, -, ⟨-, permits, rateWake, hserves⟩ | ⟨-, hidles⟩⟩ := claimOne_serves hconf h
  · exact hserves.handled
  · refine hidles.rows.imp fun r r' hr => ⟨hr.claimed, fun hs => .inl ?_⟩
    rcases hr with rfl | ⟨-, rfl⟩ <;> exact hs

/-- What a claim turn makes of the rows. -/
theorem collect_handled {claims : List (LaneClaim × Uuid)} {polls : List LanePoll}
    (hconf : turn.state.conf = some conf)
    (h : Step.collect (claimOne node conf lease now) claims turn = (.ok polls, turn')) :
    Rows Handled turn.state.tasks turn'.state.tasks :=
  collect_rows Handled.refl (fun _ _ _ h h' => h.trans h') claimOne_handled claims _ _ _ hconf h

/-- What a lane's turn hands out runs. -/
theorem claimOne_running {entry : LaneClaim × Uuid} (hconf : turn.state.conf = some conf)
    (h : claimOne node conf lease now entry turn = (.ok poll, turn')) :
    ∀ t ∈ poll.tasks, t ∈ turn'.state.tasks ∧ t.status = .running := by
  obtain ⟨laneConf, -, ⟨-, permits, rateWake, hserves⟩ | ⟨-, hidles⟩⟩ := claimOne_serves hconf h
  · intro t ht
    obtain ⟨n, hn, rfl⟩ := List.getElem_of_mem ht
    obtain ⟨hlen, hall⟩ := List.forall₂_iff_get.mp hserves.granted
    obtain ⟨hnew, row, -, hgrant⟩ := hall n (hlen ▸ hn) hn
    rw [List.get_eq_getElem] at hnew hgrant
    refine ⟨List.mem_of_getElem? hnew, ?_⟩
    obtain ⟨-, -, he⟩ := grant_ok.mp hgrant
    rw [he]
  · rw [hidles.silent]
    simp

/-- A task that a claim turn hands out neither slept nor had ended before the turn, and runs or has ended
    after it. -/
theorem collect_granted : ∀ (claims : List (LaneClaim × Uuid))
    (turn turn' : Turn) (polls : List LanePoll), turn.state.conf = some conf → turn.state.Distinct →
    Step.collect (claimOne node conf lease now) claims turn = (.ok polls, turn') →
      ∀ t ∈ polls.flatMap (·.tasks),
        (∀ p ∈ turn.state.tasks, p.id = t.id → p.status ≠ .suspended ∧ p.status.terminal = false) ∧
        ∀ r ∈ turn'.state.tasks, r.id = t.id → r.status = .running ∨ r.status.terminal = true
  | [], _, _, _, _, _, h => by
    obtain ⟨rfl, -⟩ := Step.pure_ok.mp h
    simp
  | entry :: claims, turn, turn', _, hconf, hd, h => by
    simp only [Step.collect, Step.bind_ok, Step.pure_ok] at h
    obtain ⟨poll, turn₁, h₁, polls, turn₂, h₂, rfl, rfl⟩ := h
    have hconf₁ : turn₁.state.conf = some conf := (works_frame (claimOne_works h₁)).1.conf.trans hconf
    have hfirst := claimOne_handled hconf h₁
    have hd₁ : turn₁.state.Distinct := by
      rw [MemoryState.Distinct, hfirst.map_eq fun _ _ h => h.id]
      exact hd
    intro t ht
    rw [List.flatMap_cons, List.mem_append] at ht
    rcases ht with ht | ht
    · -- the row ran when its lane's turn was over; later turns leave it running or end it
      obtain ⟨hstored, hrunning⟩ := claimOne_running hconf h₁ t ht
      have hopen : t.status.terminal = false := by rw [hrunning]; rfl
      refine ⟨fun p hp hid => ?_, fun r hr hid => ?_⟩
      · obtain ⟨t', ht', hhandled⟩ := hfirst.mem_left hp
        obtain rfl := hd₁.eq ht' hstored (hhandled.id.trans hid)
        refine ⟨fun hs => ?_, hhandled.unfinished hopen⟩
        have hslept := (hhandled.asleep hopen).mpr hs
        rw [hrunning] at hslept
        cases hslept
      · obtain ⟨r₁, hr₁, hhandled⟩ := (collect_handled hconf₁ h₂).mem_right hr
        obtain rfl := hd₁.eq hr₁ hstored (hhandled.id.symm.trans hid)
        exact hhandled.ran hrunning
    · obtain ⟨hbefore, hafter⟩ := collect_granted claims turn₁ _ polls hconf₁ hd₁ h₂ t ht
      refine ⟨fun p hp hid => ?_, hafter⟩
      obtain ⟨p₁, hp₁, hhandled⟩ := hfirst.mem_left hp
      obtain ⟨hawake, hopen⟩ := hbefore p₁ hp₁ (hhandled.id.trans hid)
      exact ⟨fun hs => hawake ((hhandled.asleep hopen).mpr hs), hhandled.unfinished hopen⟩

end

end Vyuh.Tasks.Memory
