import Vyuh.Tasks.Store.Memory.JoinCommits

/-! A placed batch keeps the books, row by row: a child is owed nothing, a row the batch left expects what
    it expected, and a written row expects what was staged for it. -/

namespace Vyuh.Tasks.Memory
open Lib

/-- A group's counter is its size, as long as the size fits. -/
theorem asI32_of_fits {n : ℕ} (h : (n : ℤ) ≤ i32Max) : asI32 n = (n : ℤ) := by
  have hn : (n : ℤ) < 2147483648 := by
    rw [i32Max] at h
    omega
  have hmod : asI32 n = Int.bmod n 4294967296 := by
    unfold asI32
    norm_num
  rw [hmod]
  exact Int.bmod_eq_of_le (by omega) (by omega)

theorem preparedWait_remaining {parent : TaskId} {children : List TaskRecord}
    (h : ((members children parent).length : ℤ) ≤ i32Max) :
    (preparedWait parent children).remainingCompletions = ((members children parent).length : ℤ) := by
  rw [members] at h ⊢
  simp only [preparedWait, List.length_map]
  exact asI32_of_fits h

section

variable [Serde] {state after : MemoryState} {now : DateTime} {commits : List TaskCommit} {staged : Staged}
  {turn : Turn} {limit : ℕ}

/-! ### What a batch leaves alone -/

/-- A staged child has an identifier of its own: nobody owes it anything, and it has no wait. -/
theorem Commits.child_free (hj : Joins state) (h : Commits now commits state.begin staged turn)
    (hshape : Shaped staged limit) (hp : Placed state staged now turn after) {child : TaskRecord}
    (hc : child ∈ staged.children) :
    owing creditor after.tasks child.id + posted turn.deliveries child.id = 0 ∧ after.waits child.id = none := by
  obtain ⟨hbatch, -⟩ := h.staging.adopts
  have hfresh : ∀ r ∈ state.tasks, r.id ≠ child.id := hbatch.fresh child hc
  -- parents are stored rows, and a child is not
  have hupdates : ∀ update ∈ staged.updates, update.2.id ≠ child.id := fun update hu he => by
    obtain ⟨row, hrow, hid, -⟩ := h.update_cases hu
    exact hfresh row hrow (hid.trans he)
  have hrows : owing creditor state.tasks child.id = 0 := owing_eq_zero.mpr fun r hr ho => by
    obtain ⟨p, hpm, hid⟩ := hj.books.lineage r hr child.id (creditor_eq_some.mp ho).2
    exact hfresh p hpm hid
  have hchildren : owing creditor staged.children child.id = 0 := owing_eq_zero.mpr fun r hr ho => by
    obtain ⟨update, hu, he⟩ := hshape.parents r hr
    rw [(creditor_eq_some.mp ho).2] at he
    exact hupdates update hu (Option.some.inj he).symm
  have howed := works_owed (h.works none) child.id
  change _ = owing creditor state.tasks child.id + 0 at howed
  have hstaged : child.id ∉ staged.waits.map (·.1) := fun hm => by
    obtain ⟨update, hu, he⟩ := hshape.waits _ hm
    exact hupdates update hu he
  have hold : state.waits child.id = none := by
    by_contra hne
    obtain ⟨wait, hw⟩ := Option.ne_none_iff_exists'.mp hne
    obtain ⟨p, hpm, hid, -⟩ := (hj.books.groups child.id wait hw).root
    exact hfresh p hpm hid
  refine ⟨?_, ?_⟩
  · rw [hp.owed, hchildren]
    omega
  · rw [hp.waits, find_of_free hstaged, hold]
    rfl

/-- A row that is no task of the batch is owed what it was owed, and keeps its wait. -/
theorem Commits.kept_free (h : Commits now commits state.begin staged turn)
    (hshape : Shaped staged limit) (hp : Placed state staged now turn after) {id : TaskId}
    (hfree : id ∉ staged.updates.map (·.2.id)) :
    owing creditor after.tasks id + posted turn.deliveries id = owing creditor state.tasks id ∧
      after.waits id = state.waits id := by
  have hchildren : owing creditor staged.children id = 0 := owing_eq_zero.mpr fun r hr ho => by
    obtain ⟨update, hu, he⟩ := hshape.parents r hr
    rw [(creditor_eq_some.mp ho).2] at he
    exact hfree (List.mem_map.mpr ⟨update, hu, (Option.some.inj he).symm⟩)
  have howed := works_owed (h.works none) id
  change _ = owing creditor state.tasks id + 0 at howed
  have hstaged : id ∉ staged.waits.map (·.1) := fun hm => by
    obtain ⟨update, hu, he⟩ := hshape.waits _ hm
    exact hfree (List.mem_map.mpr ⟨update, hu, he⟩)
  refine ⟨?_, ?_⟩
  · rw [hp.owed, hchildren]
    omega
  · rw [hp.waits, find_of_free hstaged]
    rfl

/-! ### What a batch writes -/

theorem Commits.waits_nodup (h : Commits now commits state.begin staged turn) :
    (staged.waits.map (·.1)).Nodup :=
  (h.staging.ids_nodup h.distinct).sublist h.staging.waits_sublist

/-- What a written row expects: its staged group, its one child, or nothing. -/
theorem Commits.written_expects (hj : Joins state) (h : Commits now commits state.begin staged turn)
    (hlimit : (limit : ℤ) ≤ i32Max) (hshape : Shaped staged limit) (hp : Placed state staged now turn after)
    {update : ℕ × TaskRecord} (hu : update ∈ staged.updates) :
    Expects after.waits (woken staged.waits now update.2)
      (owing creditor after.tasks update.2.id + posted turn.deliveries update.2.id) := by
  have hcases := (hshape.stages update hu).cases now h.waits_nodup
  have hid := (woken_frame staged.waits now update.2).1
  cases hopen : update.2.status.terminal with
  | true =>
    -- an ended task expects nothing
    rcases hcases with ⟨-, hs, -⟩ | ⟨-, hwoken, -, -⟩
    · rw [hs] at hopen
      cases hopen
    · rw [hwoken]
      refine ⟨fun hf => ?_, fun hs => ?_, fun hs => ?_⟩
      · rw [hopen] at hf
        cases hf
      · rw [hs] at hopen
        cases hopen
      · rw [hs] at hopen
        cases hopen
  | false =>
    obtain ⟨howing, hposted, hwait⟩ := h.open_update hj hu hopen
    rw [hp.owed, howing, hposted, Nat.zero_add, Nat.add_zero]
    rcases hcases with ⟨hfind, hs, hsmall, hpending, hwoken⟩ | ⟨hfind, hwoken, hone, hnone⟩
    · have hcount : owing creditor staged.children update.2.id = (members staged.children update.2.id).length :=
        owing_eq_members hpending
      have hremaining : (preparedWait update.2.id staged.children).remainingCompletions =
          ((members staged.children update.2.id).length : ℤ) := preparedWait_remaining (by omega)
      have hafter : after.waits update.2.id = some (preparedWait update.2.id staged.children) := by
        rw [hp.waits, hfind]
        rfl
      by_cases hempty : members staged.children update.2.id = []
      · -- nothing to wait for: the parent is awake
        rw [hwoken, if_pos hempty]
        refine ⟨fun _ _ => ⟨by rw [hcount, hempty]; rfl, fun wait hw => ?_⟩, fun hs => (by cases hs),
          fun hs => by cases hs⟩
        obtain rfl := Option.some.inj (hafter.symm.trans hw)
        rw [hremaining, hempty]
        rfl
      · rw [hwoken, if_neg hempty]
        refine ⟨fun _ hn => absurd hs hn, fun _ hn => ?_, fun _ wait hw => ?_⟩
        · rw [hafter] at hn
          cases hn
        · obtain rfl := Option.some.inj (hafter.symm.trans hw)
          rw [hremaining, hcount]
          exact ⟨rfl, List.length_pos_iff.mpr hempty⟩
    · have hafter : after.waits update.2.id = none := by
        rw [hp.waits, hfind, hwait]
        rfl
      have hle := owing_le_members staged.children update.2.id
      rw [hwoken]
      refine ⟨fun _ hs => ⟨?_, fun wait hw => ?_⟩, fun _ _ => by omega, fun _ wait hw => ?_⟩
      · rw [hnone hs, List.length_nil] at hle
        omega
      · rw [hafter] at hw
        cases hw
      · rw [hafter] at hw
        cases hw

/-! ### The placed batch -/

/-- The rows of a batch were owed to the same parent before it. -/
theorem Commits.row_owes (h : Commits now commits state.begin staged turn) {update : ℕ × TaskRecord}
    (hu : update ∈ staged.updates) {parent : TaskId} (hparent : update.2.parentId = some parent) :
    ∃ row ∈ state.tasks, row.id = update.2.id ∧ creditor row = some parent := by
  obtain ⟨row, hrow, hid, hp, hactive, -⟩ := h.update_cases hu
  exact ⟨row, hrow, hid, creditor_eq_some.mpr ⟨not_terminal_of_active hactive, hp.trans hparent⟩⟩

/-- The group a batch staged for one of its tasks. -/
theorem Commits.staged_group (hj : Joins state) (h : Commits now commits state.begin staged turn)
    (hlimit : (limit : ℤ) ≤ i32Max) (hshape : Shaped staged limit) (hp : Placed state staged now turn after)
    {update : ℕ × TaskRecord} (hu : update ∈ staged.updates)
    (hfind : staged.waits.find? (fun entry => entry.1 = update.2.id) =
      some (update.2.id, preparedWait update.2.id staged.children)) :
    GroupOf after.tasks update.2.id (preparedWait update.2.id staged.children) := by
  obtain ⟨hbatch, -⟩ := h.staging.adopts
  rcases (hshape.stages update hu).cases now h.waits_nodup with
    ⟨-, hs, hsmall, -, -⟩ | ⟨hnone, -⟩
  · obtain ⟨howing, hposted, -⟩ := h.open_update hj hu (by rw [hs]; rfl)
    have howed := works_owed (h.works none) update.2.id
    change _ = owing creditor state.tasks update.2.id + 0 at howed
    have hzero : owing creditor state.tasks update.2.id = 0 := by omega
    obtain ⟨row, hrow, hid, -⟩ := h.update_cases hu
    refine ⟨?_, ?_, fun child hchild => ?_, fun r hr ho => ?_, ?_⟩
    · obtain ⟨p, hpm, hpid, -⟩ := hp.stored row hrow
      refine ⟨p, hpm, hpid.trans hid, fun hsleep => ?_⟩
      rcases hp.rows p hpm with hc | ⟨-, hfree⟩ | ⟨other, ho, rfl⟩
      · exact absurd hpid.symm (hbatch.fresh p hc row hrow)
      · exact absurd (List.mem_map.mpr ⟨update, hu, (hpid.trans hid).symm⟩) hfree
      · obtain ⟨row₁, -, -, -, -, -, -, hlive⟩ := h.update_cases ho
        rw [(woken_frame staged.waits now other.2).2.2]
        refine (hlive ?_).2
        rw [woken] at hsleep
        split at hsleep
        · cases hsleep
        · rw [hsleep]
          rfl
    · rw [preparedWait_children]
      exact hbatch.distinct.sublist (List.filter_sublist.map _)
    · rw [preparedWait_children] at hchild
      obtain ⟨r, hr, rfl⟩ := List.mem_map.mp hchild
      obtain ⟨hr, hparent⟩ := List.mem_filter.mp hr
      exact ⟨r, hp.children r hr, rfl, of_decide_eq_true hparent⟩
    · rw [preparedWait_children]
      rcases hp.rows r hr with hc | ⟨hold, -⟩ | ⟨other, hother, rfl⟩
      · exact List.mem_map_of_mem (List.mem_filter.mpr ⟨hc, decide_eq_true (creditor_eq_some.mp ho).2⟩)
      · exact absurd ho (owing_eq_zero.mp hzero r hold)
      · have hparent := (creditor_eq_some.mp ho).2
        rw [(woken_frame staged.waits now other.2).2.1] at hparent
        obtain ⟨row', hrow', -, howes⟩ := h.row_owes hother hparent
        exact absurd howes (owing_eq_zero.mp hzero row' hrow')
    · rw [preparedWait_remaining (by omega)]
      omega
  · rw [hnone] at hfind
    cases hfind

/-- A wait that was there before the batch still speaks of its group. -/
theorem Commits.kept_group (hd : state.Distinct) (hj : Joins state)
    (h : Commits now commits state.begin staged turn) (hshape : Shaped staged limit)
    (hp : Placed state staged now turn after) {parent : TaskId} {wait : TaskWait}
    (hw : state.waits parent = some wait) : GroupOf after.tasks parent wait := by
  obtain ⟨hbatch, -⟩ := h.staging.adopts
  obtain ⟨⟨p, hpm, hid, hlive⟩, hdistinct, hstored, hopen, hfits⟩ := hj.books.groups parent wait hw
  refine ⟨?_, hdistinct, fun child hchild => ?_, fun r hr ho => ?_, hfits⟩
  · obtain ⟨p', hp', hid', -⟩ := hp.stored p hpm
    refine ⟨p', hp', hid'.trans hid, fun hsleep => ?_⟩
    rcases hp.rows p' hp' with hc | ⟨hold, -⟩ | ⟨update, hu, rfl⟩
    · exact absurd hid'.symm (hbatch.fresh p' hc p hpm)
    · obtain rfl := hd.eq hold hpm hid'
      exact hlive hsleep
    · obtain ⟨row, -, -, -, -, -, -, hmarked⟩ := h.update_cases hu
      rw [(woken_frame staged.waits now update.2).2.2]
      refine (hmarked ?_).2
      rw [woken] at hsleep
      split at hsleep
      · cases hsleep
      · rw [hsleep]
        rfl
  · obtain ⟨r, hr, hrid, hparent⟩ := hstored child hchild
    obtain ⟨r', hr', hid', hparent'⟩ := hp.stored r hr
    exact ⟨r', hr', hid'.trans hrid, hparent'.trans hparent⟩
  · rcases hp.rows r hr with hc | ⟨hold, -⟩ | ⟨update, hu, rfl⟩
    · -- a child's parent is a task of the batch: it ran without a wait, or stages no children
      exfalso
      obtain ⟨update, hu, he⟩ := hshape.parents r hc
      rw [(creditor_eq_some.mp ho).2] at he
      obtain rfl := Option.some.inj he
      cases ht : update.2.status.terminal with
      | false =>
        rw [(h.open_update hj hu ht).2.2] at hw
        cases hw
      | true =>
        have hmem : r ∈ members staged.children update.2.id :=
          List.mem_filter.mpr ⟨hc, decide_eq_true (creditor_eq_some.mp ho).2⟩
        rcases (hshape.stages update hu).cases now h.waits_nodup with
          ⟨-, hs, -⟩ | ⟨-, -, -, hnone⟩
        · rw [hs] at ht
          cases ht
        · rw [hnone fun hs => by rw [hs] at ht; cases ht] at hmem
          cases hmem
    · exact hopen r hold ho
    · have hparent := (creditor_eq_some.mp ho).2
      rw [(woken_frame staged.waits now update.2).2.1] at hparent
      obtain ⟨row, hrow, hrid, howes⟩ := h.row_owes hu hparent
      rw [(woken_frame staged.waits now update.2).1, ← hrid]
      exact hopen row hrow howes

/-- A placed batch keeps the books. -/
theorem Commits.placed_books (hd : state.Distinct) (hj : Joins state)
    (h : Commits now commits state.begin staged turn) (hlimit : (limit : ℤ) ≤ i32Max)
    (hshape : Shaped staged limit) (hp : Placed state staged now turn after) :
    Books after.tasks after.waits (posted turn.deliveries) where
  lineage r hr parent hparent := by
    have hold : ∀ r₀ ∈ state.tasks, r₀.id = parent → ∃ p ∈ after.tasks, p.id = parent := fun r₀ hr₀ hid => by
      obtain ⟨p, hpm, hpid, -⟩ := hp.stored r₀ hr₀
      exact ⟨p, hpm, hpid.trans hid⟩
    rcases hp.rows r hr with hc | ⟨hkept, -⟩ | ⟨update, hu, rfl⟩
    · obtain ⟨update, hu, he⟩ := hshape.parents r hc
      rw [hparent] at he
      obtain ⟨row, hrow, hid, -⟩ := h.update_cases hu
      exact hold row hrow (hid.trans (Option.some.inj he).symm)
    · obtain ⟨p, hpm, hid⟩ := hj.books.lineage r hkept parent hparent
      exact hold p hpm hid
    · rw [(woken_frame staged.waits now update.2).2.1] at hparent
      obtain ⟨row, hrow, -, hp', -⟩ := h.update_cases hu
      obtain ⟨p, hpm, hid⟩ := hj.books.lineage row hrow parent (hp'.trans hparent)
      exact hold p hpm hid
  expects r hr := by
    rcases hp.rows r hr with hc | ⟨hkept, hfree⟩ | ⟨update, hu, rfl⟩
    · obtain ⟨howed, hwait⟩ := h.child_free hj hshape hp hc
      rw [howed]
      have hno : ∀ {P : TaskWait → Prop}, ∀ wait, after.waits r.id = some wait → P wait := fun wait hw => by
        rw [hwait] at hw
        cases hw
      exact ⟨fun _ _ => ⟨rfl, hno⟩, fun _ _ => Nat.zero_le _, fun _ => hno⟩
    · obtain ⟨howed, hwait⟩ := h.kept_free hshape hp hfree
      rw [howed]
      obtain ⟨hawake, hsingle, hjoined⟩ := hj.books.expects r hkept
      exact ⟨fun ht hs => hwait ▸ hawake ht hs, fun hs hn => hsingle hs (hwait ▸ hn),
        fun hs wait hw => hjoined hs wait (hwait ▸ hw)⟩
    · rw [(woken_frame staged.waits now update.2).1]
      exact h.written_expects hj hlimit hshape hp hu
  groups parent wait hw := by
    rw [hp.waits] at hw
    cases hfind : staged.waits.find? (fun entry => entry.1 = parent) with
    | none =>
      rw [hfind] at hw
      exact h.kept_group hd hj hshape hp hw
    | some entry =>
      have hid : entry.1 = parent := by simpa using List.find?_some hfind
      obtain ⟨update, hu, hup⟩ := hshape.waits parent
        (hid ▸ List.mem_map_of_mem (List.mem_of_find?_eq_some hfind))
      subst hup
      rcases (hshape.stages update hu).cases now h.waits_nodup with ⟨hstaged, -⟩ | ⟨hnone, -⟩
      · rw [hstaged] at hw
        obtain rfl := Option.some.inj hw
        exact h.staged_group hj hlimit hshape hp hu hstaged
      · rw [hnone] at hfind
        cases hfind

/-- Where a batch is placed, no running task has a wait, and an ended one has none or is in the log. -/
theorem Commits.placed_waits (hj : Joins state) (h : Commits now commits state.begin staged turn)
    (hshape : Shaped staged limit) (hp : Placed state staged now turn after) :
    (∀ r ∈ after.tasks, r.status = .running → after.waits r.id = none) ∧
      ∀ r ∈ after.tasks, r.status.terminal = true →
        after.waits r.id = none ∨ ∃ old ∈ turn.undo, old.id = r.id := by
  constructor
  · intro r hr hs
    rcases hp.rows r hr with hc | ⟨hkept, hfree⟩ | ⟨update, hu, rfl⟩
    · exact (h.child_free hj hshape hp hc).2
    · rw [(h.kept_free hshape hp hfree).2]
      exact hj.running r hkept hs
    · obtain ⟨-, -, -, -, -, hstopped, -⟩ := h.update_cases hu
      rw [woken] at hs
      split at hs
      · cases hs
      · exact absurd hs hstopped
  · intro r hr ht
    rcases hp.rows r hr with hc | ⟨hkept, hfree⟩ | ⟨update, hu, rfl⟩
    · exact .inl (h.child_free hj hshape hp hc).2
    · rw [(h.kept_free hshape hp hfree).2]
      exact .inl (hj.ended r hkept ht)
    · obtain ⟨row, -, hid, -, -, -, hstored, -⟩ := h.update_cases hu
      refine .inr ⟨row, ?_, hid.trans (woken_frame staged.waits now update.2).1.symm⟩
      rw [h.result]
      refine List.mem_append_right _ (List.mem_flatMap.mpr ⟨update, hu, ?_⟩)
      change row ∈ (state.tasks[update.1]?).toList
      rw [hstored]
      exact List.mem_singleton_self _

/-- A wait that was there before the batch is there where the batch is placed. -/
theorem Commits.kept_wait (hj : Joins state) (h : Commits now commits state.begin staged turn)
    (hshape : Shaped staged limit) (hp : Placed state staged now turn after) {id : TaskId} {wait : TaskWait}
    (hw : state.waits id = some wait) : after.waits id = some wait := by
  by_cases hm : id ∈ staged.updates.map (·.2.id)
  · obtain ⟨update, hu, rfl⟩ := List.mem_map.mp hm
    rcases (hshape.stages update hu).cases now h.waits_nodup with ⟨-, hs, -⟩ | ⟨hnone, -⟩
    · -- a task that stages a group ran, so it had no wait
      rw [(h.open_update hj hu (by rw [hs]; rfl)).2.2] at hw
      cases hw
    · rw [hp.waits, hnone, hw]
      rfl
  · rw [(h.kept_free hshape hp hm).2, hw]

/-- The store a successful commit turn leaves. -/
theorem commitTurn_placed {lease : Duration} {result : TaskPoll × CommitResult} {turn' : Turn}
    (hd : state.Distinct) (hconf : ∀ conf, state.conf = some conf → conf.maxAllChildren ≤ limit)
    (h : runTurn none [] commits lease now state.begin = (.ok result, turn')) :
    ∃ staged turn after locks, Commits now commits state.begin staged turn ∧ Shaped staged limit ∧
      Placed state staged now turn after ∧
      turn'.state = { clearTerminal (delivered now after (groupDeliveries turn.deliveries)) turn.undo with
        laneLocks := locks } := by
  obtain ⟨staged, turn, hcommits, hsettle⟩ := runTurn_commits h
  have hstate := congrArg Prod.fst hsettle
  simp only at hstate
  have hshape := hcommits.shaped hconf
  obtain ⟨locks, hlocks⟩ := settleTurn_fst turn staged.children staged.waits state.phases
    { wakeLanes := [], lanes := [] } commits now
  exact ⟨staged, turn, _, locks, hcommits, hshape, hcommits.placed hd hshape, hstate.trans hlocks⟩

/-- A commit turn keeps the joins. -/
theorem commitTurn_joins {lease : Duration} {result : TaskPoll × CommitResult} {turn' : Turn}
    (hd : state.Distinct) (hj : Joins state) (hlimit : (limit : ℤ) ≤ i32Max)
    (hconf : ∀ conf, state.conf = some conf → conf.maxAllChildren ≤ limit)
    (h : runTurn none [] commits lease now state.begin = (.ok result, turn')) : Joins turn'.state := by
  obtain ⟨staged, turn, after, locks, hcommits, hshape, hp, hstate⟩ := commitTurn_placed hd hconf h
  rw [hstate]
  obtain ⟨hrunning, hended⟩ := hcommits.placed_waits hj hshape hp
  exact settled_joins hp.distinct (hcommits.placed_books hd hj hlimit hshape hp) hrunning hended

/-- A commit turn leaves a group. -/
theorem commitTurn_group {lease : Duration} {result : TaskPoll × CommitResult} {turn' : Turn}
    (hd : state.Distinct) (hj : Joins state) (hlimit : (limit : ℤ) ≤ i32Max)
    (hconf : ∀ conf, state.conf = some conf → conf.maxAllChildren ≤ limit)
    (h : runTurn none [] commits lease now state.begin = (.ok result, turn')) {id : TaskId} {wait : TaskWait}
    (hw : state.waits id = some wait) : Stays turn'.state id wait := by
  obtain ⟨staged, turn, after, locks, hcommits, hshape, hp, hstate⟩ := commitTurn_placed hd hconf h
  rw [hstate]
  exact settled_group hp.distinct (hcommits.placed_books hd hj hlimit hshape hp)
    (hcommits.kept_wait hj hshape hp hw)

end

end Vyuh.Tasks.Memory
