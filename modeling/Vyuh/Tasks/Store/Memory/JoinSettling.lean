import Vyuh.Tasks.Store.Memory.Joins

/-! Settling a turn keeps the books. The queue is grouped by parent without losing a completion, each
    group of completions is paid to the parent that expects it, and a wait goes with its parent. -/

namespace Vyuh.Tasks.Memory
open Lib

variable {grouped : List Grouped} {entry : Grouped} {id : TaskId} {rows : List TaskRecord}
  {parent : TaskRecord} {wait : TaskWait}

/-! ### Grouping the queue -/

/-- The completions a grouped queue holds for a parent. -/
def tally (grouped : List Grouped) (parent : TaskId) : ℤ :=
  (grouped.map (fun entry => if entry.1 = parent then entry.2.1 else 0)).sum

/-- Parents in ascending order, each with at least one completion. -/
structure Ascending (grouped : List Grouped) : Prop where
  sorted : grouped.Pairwise (fun a b => a.1.uuid < b.1.uuid)
  positive : ∀ entry ∈ grouped, 0 < entry.2.1

theorem tally_cons (entry : Grouped) (grouped : List Grouped) (parent : TaskId) :
    tally (entry :: grouped) parent = (if entry.1 = parent then entry.2.1 else 0) + tally grouped parent := by
  simp [tally]

theorem tally_eq_zero {parent : TaskId} (h : ∀ entry ∈ grouped, entry.1 ≠ parent) :
    tally grouped parent = 0 := by
  induction grouped with
  | nil => rfl
  | cons entry grouped ih =>
    rw [tally_cons, if_neg (h entry List.mem_cons_self), zero_add]
    exact ih fun e he => h e (List.mem_cons_of_mem _ he)

/-- One more delivery is one more completion of its parent. -/
theorem tally_addDelivery (delivery : Delivery) (parent : TaskId) : ∀ grouped : List Grouped,
    tally (addDelivery grouped delivery) parent =
      tally grouped parent + if delivery.1 = parent then 1 else 0
  | [] => by simp [addDelivery, tally]
  | (key, count, first) :: grouped => by
    obtain ⟨id, result⟩ := delivery
    rw [addDelivery]
    split
    · next he =>
      subst he
      simp only [tally_cons]
      split <;> omega
    · split
      · simp only [tally_cons]
        omega
      · simp only [tally_cons, tally_addDelivery (id, result) parent grouped]
        omega

theorem mem_addDelivery {delivery : Delivery} {entry : Grouped} : ∀ {grouped : List Grouped},
    entry ∈ addDelivery grouped delivery →
      (∃ old ∈ grouped, old.1 = entry.1 ∧ old.2.1 ≤ entry.2.1) ∨ entry.1 = delivery.1 ∧ entry.2.1 = 1
  | [], h => by
    obtain rfl := List.mem_singleton.mp h
    exact .inr ⟨rfl, rfl⟩
  | (key, count, first) :: grouped, h => by
    obtain ⟨id, result⟩ := delivery
    rw [addDelivery] at h
    split at h
    · rcases List.mem_cons.mp h with rfl | h
      · exact .inl ⟨_, List.mem_cons_self, rfl, by simp⟩
      · exact .inl ⟨entry, List.mem_cons_of_mem _ h, rfl, le_refl _⟩
    · split at h
      · rcases List.mem_cons.mp h with rfl | h
        · exact .inr ⟨rfl, rfl⟩
        · exact .inl ⟨entry, h, rfl, le_refl _⟩
      · rcases List.mem_cons.mp h with rfl | h
        · exact .inl ⟨_, List.mem_cons_self, rfl, le_refl _⟩
        · rcases mem_addDelivery h with ⟨old, ho, hid, hle⟩ | hnew
          · exact .inl ⟨old, List.mem_cons_of_mem _ ho, hid, hle⟩
          · exact .inr hnew

theorem Ascending.add {delivery : Delivery} : ∀ {grouped : List Grouped}, Ascending grouped →
    Ascending (addDelivery grouped delivery)
  | [], _ => ⟨List.pairwise_singleton _ _, by simp [addDelivery]⟩
  | (key, count, first) :: grouped, h => by
    obtain ⟨id, result⟩ := delivery
    obtain ⟨hsorted, hpositive⟩ := h
    rw [List.pairwise_cons] at hsorted
    have hcount : 0 < count := hpositive _ List.mem_cons_self
    have htail : Ascending grouped := ⟨hsorted.2, fun e he => hpositive e (List.mem_cons_of_mem _ he)⟩
    rw [addDelivery]
    split
    · refine ⟨List.pairwise_cons.mpr hsorted, fun e he => ?_⟩
      rcases List.mem_cons.mp he with rfl | he
      · simpa using by omega
      · exact htail.positive e he
    · next hne =>
      split
      · next hlt =>
        refine ⟨List.pairwise_cons.mpr ⟨fun e he => ?_, List.pairwise_cons.mpr hsorted⟩, fun e he => ?_⟩
        · rcases List.mem_cons.mp he with rfl | he
          · exact hlt
          · exact BitVec.lt_trans hlt (hsorted.1 e he)
        · rcases List.mem_cons.mp he with rfl | he
          · exact Int.one_pos
          · exact hpositive e he
      · next hge =>
        have hlt : key.uuid < id.uuid := by
          have hneq : key.uuid ≠ id.uuid := fun he => hne (by
            cases key; cases id; simp only at he; rw [he])
          exact BitVec.lt_of_le_ne (BitVec.not_lt.mp hge) hneq
        have hadded : Ascending (addDelivery grouped (id, result)) := htail.add
        refine ⟨List.pairwise_cons.mpr ⟨fun e he => ?_, hadded.sorted⟩, ?_⟩
        · rcases mem_addDelivery he with ⟨old, ho, hid, -⟩ | ⟨hid, -⟩
          · rw [← hid]
            exact hsorted.1 old ho
          · rw [hid]
            exact hlt
        · intro e he
          rcases List.mem_cons.mp he with rfl | he
          · exact hcount
          · exact hadded.positive e he

theorem Ascending.later (h : Ascending (entry :: grouped)) :
    ∀ e ∈ grouped, e.1 ≠ entry.1 := fun e he heq =>
  BitVec.lt_irrefl _ (heq ▸ (List.pairwise_cons.mp h.sorted).1 e he)

/-- Only the first group of an ascending queue has completions for its parent. -/
theorem Ascending.tally_first (h : Ascending (entry :: grouped)) :
    tally (entry :: grouped) entry.1 = entry.2.1 := by
  rw [tally_cons, if_pos rfl, tally_eq_zero h.later, add_zero]

theorem Ascending.tail (h : Ascending (entry :: grouped)) :
    Ascending grouped :=
  ⟨(List.pairwise_cons.mp h.sorted).2, fun e he => h.positive e (List.mem_cons_of_mem _ he)⟩

/-- The grouped queue is ascending and holds every completion of the queue. -/
theorem groupDeliveries_spec (deliveries : List Delivery) : Ascending (groupDeliveries deliveries) ∧
    ∀ parent, tally (groupDeliveries deliveries) parent = posted deliveries parent := by
  induction deliveries using List.reverseRecOn with
  | nil => exact ⟨⟨List.Pairwise.nil, by simp [groupDeliveries]⟩, fun _ => rfl⟩
  | append_singleton deliveries delivery ih =>
    have happend : groupDeliveries (deliveries ++ [delivery]) =
        addDelivery (groupDeliveries deliveries) delivery := by
      simp [groupDeliveries]
    refine ⟨happend ▸ ih.1.add, fun parent => ?_⟩
    rw [happend, tally_addDelivery, ih.2, posted_append]
    by_cases h : delivery.1 = parent <;> simp [posted, h]

/-! ### Paying a parent -/

/-- Rewriting the parent that awaits a delivery: it is the only row with its identifier. -/
theorem awaited_rows {f : TaskRecord → TaskRecord} (hd : (rows.map (·.id)).Nodup)
    (hf : rows.find? (awaits id) = some parent) (hm : Minds parent (f parent)) :
    Rows Minds rows (modifyFirst (awaits id) f rows) ∧
      ∀ p ∈ modifyFirst (awaits id) f rows, p = f parent ∨ p.id ≠ id ∧ p ∈ rows := by
  obtain ⟨i, hi, he⟩ := modifyFirst_some (awaits id) f rows parent hf
  have hid : parent.id = id := by
    have hawaits := List.find?_some hf
    simp only [awaits, Bool.and_eq_true, decide_eq_true_eq] at hawaits
    exact hawaits.1.1
  have hrows : Rows Minds rows (modifyFirst (awaits id) f rows) := rows_modifyFound Minds.refl hf hm
  refine ⟨hrows, fun p hp => ?_⟩
  have hstored : f parent ∈ modifyFirst (awaits id) f rows := by
    rw [he]
    exact List.mem_of_getElem? (List.getElem?_set_self (List.getElem?_eq_some_iff.mp hi).1)
  by_cases hpid : p.id = id
  · left
    have hnodup : ((modifyFirst (awaits id) f rows).map (·.id)).Nodup := by
      rw [hrows.map_eq fun _ _ h => h.id]
      exact hd
    exact List.inj_on_of_nodup_map hnodup hp hstored (by rw [hpid, hm.id, hid])
  · right
    rw [he] at hp
    rcases List.mem_or_eq_of_mem_set hp with hp | rfl
    · exact ⟨hpid, hp⟩
    · exact absurd (hm.id.trans hid) hpid

/-- Waking the awaited parent leaves every debt. -/
theorem owing_awaited {f : TaskRecord → TaskRecord} (hf : rows.find? (awaits id) = some parent)
    (hc : creditor (f parent) = creditor parent) (k : TaskId) :
    owing creditor (modifyFirst (awaits id) f rows) k = owing creditor rows k := by
  obtain ⟨i, hi, he⟩ := modifyFirst_some (awaits id) f rows parent hf
  rw [he, owing_set_kept hi hc]

theorem awaits_iff {r : TaskRecord} :
    awaits id r = true ↔ r.id = id ∧ r.cancelled = false ∧ r.status = .suspended := by
  simp only [awaits, Bool.and_eq_true, decide_eq_true_eq, Bool.not_eq_true', and_assoc]

/-- Decrementing a counter that holds at least what it is charged. -/
theorem deliverWait_eq {count : ℤ} (hcount : 0 < count) (hle : count ≤ wait.remainingCompletions)
    (hfits : wait.remainingCompletions ≤ i32Max) :
    deliverWait wait count =
      if 0 < wait.remainingCompletions - count then
        .waiting { wait with remainingCompletions := wait.remainingCompletions - count }
      else .settled { wait with remainingCompletions := wait.remainingCompletions - count } := by
  have hsub : checkedSub32 wait.remainingCompletions count = some (wait.remainingCompletions - count) := by
    rw [checkedSub32, checkedAdd, if_pos, ← sub_eq_add_neg]
    simp only [i32Min, i32Max] at hfits ⊢
    omega
  rw [deliverWait, hsub]
  simp only
  rw [if_neg (by omega)]

/-- Paying the parent `id` keeps the books when its own expectations are met afterwards. -/
theorem Books.paid {rows rows' : List TaskRecord} {waits waits' : FMap TaskId TaskWait} {due : TaskId → ℕ}
    (h : Books rows waits due) (hrows : Rows Minds rows rows')
    (howing : ∀ k, owing creditor rows' k = owing creditor rows k)
    (hothers : ∀ p ∈ rows', p.id ≠ id → p ∈ rows) (hwaits : ∀ k, k ≠ id → waits' k = waits k)
    (hself : ∀ p ∈ rows', p.id = id → Expects waits' p (owing creditor rows id))
    (hgroup : ∀ wait', waits' id = some wait' → ∃ wait, waits id = some wait ∧
      wait'.children = wait.children ∧ wait'.remainingCompletions ≤ i32Max) :
    Books rows' waits' (Function.update due id 0) := by
  refine h.moved hrows (fun p hp => ?_) fun parent wait' hw => ?_
  · rw [howing]
    by_cases hid : p.id = id
    · rw [hid, Function.update_self, Nat.add_zero]
      exact hself p hp hid
    · rw [Function.update_of_ne hid]
      have he := h.expects p (hothers p hp hid)
      have hsame := hwaits p.id hid
      exact ⟨fun ht hs => hsame ▸ he.awake ht hs, fun hs hn => he.single hs (hsame ▸ hn),
        fun hs wait hw => he.joined hs wait (hsame ▸ hw)⟩
  · by_cases hid : parent = id
    · subst hid
      exact hgroup wait' hw
    · rw [hwaits parent hid] at hw
      exact ⟨wait', hw, rfl, (h.groups parent wait' hw).fits⟩

/-- A parent that awaits a group has counted what is still to come and what is due. -/
theorem Books.charged {waits : FMap TaskId TaskWait} {due : TaskId → ℕ} {count : ℤ}
    (h : Books rows waits due) (hdue : (due id : ℤ) = count) (hf : rows.find? (awaits id) = some parent)
    (hw : waits id = some wait) :
    wait.remainingCompletions = owing creditor rows id + count := by
  obtain ⟨hid, -, hs⟩ := awaits_iff.mp (List.find?_some hf)
  obtain ⟨hremaining, -⟩ := (h.expects parent (List.mem_of_find?_eq_some hf)).joined hs wait (hid ▸ hw)
  rw [hid] at hremaining
  push_cast at hremaining
  omega

/-- One parent is paid: what was due to it has reached it, and nobody else notices. -/
theorem deliverOne_books (now : DateTime) {state : MemoryState} {due : TaskId → ℕ} (hd : state.Distinct)
    (h : Books state.tasks state.waits due) (hcount : 0 < entry.2.1)
    (hdue : (due entry.1 : ℤ) = entry.2.1) :
    Rows Minds state.tasks (deliverOne now state entry).tasks ∧
      Books (deliverOne now state entry).tasks (deliverOne now state entry).waits
        (Function.update due entry.1 0) := by
  have hcases := deliverOne_cases now state entry
  generalize deliverOne now state entry = state' at hcases
  obtain ⟨id, count, result⟩ := entry
  simp only at hcases hcount hdue ⊢
  have hsame : Rows Minds state.tasks state.tasks := rows_refl Minds.refl _
  have hkept : ∀ wait, state.waits id = some wait → ∃ old, state.waits id = some old ∧
      wait.children = old.children ∧ wait.remainingCompletions ≤ i32Max := fun wait hw =>
    ⟨wait, hw, rfl, (h.groups id wait hw).fits⟩
  -- a woken parent is owed nothing more
  have hwoken : ∀ (parent : TaskRecord) (waits' : FMap TaskId TaskWait), parent.id = id →
      parent.status = .pending → owing creditor state.tasks id = 0 →
      (∀ wait, waits' id = some wait → wait.remainingCompletions = 0) →
      Expects waits' parent (owing creditor state.tasks id) := by
    intro parent waits' hid hpending howing hzero
    refine ⟨fun _ _ => ⟨howing, hid ▸ hzero⟩, fun hs => ?_, fun hs => ?_⟩ <;>
    · rw [hpending] at hs
      cases hs
  cases hcases with
  | nobody hf =>
    refine ⟨hsame, h.paid hsame (fun _ => rfl) (fun _ hp _ => hp) (fun _ _ => rfl) (fun p hp hid => ?_) hkept⟩
    subst hid
    have he := h.expects p hp
    refine ⟨fun ht hs => ⟨?_, (he.awake ht hs).2⟩, fun hs hn => ?_, fun hs wait hw => ?_⟩
    · have howed := (he.awake ht hs).1
      omega
    · have howed := he.single hs hn
      omega
    · -- a sleeping parent with a wait awaits its completions
      obtain ⟨q, hq, hqid, hqc⟩ := (h.groups p.id wait hw).root
      obtain rfl := hd.eq hq hp hqid
      exact absurd (awaits_iff.mpr ⟨rfl, hqc hs, hs⟩) (List.find?_eq_none.mp hf q hq)
  | @direct parent hf hw =>
    obtain ⟨hid, hc, hs⟩ := awaits_iff.mp (List.find?_some hf)
    have hsingle := (h.expects parent (List.mem_of_find?_eq_some hf)).single hs (hid ▸ hw)
    rw [hid] at hsingle
    obtain ⟨hrows, hmem⟩ := awaited_rows
      (f := fun task => wake now { task with resumeInput := some result, updatedAt := now }) hd hf
      ⟨rfl, rfl, fun ht => (by rw [hs] at ht; cases ht), fun hw => by cases hw⟩
    refine ⟨hrows, h.paid hrows (owing_awaited hf ?_) (fun p hp hne => ?_) (fun _ _ => rfl)
      (fun p hp hpid => ?_) hkept⟩
    · rw [creditor, creditor, hs]
      rfl
    · rcases hmem p hp with rfl | ⟨-, hp⟩
      · exact absurd hid hne
      · exact hp
    · rcases hmem p hp with rfl | ⟨hne, -⟩
      · refine hwoken _ _ hid rfl (by omega) fun wait hwait => ?_
        rw [hw] at hwait
        cases hwait
      · exact absurd hpid hne
  | @underflow parent wait hf hw hdeliver =>
    have hremaining := h.charged hdue hf hw
    rw [deliverWait_eq hcount (by omega) (h.groups id wait hw).fits] at hdeliver
    split at hdeliver <;> cases hdeliver
  | @waiting parent wait wait' hf hw hdeliver =>
    obtain ⟨hid, hc, hs⟩ := awaits_iff.mp (List.find?_some hf)
    have hremaining := h.charged hdue hf hw
    have hfits := (h.groups id wait hw).fits
    rw [deliverWait_eq hcount (by omega) hfits] at hdeliver
    split at hdeliver
    · next hpos =>
      obtain rfl := Delivered.waiting.inj hdeliver
      refine ⟨hsame, h.paid hsame (fun _ => rfl) (fun _ hp _ => hp) (fun k hk => FMap.insert_of_ne _ _ hk)
        (fun p hp hpid => ?_) fun wait' hw' => ?_⟩
      · obtain rfl := hd.eq hp (List.mem_of_find?_eq_some hf) (hpid.trans hid.symm)
        refine ⟨fun _ hn => absurd hs hn, fun _ hn => ?_, fun _ wait' hw' => ?_⟩
        · simp only [hpid, FMap.insert_self, reduceCtorEq] at hn
        · simp only [hpid, FMap.insert_self, Option.some.injEq] at hw'
          subst hw'
          simp only
          omega
      · simp only [FMap.insert_self, Option.some.injEq] at hw'
        subst hw'
        exact ⟨wait, hw, rfl, by simp only; omega⟩
    · cases hdeliver
  | @settled parent wait wait' hf hw hdeliver =>
    obtain ⟨hid, hc, hs⟩ := awaits_iff.mp (List.find?_some hf)
    have hremaining := h.charged hdue hf hw
    have hfits := (h.groups id wait hw).fits
    rw [deliverWait_eq hcount (by omega) hfits] at hdeliver
    split at hdeliver
    · cases hdeliver
    · next hzero =>
      obtain rfl := Delivered.settled.inj hdeliver
      obtain ⟨hrows, hmem⟩ := awaited_rows (f := fun task => wake now { task with updatedAt := now }) hd hf
        ⟨rfl, rfl, fun ht => (by rw [hs] at ht; cases ht), fun hw => by cases hw⟩
      refine ⟨hrows, h.paid hrows (owing_awaited hf ?_) (fun p hp hne => ?_)
        (fun k hk => FMap.insert_of_ne _ _ hk) (fun p hp hpid => ?_) fun wait' hw' => ?_⟩
      · rw [creditor, creditor, hs]
        rfl
      · rcases hmem p hp with rfl | ⟨-, hp⟩
        · exact absurd hid hne
        · exact hp
      · rcases hmem p hp with rfl | ⟨hne, -⟩
        · refine hwoken _ _ hid rfl (by omega) fun wait' hw' => ?_
          simp only [FMap.insert_self, Option.some.injEq] at hw'
          subst hw'
          simp only
          omega
        · exact absurd hpid hne
      · simp only [FMap.insert_self, Option.some.injEq] at hw'
        subst hw'
        exact ⟨wait, hw, rfl, by simp only; omega⟩

/-- The first parent of a queue is paid, and the rest of the queue stays due. -/
theorem deliverOne_first (now : DateTime) {state : MemoryState} (hd : state.Distinct)
    (ha : Ascending (entry :: grouped))
    (h : Books state.tasks state.waits fun parent => (tally (entry :: grouped) parent).toNat) :
    Rows Minds state.tasks (deliverOne now state entry).tasks ∧ (deliverOne now state entry).Distinct ∧
      Ascending grouped ∧ Books (deliverOne now state entry).tasks (deliverOne now state entry).waits
        fun parent => (tally grouped parent).toNat := by
  have hcount := ha.positive entry List.mem_cons_self
  have hown := ha.tally_first
  obtain ⟨hrows, hbooks⟩ := deliverOne_books now hd h hcount (by rw [hown]; omega)
  have hrest : Function.update (fun parent => (tally (entry :: grouped) parent).toNat) entry.1 0 =
      fun parent => (tally grouped parent).toNat := by
    funext parent
    by_cases hp : parent = entry.1
    · rw [hp, Function.update_self, tally_eq_zero ha.later]
      rfl
    · rw [Function.update_of_ne hp, tally_cons, if_neg (Ne.symm hp), zero_add]
  rw [hrest] at hbooks
  refine ⟨hrows, ?_, ha.tail, hbooks⟩
  rw [MemoryState.Distinct, hrows.map_eq fun _ _ h => h.id]
  exact hd

/-- The whole queue is paid, parent by parent. -/
theorem delivered_books (now : DateTime) : ∀ (grouped : List Grouped) (state : MemoryState),
    state.Distinct → Ascending grouped →
    Books state.tasks state.waits (fun parent => (tally grouped parent).toNat) →
      Rows Minds state.tasks (delivered now state grouped).tasks ∧
        Books (delivered now state grouped).tasks (delivered now state grouped).waits fun _ => 0
  | [], state, _, _, h => ⟨rows_refl Minds.refl _, h⟩
  | entry :: grouped, state, hd, ha, h => by
    obtain ⟨hrows, hd', ha', hbooks⟩ := deliverOne_first now hd ha h
    obtain ⟨hrows', hbooks'⟩ := delivered_books now grouped (deliverOne now state entry) hd' ha' hbooks
    exact ⟨rows_trans (fun _ _ _ h h' => h.trans h') hrows hrows', hbooks'⟩

/-- A counter holds what is charged to it: what the queue has for a parent that awaits a group. -/
theorem Books.covers {waits : FMap TaskId TaskWait} (ha : Ascending (entry :: grouped))
    (h : Books rows waits fun parent => (tally (entry :: grouped) parent).toNat)
    (hf : rows.find? (awaits entry.1) = some parent) (hw : waits entry.1 = some wait) :
    0 < entry.2.1 ∧ entry.2.1 ≤ wait.remainingCompletions ∧ wait.remainingCompletions ≤ i32Max := by
  have hcount := ha.positive entry List.mem_cons_self
  have hdue : ((tally (entry :: grouped) entry.1).toNat : ℤ) = entry.2.1 := by
    rw [ha.tally_first]
    omega
  have hcharged := h.charged hdue hf hw
  exact ⟨hcount, by omega, (h.groups entry.1 wait hw).fits⟩

/-- No payment of a queue takes a counter below zero. -/
theorem delivered_within (now : DateTime) : ∀ (paid : List Grouped) {state : MemoryState} {entry : Grouped}
    {rest : List Grouped}, state.Distinct → Ascending (paid ++ entry :: rest) →
    Books state.tasks state.waits (fun parent => (tally (paid ++ entry :: rest) parent).toNat) →
    ∀ {parent : TaskRecord} {wait : TaskWait},
      (delivered now state paid).tasks.find? (awaits entry.1) = some parent →
      (delivered now state paid).waits entry.1 = some wait → deliverWait wait entry.2.1 ≠ .underflow
  | [], state, entry, rest, _, ha, h, parent, wait, hf, hw => by
    obtain ⟨hcount, hle, hfits⟩ := h.covers ha hf hw
    rw [deliverWait_eq hcount hle hfits]
    split <;> simp
  | first :: paid, state, entry, rest, hd, ha, h, parent, wait, hf, hw => by
    obtain ⟨-, hd', ha', hbooks⟩ := deliverOne_first now hd ha h
    exact delivered_within now paid hd' ha' hbooks hf hw

/-- What is left of a wait: the same members, and nothing more to count. -/
def Shrinks (wait wait' : TaskWait) : Prop :=
  wait'.children = wait.children ∧ wait'.remainingCompletions ≤ wait.remainingCompletions

theorem Shrinks.refl (wait : TaskWait) : Shrinks wait wait := ⟨rfl, le_refl _⟩

theorem Shrinks.trans {a b c : TaskWait} (h : Shrinks a b) (h' : Shrinks b c) : Shrinks a c :=
  ⟨h'.1.trans h.1, h'.2.trans h.2⟩

/-- A payment keeps every group. -/
theorem deliverOne_group (now : DateTime) {state : MemoryState} (ha : Ascending (entry :: grouped))
    (h : Books state.tasks state.waits fun parent => (tally (entry :: grouped) parent).toNat)
    (hw : state.waits id = some wait) :
    ∃ wait', (deliverOne now state entry).waits id = some wait' ∧ Shrinks wait wait' := by
  -- a counter that is charged holds the charge, so its wait is not taken away
  have hkept : ∀ {parent : TaskRecord} {old : TaskWait}, state.tasks.find? (awaits entry.1) = some parent →
      state.waits entry.1 = some old → ∀ {left : TaskWait},
      deliverWait old entry.2.1 = .waiting left ∨ deliverWait old entry.2.1 = .settled left →
        ∃ wait', state.waits.insert entry.1 left id = some wait' ∧ Shrinks wait wait' := by
    intro parent old hf hold left hleft
    obtain ⟨hcount, hle, hfits⟩ := h.covers ha hf hold
    have hshrinks : Shrinks old left := by
      rw [deliverWait_eq hcount hle hfits] at hleft
      split at hleft <;> rcases hleft with hleft | hleft <;> cases hleft <;>
        exact ⟨rfl, by simp only; omega⟩
    by_cases hid : id = entry.1
    · subst hid
      obtain rfl := Option.some.inj (hw.symm.trans hold)
      exact ⟨left, FMap.insert_self _ _ _, hshrinks⟩
    · exact ⟨wait, (FMap.insert_of_ne _ _ hid).trans hw, .refl wait⟩
  have hcases := deliverOne_cases now state entry
  generalize deliverOne now state entry = after at hcases ⊢
  cases hcases with
  | nobody hf => exact ⟨wait, hw, .refl wait⟩
  | direct hf hnone => exact ⟨wait, hw, .refl wait⟩
  | underflow hf hold hdeliver =>
    obtain ⟨hcount, hle, hfits⟩ := h.covers ha hf hold
    rw [deliverWait_eq hcount hle hfits] at hdeliver
    split at hdeliver <;> cases hdeliver
  | waiting hf hold hdeliver => exact hkept hf hold (.inl hdeliver)
  | settled hf hold hdeliver => exact hkept hf hold (.inr hdeliver)

/-- Paying a queue keeps every group. -/
theorem delivered_group (now : DateTime) : ∀ (grouped : List Grouped) (state : MemoryState),
    state.Distinct → Ascending grouped →
    Books state.tasks state.waits (fun parent => (tally grouped parent).toNat) →
    ∀ {id : TaskId} {wait : TaskWait}, state.waits id = some wait →
      ∃ wait', (delivered now state grouped).waits id = some wait' ∧ Shrinks wait wait'
  | [], _, _, _, _, _, wait, hw => ⟨wait, hw, .refl wait⟩
  | entry :: grouped, state, hd, ha, h, _, _, hw => by
    obtain ⟨-, hd', ha', hbooks⟩ := deliverOne_first now hd ha h
    obtain ⟨wait₁, hw₁, hfirst⟩ := deliverOne_group now ha h hw
    obtain ⟨wait', hw', hrest⟩ := delivered_group now grouped _ hd' ha' hbooks hw₁
    exact ⟨wait', hw', hfirst.trans hrest⟩

end Vyuh.Tasks.Memory
