import Vyuh.Channels.Sessions

/-! Replay after a reconnect. A publisher takes its event id before the lock, so two publishers can
    append out of the order of their ids; when they do not (`Orderly`), and before the id counter wraps,
    every history is sorted by id. The replay is then the oldest part of what is retained after the
    cursor, up to the replay limit, and the live stream goes on with what is appended afterwards. -/

namespace Vyuh.Channels

open Lib

variable {V : Type}

/-- Whether a step may take an event id. -/
def Act.allocates : Act V → Bool
  | .allocate .. => true
  | .debounced .. => true
  | _ => false

namespace World

/-- A step that appends in the order of the ids: the oldest id taken is appended first, and a debounced
    delivery does not overtake a publisher. -/
def Orderly (w : World V) : Act V → Prop
  | .append n => n = 0
  | .debounced .. => w.allocated = []
  | _ => True

def OrderlyRun : World V → List (Act V) → Prop
  | _, [] => True
  | w, act :: acts => w.Orderly act ∧ (w.step act).OrderlyRun acts

/-- The ids of a history, and then of the pending events, are related in their order: by `<` when they
    are appended as they are taken, and by `≠` in any case. -/
structure Ordered (R : ℕ → ℕ → Prop) (w : World V) : Prop where
  history : ∀ t, (w.history t).Pairwise fun a b => R a.id b.id
  pending : w.allocated.Pairwise fun a b => R a.2.id b.2.id
  apart : ∀ t, ∀ e ∈ w.history t, ∀ p ∈ w.allocated, R e.id p.2.id
  appended : ∀ t, ∀ e ∈ w.history t, e.id < w.runtime.nextEvent
  taken : ∀ p ∈ w.allocated, p.2.id < w.runtime.nextEvent

/-- The newest `limit` of a list. -/
def newest (limit : ℕ) (events : List ChannelEvent) : List ChannelEvent :=
  events.drop (events.length - limit)

/-- Every log retains the newest part of its channel's history. -/
structure Retains (w : World V) : Prop where
  none : ∀ t, w.runtime.state.channel t = none → w.history t = []
  some : ∀ t channel, w.runtime.state.channel t = some channel →
    channel.log.events = newest w.runtime.conf.retentionEvents (w.history t)

theorem newest_append {log : SubscriptionLog} {history : List ChannelEvent} {limit : ℕ}
    (h : log.events = newest limit history) (event : ChannelEvent) :
    (log.append event limit).events = newest limit (history ++ [event]) := by
  rw [SubscriptionLog.append]
  split
  next hzero =>
    subst hzero
    rw [h, newest, newest, Nat.sub_zero, Nat.sub_zero, List.drop_length, List.drop_length]
  next hpos =>
    have hle : history.length - limit ≤ history.length := Nat.sub_le ..
    have hcat : log.events ++ [event] = (history ++ [event]).drop (history.length - limit) := by
      rw [h, newest, List.drop_append_of_le_length hle]
    dsimp only
    rw [hcat, List.drop_drop, newest]
    congr 1
    rw [List.length_drop, List.length_append, List.length_singleton]
    omega

theorem record_retains {w : World V} (h : w.Retains) {target : ChannelTarget}
    {channel : ChannelState V} (hchannel : w.runtime.state.channel target = some channel)
    (event : ChannelEvent) : (w.record target channel event).Retains := by
  refine ⟨?_, ?_⟩
  · intro t hnone
    rw [record_channel] at hnone
    by_cases ht : t = target
    · rw [if_pos ht] at hnone
      exact nomatch hnone
    · rw [if_neg ht] at hnone
      rw [record_history, if_neg ht]
      exact h.none t hnone
  · intro t after hafter
    rw [record_channel] at hafter
    by_cases ht : t = target
    · subst ht
      rw [if_pos rfl] at hafter
      rw [record_history, if_pos rfl, ← Option.some.inj hafter]
      exact newest_append (h.some t channel hchannel) event
    · rw [if_neg ht] at hafter
      rw [record_history, if_neg ht]
      exact h.some t after hafter

theorem step_retains {w : World V} (h : w.Retains) (act : Act V) : (w.step act).Retains := by
  cases act with
  | candidates typeId value attachedOnly payload => exact ⟨h.none, h.some⟩
  | allocate n createdAt =>
    rw [step]
    split
    · exact h
    · dsimp only
      split <;> exact ⟨h.none, h.some⟩
  | append n =>
    rw [step]
    split
    · exact h
    next targets event _ =>
      have hstart : ({ w with allocated := w.allocated.eraseIdx n } : World V).Retains := ⟨h.none, h.some⟩
      exact foldl_appendTo_inv (fun _ _ _ h hchannel => record_retains h hchannel event) targets hstart
  | debounced key payload createdAt =>
    rw [step]
    rcases deliverDebounced_cases w key payload createdAt with heq | ⟨channel, hchannel, heq⟩
    · rw [heq]
      exact h
    · rw [heq]
      have hfetched : ({ w with runtime := w.runtime.fetchEvent.2 } : World V).Retains := ⟨h.none, h.some⟩
      exact record_retains hfetched hchannel _
  | attach target deliveries after =>
    rcases openUser_cases w.runtime target deliveries after with
      ⟨error, heq⟩ | ⟨channel, hchannel, hlog, -, heq⟩
    · simp only [step, heq]
      exact ⟨h.none, h.some⟩
    · simp only [step, heq]
      refine ⟨?_, ?_⟩
      · intro t hnone
        rw [LocalChannelState.channel_setChannel, LocalChannelState.replacePolicy_channel] at hnone
        by_cases ht : t = target
        · rw [if_pos ht] at hnone
          cases hnone
        · rw [if_neg ht, if_neg ht] at hnone
          exact h.none t hnone
      · intro t after' hafter
        rw [LocalChannelState.channel_setChannel, LocalChannelState.replacePolicy_channel] at hafter
        by_cases ht : t = target
        · subst ht
          rw [if_pos rfl] at hafter
          rw [← Option.some.inj hafter]
          refine (congrArg SubscriptionLog.events hlog).trans ?_
          cases hbefore : w.runtime.state.channel t with
          | none => simp [h.none t hbefore, newest, ChannelState.fresh]
          | some before => exact h.some t before hbefore
        · rw [if_neg ht, if_neg ht] at hafter
          exact h.some t after' hafter
  | recv sender => exact ⟨h.none, h.some⟩
  | close sender =>
    rw [step]
    split
    · exact h
    next lease _ =>
      dsimp only
      rw [SubscriptionRuntime.removeSession]
      cases hchannel : w.runtime.state.channel lease.target with
      | none => exact ⟨h.none, h.some⟩
      | some channel =>
        refine ⟨?_, ?_⟩
        · intro t hnone
          have hset := (LocalChannelState.channel_setChannel ..).symm.trans hnone
          split at hset
          · cases hset
          · exact h.none t hset
        · intro t after hafter
          have hset := (LocalChannelState.channel_setChannel ..).symm.trans hafter
          split at hset
          next ht =>
            cases hset
            exact h.some t channel (ht ▸ hchannel)
          next => exact h.some t after hset

/-! ### Order -/

/-- Appended to distinct channels, an event is appended to each history once at most. -/
theorem foldl_appendTo_history (event : ChannelEvent) {targets : List DeliveryTarget}
    (hnodup : (targets.map DeliveryTarget.channel).Nodup) (w : World V) (t : ChannelTarget) :
    (targets.foldl (appendTo event) w).history t = w.history t ∨
      (targets.foldl (appendTo event) w).history t = w.history t ++ [event] := by
  induction targets generalizing w with
  | nil => exact .inl rfl
  | cons target rest ih =>
    rw [List.map_cons, List.nodup_cons] at hnodup
    rw [List.foldl_cons]
    rcases appendTo_cases event w target with heq | ⟨channel, -, heq⟩
    · rw [heq]
      exact ih hnodup.2 w
    · rw [heq]
      by_cases ht : t = target.channel
      · rw [foldl_appendTo_off event (ht ▸ hnodup.1), record_history, if_pos ht]
        exact .inr rfl
      · have hrest := ih hnodup.2 (w.record target.channel channel event)
        rwa [record_history, if_neg ht] at hrest

theorem related_append {R : ℕ → ℕ → Prop} {history : List ChannelEvent} {event : ChannelEvent}
    (h : history.Pairwise fun a b => R a.id b.id) (hlast : ∀ e ∈ history, R e.id event.id) :
    (history ++ [event]).Pairwise fun a b => R a.id b.id := by
  refine List.pairwise_append.mpr ⟨h, List.pairwise_singleton .., ?_⟩
  intro a ha b hb
  rw [List.mem_singleton.mp hb]
  exact hlast a ha

/-- The event appended next is related to all that stay pending: it is the first of them, or the order
    does not matter. -/
theorem pending_related {R : ℕ → ℕ → Prop} {w : World V} (h : w.Ordered R) {n : ℕ}
    (horderly : n = 0 ∨ Std.Symm R) {targets : List DeliveryTarget} {event : ChannelEvent}
    (hn : w.allocated[n]? = some (targets, event)) :
    ∀ p ∈ w.allocated.eraseIdx n, R event.id p.2.id := by
  obtain ⟨hlt, hget⟩ := List.getElem?_eq_some_iff.mp hn
  rcases horderly with rfl | hsymm
  · intro p hp
    have hcons : w.allocated = (targets, event) :: w.allocated.eraseIdx 0 := by
      rw [List.eraseIdx_zero, ← hget, List.getElem_zero, List.cons_head_tail]
    have hsorted := h.pending
    rw [hcons, List.pairwise_cons] at hsorted
    exact hsorted.1 p hp
  · intro p hp
    have hperm := List.getElem_cons_eraseIdx_perm hlt
    rw [hget] at hperm
    have hrelated := (hperm.pairwise_iff fun hab => hsymm.symm _ _ hab).mpr h.pending
    exact (List.pairwise_cons.mp hrelated).1 p hp

theorem step_ordered {R : ℕ → ℕ → Prop} (hR : ∀ {a b}, a < b → R a b) {w : World V} (h : w.Ordered R)
    (hd : w.Distinct) {act : Act V} (horderly : w.Orderly act ∨ Std.Symm R)
    (hnext : w.runtime.nextEvent + 1 < 2 ^ 64) :
    (w.step act).Ordered R ∧ (w.step act).runtime.nextEvent ≤
      w.runtime.nextEvent + if act.allocates then 1 else 0 := by
  have hwrap : wrappingAddU64 w.runtime.nextEvent 1 = w.runtime.nextEvent + 1 := Nat.mod_eq_of_lt hnext
  have hlater : ∀ id, id < w.runtime.nextEvent → id < wrappingAddU64 w.runtime.nextEvent 1 :=
    fun id hid => hwrap ▸ hid.trans (Nat.lt_succ_self _)
  cases act with
  | candidates typeId value attachedOnly payload =>
    exact ⟨⟨h.history, h.pending, h.apart, h.appended, h.taken⟩, le_rfl⟩
  | allocate n createdAt =>
    rw [step]
    split
    · exact ⟨h, Nat.le_succ _⟩
    · dsimp only
      split
      · exact ⟨⟨h.history, h.pending, h.apart, h.appended, h.taken⟩, Nat.le_succ _⟩
      · refine ⟨⟨h.history, ?_, ?_, ?_, ?_⟩, hwrap.le⟩
        · refine List.pairwise_append.mpr ⟨h.pending, List.pairwise_singleton .., ?_⟩
          intro a ha b hb
          rw [List.mem_singleton.mp hb]
          exact hR (h.taken a ha)
        · intro t e he p hp
          rcases List.mem_append.mp hp with hp | hp
          · exact h.apart t e he p hp
          · rw [List.mem_singleton.mp hp]
            exact hR (h.appended t e he)
        · exact fun t e he => hlater e.id (h.appended t e he)
        · intro p hp
          rcases List.mem_append.mp hp with hp | hp
          · exact hlater _ (h.taken p hp)
          · rw [List.mem_singleton.mp hp]
            exact (Nat.lt_succ_self w.runtime.nextEvent).trans_eq hwrap.symm
  | append n =>
    rw [step]
    cases hpending : w.allocated[n]? with
    | none => exact ⟨h, le_rfl⟩
    | some next =>
      obtain ⟨targets, event⟩ := next
      have hmem : ∀ p ∈ w.allocated.eraseIdx n, p ∈ w.allocated := fun p hp => List.mem_of_mem_eraseIdx hp
      have hnext : (targets, event) ∈ w.allocated := List.mem_of_getElem? hpending
      have hframe := foldl_appendTo_frame event targets { w with allocated := w.allocated.eraseIdx n }
      have hhistory := foldl_appendTo_history event (hd.allocated _ hnext)
        { w with allocated := w.allocated.eraseIdx n }
      refine ⟨⟨?_, ?_, ?_, ?_, ?_⟩, hframe.nextEvent.le⟩
      · intro t
        rcases hhistory t with heq | heq
        · rw [heq]
          exact h.history t
        · rw [heq]
          exact related_append (h.history t) fun e he => h.apart t e he _ hnext
      · rw [hframe.allocated]
        exact h.pending.sublist (List.eraseIdx_sublist ..)
      · rw [hframe.allocated]
        intro t e he p hp
        rcases hhistory t with heq | heq
        · exact h.apart t e (heq ▸ he) p (hmem p hp)
        · rcases List.mem_append.mp (heq ▸ he) with he | he
          · exact h.apart t e he p (hmem p hp)
          · rw [List.mem_singleton.mp he]
            exact pending_related h horderly hpending p hp
      · rw [hframe.nextEvent]
        intro t e he
        rcases hhistory t with heq | heq
        · exact h.appended t e (heq ▸ he)
        · rcases List.mem_append.mp (heq ▸ he) with he | he
          · exact h.appended t e he
          · rw [List.mem_singleton.mp he]
            exact h.taken _ hnext
      · rw [hframe.allocated, hframe.nextEvent]
        exact fun p hp => h.taken p (hmem p hp)
  | debounced key payload createdAt =>
    rw [step]
    rcases deliverDebounced_cases w key payload createdAt with heq | ⟨channel, -, heq⟩
    · rw [heq]
      exact ⟨h, Nat.le_succ _⟩
    · rw [heq]
      refine ⟨⟨?_, h.pending, ?_, ?_, fun p hp => hlater _ (h.taken p hp)⟩, hwrap.le⟩
      · intro t
        rw [record_history]
        split
        · exact related_append (h.history t) fun e he => hR (h.appended t e he)
        · exact h.history t
      · intro t e he p hp
        rcases horderly with hnone | hsymm
        · cases (show w.allocated = [] from hnone) ▸ hp
        · rw [record_history] at he
          split at he
          · rcases List.mem_append.mp he with he | he
            · exact h.apart t e he p hp
            · rw [List.mem_singleton.mp he]
              exact hsymm.symm _ _ (hR (h.taken p hp))
          · exact h.apart t e he p hp
      · intro t e he
        have hbound : e.id ≤ w.runtime.nextEvent := by
          rw [record_history] at he
          split at he
          · rcases List.mem_append.mp he with he | he
            · exact (h.appended t e he).le
            · rw [List.mem_singleton.mp he]
          · exact (h.appended t e he).le
        exact (Nat.lt_succ_of_le hbound).trans_eq hwrap.symm
  | attach target deliveries after =>
    rcases openUser_cases w.runtime target deliveries after with ⟨error, heq⟩ | ⟨channel, -, -, -, heq⟩
    · simp only [step, heq]
      exact ⟨⟨h.history, h.pending, h.apart, h.appended, h.taken⟩, le_rfl⟩
    · simp only [step, heq]
      exact ⟨⟨h.history, h.pending, h.apart, h.appended, h.taken⟩, le_rfl⟩
  | recv sender => exact ⟨⟨h.history, h.pending, h.apart, h.appended, h.taken⟩, le_rfl⟩
  | close sender =>
    rw [step]
    split
    · exact ⟨h, le_rfl⟩
    next lease _ =>
      have hsame : (w.runtime.removeSession lease.target lease.id).nextEvent = w.runtime.nextEvent := by
        rw [SubscriptionRuntime.removeSession]
        cases w.runtime.state.channel lease.target <;> rfl
      refine ⟨⟨h.history, h.pending, h.apart, ?_, ?_⟩, hsame.le⟩
      · dsimp only
        rw [hsame]
        exact h.appended
      · dsimp only
        rw [hsame]
        exact h.taken

theorem run_ordered {R : ℕ → ℕ → Prop} (hR : ∀ {a b}, a < b → R a b) {w : World V} (h : w.Ordered R)
    (hd : w.Distinct) {acts : List (Act V)} (horderly : w.OrderlyRun acts ∨ Std.Symm R)
    (hids : w.runtime.nextEvent + acts.countP Act.allocates + 1 < 2 ^ 64) :
    (w.run acts).Ordered R ∧ (w.run acts).runtime.nextEvent ≤
      w.runtime.nextEvent + acts.countP Act.allocates := by
  induction acts generalizing w with
  | nil => exact ⟨h, le_rfl⟩
  | cons act rest ih =>
    rw [List.countP_cons] at hids ⊢
    obtain ⟨hstep, hnext⟩ := step_ordered hR h hd (horderly.imp_left And.left) (by omega)
    obtain ⟨hrun, hlast⟩ := ih hstep (step_distinct hd act) (horderly.imp_left And.right) (by omega)
    exact ⟨hrun, hlast.trans (by omega)⟩

theorem new_ordered (R : ℕ → ℕ → Prop) (conf : ChannelConf) : (new conf : World V).Ordered R where
  history _ := .nil
  pending := .nil
  apart _ _ h := nomatch h
  appended _ _ h := nomatch h
  taken _ h := nomatch h

theorem run_retains {w : World V} (h : w.Retains) (acts : List (Act V)) : (w.run acts).Retains := by
  induction acts generalizing w with
  | nil => exact h
  | cons act rest ih => exact ih (step_retains h act)

/-! ### What a session keeps -/

/-- What later steps leave of a session that was opened, and of what was appended. -/
structure Later (w w' : World V) : Prop where
  conf : w'.runtime.conf = w.runtime.conf
  made : w.runtime.made ≤ w'.runtime.made
  leases : ∀ sender < w.runtime.made, w'.leases sender = w.leases sender
  replays : ∀ sender < w.runtime.made, w'.replays sender = w.replays sender
  since : ∀ sender < w.runtime.made, w'.since sender = w.since sender
  history : ∀ t, w.history t <+: w'.history t

theorem Later.refl (w : World V) : Later w w :=
  ⟨rfl, le_rfl, fun _ _ => rfl, fun _ _ => rfl, fun _ _ => rfl, fun _ => List.prefix_rfl⟩

theorem Later.trans {w w' w'' : World V} (h : Later w w') (h' : Later w' w'') : Later w w'' where
  conf := h'.conf.trans h.conf
  made := h.made.trans h'.made
  leases s hs := (h'.leases s (hs.trans_le h.made)).trans (h.leases s hs)
  replays s hs := (h'.replays s (hs.trans_le h.made)).trans (h.replays s hs)
  since s hs := (h'.since s (hs.trans_le h.made)).trans (h.since s hs)
  history t := (h.history t).trans (h'.history t)

theorem record_later (w : World V) (target : ChannelTarget) (channel : ChannelState V)
    (event : ChannelEvent) : Later w (w.record target channel event) := by
  refine ⟨rfl, le_rfl, fun _ _ => rfl, fun _ _ => rfl, fun _ _ => rfl, fun t => ?_⟩
  rw [record_history]
  split
  · exact List.prefix_append ..
  · exact List.prefix_rfl

theorem step_later (w : World V) (act : Act V) : Later w (w.step act) := by
  cases act with
  | candidates typeId value attachedOnly payload =>
    exact ⟨rfl, le_rfl, fun _ _ => rfl, fun _ _ => rfl, fun _ _ => rfl, fun _ => List.prefix_rfl⟩
  | allocate n createdAt =>
    rw [step]
    split
    · exact .refl w
    · dsimp only
      split <;>
        exact ⟨rfl, le_rfl, fun _ _ => rfl, fun _ _ => rfl, fun _ _ => rfl, fun _ => List.prefix_rfl⟩
  | append n =>
    rw [step]
    split
    · exact .refl w
    next targets event _ =>
      refine foldl_appendTo_inv (P := Later w) ?_ targets
        ⟨rfl, le_rfl, fun _ _ => rfl, fun _ _ => rfl, fun _ _ => rfl, fun _ => List.prefix_rfl⟩
      exact fun w' target channel h _ => h.trans (record_later w' target channel event)
  | debounced key payload createdAt =>
    rw [step]
    rcases deliverDebounced_cases w key payload createdAt with heq | ⟨channel, -, heq⟩
    · rw [heq]
      exact .refl w
    · have hfetched : Later w { w with runtime := w.runtime.fetchEvent.2 } :=
        ⟨rfl, le_rfl, fun _ _ => rfl, fun _ _ => rfl, fun _ _ => rfl, fun _ => List.prefix_rfl⟩
      rw [heq]
      exact hfetched.trans (record_later ..)
  | attach target deliveries after =>
    rcases openUser_cases w.runtime target deliveries after with ⟨error, heq⟩ | ⟨channel, -, -, -, heq⟩
    · simp only [step, heq]
      exact ⟨rfl, Nat.le_succ _, fun _ _ => rfl, fun _ _ => rfl, fun _ _ => rfl,
        fun _ => List.prefix_rfl⟩
    · simp only [step, heq]
      refine ⟨rfl, Nat.le_succ _, ?_, ?_, ?_, fun _ => List.prefix_rfl⟩
      · exact fun s hs => FMap.insert_of_ne _ _ (Nat.ne_of_lt hs)
      · exact fun s hs => FMap.insert_of_ne _ _ (Nat.ne_of_lt hs)
      · exact fun s hs => if_neg (Nat.ne_of_lt hs)
  | recv sender =>
    exact ⟨rfl, le_rfl, fun _ _ => rfl, fun _ _ => rfl, fun _ _ => rfl, fun _ => List.prefix_rfl⟩
  | close sender =>
    rw [step]
    split
    · exact .refl w
    next lease _ =>
      have hsame : (w.runtime.removeSession lease.target lease.id).conf = w.runtime.conf ∧
          w.runtime.made = (w.runtime.removeSession lease.target lease.id).made := by
        rw [SubscriptionRuntime.removeSession]
        cases w.runtime.state.channel lease.target <;> exact ⟨rfl, rfl⟩
      exact ⟨hsame.1, hsame.2.le, fun _ _ => rfl, fun _ _ => rfl, fun _ _ => rfl, fun _ => List.prefix_rfl⟩

theorem run_later (w : World V) (acts : List (Act V)) : Later w (w.run acts) := by
  induction acts generalizing w with
  | nil => exact .refl w
  | cons act rest ih => exact (step_later w act).trans (ih (w.step act))

/-- The events a channel retains for replay. -/
def log (w : World V) (t : ChannelTarget) : List ChannelEvent :=
  ((w.runtime.state.channel t).map fun channel => channel.log.events).getD []

theorem Retains.log_eq {w : World V} (h : w.Retains) (t : ChannelTarget) :
    w.log t = newest w.runtime.conf.retentionEvents (w.history t) := by
  rw [log]
  cases hchannel : w.runtime.state.channel t with
  | none => simp [h.none t hchannel, newest]
  | some channel => exact h.some t channel hchannel

theorem Retains.log_suffix {w : World V} (h : w.Retains) (t : ChannelTarget) :
    w.log t <:+ w.history t := by
  rw [h.log_eq]
  exact List.drop_suffix ..

/-- An accepted session replays what the channel retains after the cursor, up to the limit. -/
theorem attach_replay {w : World V} (h : w.Tracked) {target : ChannelTarget}
    {deliveries : List (DeliverySpec V)} {after : Option ℕ} {lease : Lease}
    (hlease : (w.step (.attach target deliveries after)).leases w.runtime.made = some lease) :
    lease.target = target ∧
    (w.step (.attach target deliveries after)).runtime.made = w.runtime.made + 1 ∧
    (w.step (.attach target deliveries after)).since w.runtime.made = (w.history target).length ∧
    (w.step (.attach target deliveries after)).replays w.runtime.made =
      some (((w.log target).filter fun e => e.id > after.getD 0).take w.runtime.conf.replayLimit) := by
  rcases openUser_cases w.runtime target deliveries after with
    ⟨error, heq⟩ | ⟨channel, -, hlog, -, heq⟩
  · simp only [step, heq] at hlease
    exact absurd (h.made _ _ hlease) (Nat.lt_irrefl _)
  · simp only [step, heq] at hlease ⊢
    rw [FMap.insert_self] at hlease
    cases hlease
    refine ⟨rfl, trivial, by simp, ?_⟩
    rw [FMap.insert_self, SubscriptionLog.after, hlog, log]
    cases w.runtime.state.channel target <;> rfl

/-- What is retained of a sorted history after one of its events is retained of what followed it. -/
theorem newest_after {old rest : List ChannelEvent} {event : ChannelEvent} {limit : ℕ}
    (h : (old ++ event :: rest).Pairwise fun a b => a.id < b.id) :
    (newest limit (old ++ event :: rest)).filter (fun e => e.id > event.id) = newest limit rest := by
  obtain ⟨-, hrest, hacross⟩ := List.pairwise_append.mp h
  have hlater := (List.pairwise_cons.mp hrest).1
  have hdrop : newest limit (old ++ event :: rest) =
      (old ++ [event]).drop ((old ++ event :: rest).length - limit) ++ newest limit rest := by
    have hcount : (old ++ event :: rest).length - limit - (old ++ [event]).length = rest.length - limit := by
      simp only [List.length_append, List.length_cons, List.length_nil]
      omega
    rw [newest, newest, ← hcount, ← List.drop_append, List.append_assoc, List.singleton_append]
  have hnone : ((old ++ [event]).drop ((old ++ event :: rest).length - limit)).filter
      (fun e => e.id > event.id) = [] := by
    rw [List.filter_eq_nil_iff]
    intro e he
    rcases List.mem_append.mp (List.mem_of_mem_drop he) with he | he
    · have := hacross e he event List.mem_cons_self
      simp only [gt_iff_lt, decide_eq_true_eq]
      omega
    · rw [List.mem_singleton.mp he]
      simp
  have hall : (newest limit rest).filter (fun e => e.id > event.id) = newest limit rest := by
    rw [List.filter_eq_self]
    intro e he
    exact decide_eq_true (hlater e (List.mem_of_mem_drop he))
  rw [hdrop, List.filter_append, hnone, hall, List.nil_append]

end World

/-- CORRECT: until the id counter wraps and in every interleaving, no id is retained twice, and a session
    opened with a cursor replays what is retained after it, oldest first and up to the replay limit, and
    is then sent what is appended after its open, all of it while attached; no id comes twice. When ids
    are appended in the order they are taken, logs and what a session gets are strictly increasing, and
    what is retained after the cursor is what is retained of the events appended after the cursor's. -/
theorem reconnect_replays_in_order (conf : ChannelConf) (before later : List (Act V))
    (target : ChannelTarget) (deliveries : List (DeliverySpec V)) (after : Option ℕ)
    (hids : (before ++ .attach target deliveries after :: later).countP Act.allocates + 2 < 2 ^ 64) :
    let w := (World.new conf).run before
    let opened := w.step (.attach target deliveries after)
    let w' := opened.run later
    let retained := (w.log target).filter fun e => e.id > after.getD 0
    let live := (w'.history target).drop (w.history target).length
    let orderly := (World.new conf).OrderlyRun (before ++ .attach target deliveries after :: later)
    (∀ t, (w'.log t).Pairwise fun a b => a.id ≠ b.id) ∧
    (orderly → ∀ t, (w'.log t).Pairwise fun a b => a.id < b.id) ∧
    ∀ lease, opened.leases w.runtime.made = some lease →
      ∃ replay mailbox, w'.replays w.runtime.made = some replay ∧
        w'.runtime.mailboxes w.runtime.made = some mailbox ∧
        replay = retained.take conf.replayLimit ∧
        mailbox.sent <+: live ∧ (w'.Registered target w.runtime.made → mailbox.sent = live) ∧
        ((replay ++ mailbox.sent).Pairwise fun a b => a.id ≠ b.id) ∧
        (orderly → (replay ++ mailbox.sent).Pairwise fun a b => a.id < b.id) ∧
        (orderly → ∀ old event rest, w.history target = old ++ event :: rest →
          after = some event.id → retained = World.newest conf.retentionEvents rest) := by
  intro w opened w' retained live orderly
  have hsplit : w' = (World.new conf).run (before ++ .attach target deliveries after :: later) := by
    rw [World.run, List.foldl_append]
    rfl
  have hconsistent : w.Consistent := World.run_consistent (World.new_consistent conf) before
  have hconsistent' : w'.Consistent := hsplit ▸ World.run_consistent (World.new_consistent conf) _
  have hnone : (World.new conf : World V).Retains := ⟨fun _ _ => rfl, fun _ _ h => nomatch h⟩
  have hretains : w.Retains := World.run_retains hnone before
  have hretains' : w'.Retains := hsplit ▸ World.run_retains hnone _
  have hstart : (World.new conf : World V).runtime.nextEvent = 1 := rfl
  have hapart : w'.Ordered (· ≠ ·) := by
    rw [hsplit]
    exact (World.run_ordered Nat.ne_of_lt (World.new_ordered _ conf) (World.new_consistent conf).distinct
      (.inr ⟨fun _ _ => Ne.symm⟩) (by omega)).1
  have hordered : orderly → w'.Ordered (· < ·) := by
    intro horderly
    rw [hsplit]
    exact (World.run_ordered id (World.new_ordered _ conf) (World.new_consistent conf).distinct
      (.inl horderly) (by omega)).1
  have hopened : World.Later w opened := World.step_later w _
  have hlater : World.Later opened w' := World.run_later opened later
  have hconf : w.runtime.conf = conf := (World.run_later (World.new conf) before).conf
  refine ⟨fun t => (hapart.history t).sublist (hretains'.log_suffix t).sublist,
    fun horderly t => ((hordered horderly).history t).sublist (hretains'.log_suffix t).sublist, ?_⟩
  intro lease hlease
  obtain ⟨htarget, hmade, hsince, hreplay⟩ := World.attach_replay hconsistent.tracked hlease
  have hold : w.runtime.made < opened.runtime.made := hmade ▸ Nat.lt_succ_self _
  have hlease' : w'.leases w.runtime.made = some lease := (hlater.leases _ hold).trans hlease
  have hsince' : w'.since w.runtime.made = (w.history target).length := (hlater.since _ hold).trans hsince
  obtain ⟨-, mailbox, hmailbox, hsent⟩ := hconsistent'.tracked.behind _ lease hlease'
  rw [htarget, hsince'] at hsent
  -- what a session gets is a part of what was appended, in the same order
  have hpart : (retained.take conf.replayLimit ++ mailbox.sent).Sublist (w'.history target) := by
    obtain ⟨_, hhistory⟩ := (hopened.trans hlater).history target
    have hlive : live = (w'.history target).drop (w.history target).length := rfl
    rw [← hhistory, List.drop_left] at hlive
    rw [← hhistory, ← hlive]
    refine .append ?_ hsent.sublist
    exact ((List.take_sublist ..).trans List.filter_sublist).trans (hretains.log_suffix target).sublist
  refine ⟨_, mailbox, (hlater.replays _ hold).trans hreplay, hmailbox, ?_, hsent, ?_, ?_, ?_, ?_⟩
  · rw [hconf]
  · intro hregistered
    rw [(hconsistent'.tracked.live target _ mailbox hregistered hmailbox).1, hsince']
  · rw [hconf]
    exact (hapart.history target).sublist hpart
  · intro horderly
    rw [hconf]
    exact ((hordered horderly).history target).sublist hpart
  · rintro horderly old event rest hhistory rfl
    have hsorted := ((hordered horderly).history target).sublist
      ((hopened.trans hlater).history target).sublist
    rw [hhistory] at hsorted
    have hretained : retained = (w.log target).filter fun e => e.id > event.id := rfl
    rw [hretained, hretains.log_eq, hhistory, hconf]
    exact World.newest_after hsorted

/-- A client that takes every signal of one type, on one channel. -/
def room : ChannelTarget := ⟨"u", "c"⟩

def everything : DeliverySpec Unit := ⟨⟨0⟩, "s", fun _ => true, fun _ => none, none⟩

def publisher : Act Unit := .candidates ⟨0⟩ () false ⟨"s", "null"⟩

/-- The client is away while two publishers append, each before the next takes its id. -/
def apartRun : List (Act Unit) :=
  [.attach room [everything] none, .close 0, publisher, .allocate 0 0, .append 0, publisher,
    .allocate 0 0, .append 0]

theorem reconnect_replays_in_order_two_events :
    let w := (World.new ⟨4, 4, 4, 4, 4⟩ : World Unit).run apartRun
    let opened := w.step (.attach room [everything] (some 1))
    opened.replays 1 = some (World.newest 4 [⟨2, "s", "null", 0⟩]) := by
  intro w opened
  have hall := reconnect_replays_in_order ⟨4, 4, 4, 4, 4⟩ apartRun [] room [everything] (some 1)
    (by decide)
  obtain ⟨replay, mailbox, hreplay, -, htake, -, -, -, -, hafter⟩ := hall.2.2 ⟨room, 2⟩ rfl
  have horderly : (World.new ⟨4, 4, 4, 4, 4⟩).OrderlyRun
      (apartRun ++ [.attach room [everything] (some 1)]) :=
    ⟨trivial, trivial, trivial, trivial, rfl, trivial, trivial, rfl, trivial, trivial⟩
  rw [hafter horderly [] ⟨1, "s", "null", 0⟩ [⟨2, "s", "null", 0⟩] rfl rfl] at htake
  exact hreplay.trans (congrArg some htake)

/-- Two publishers append in the reverse of the order they took their ids in; the client receives the
    first of the two events and is away for the second. -/
def crossedRun : List (Act Unit) :=
  [.attach room [everything] none, publisher, publisher, .allocate 0 0, .allocate 0 0, .append 1,
    .recv 0, .close 0, .append 0]

/-- A log out of order, from which a client with the cursor of the last event it received does not get
    the one it missed; and a replay the limit cuts, with nothing of the rest in the live stream. -/
theorem reconnect_loses_events :
    (let w := (World.new ⟨4, 4, 4, 4, 4⟩ : World Unit).run crossedRun
     let opened := w.step (.attach room [everything] (some 2))
     (w.log room).map ChannelEvent.id = [2, 1] ∧
     (w.runtime.mailboxes 0).map (fun mailbox => mailbox.received.map ChannelEvent.id) = some [2] ∧
     opened.replays 1 = some [] ∧
     (opened.runtime.mailboxes 1).map (fun mailbox => mailbox.sent) = some []) ∧
    (let w := (World.new ⟨4, 1, 4, 4, 4⟩ : World Unit).run apartRun
     let opened := w.step (.attach room [everything] none)
     (w.log room).map ChannelEvent.id = [1, 2] ∧
     (opened.replays 1).map (fun replay => replay.map ChannelEvent.id) = some [1] ∧
     (opened.runtime.mailboxes 1).map (fun mailbox => mailbox.sent) = some []) := by
  refine ⟨⟨?_, ?_, ?_, ?_⟩, ?_, ?_, ?_⟩ <;> rfl

end Vyuh.Channels
