import Mathlib
import Vyuh.Channels.Index

/-! Sessions of the channel runtime, over runs in which publishers, debounced deliveries and clients
    interleave in any order. A publisher collects the accepting channels under the lock, takes its event
    id without it, and appends under the lock again; each is a step of its own. The debounce timer is
    left open: a debounced delivery may come at any time for any key. Beside the runtime the world keeps
    what was ever appended to each channel and how much of it was there when each session was opened. -/

namespace Vyuh.Channels

open Lib

variable {V : Type}

/-! ### Offering an event -/

/-- Whether the queue of a session takes an event. -/
def takes (mailboxes : Mailboxes) (subscriber : Subscriber) : Bool :=
  (mailboxes subscriber.sender).any Mailbox.accepts

/-- The queue after an event was offered to it. -/
def offered (event : ChannelEvent) (mailbox : Mailbox ChannelEvent) : Mailbox ChannelEvent :=
  if mailbox.accepts then mailbox.push event else mailbox

/-- The queues after an event was offered to one of them. -/
def offeredTo (event : ChannelEvent) (mailboxes : Mailboxes) (sender : ℕ) : Mailboxes :=
  fun s => if s = sender then (mailboxes s).map (offered event) else mailboxes s

theorem offer_eq (event : ChannelEvent) (mailboxes : Mailboxes) (closed : List ℕ)
    (session : ℕ × Subscriber) :
    offer event (mailboxes, closed) session =
      (offeredTo event mailboxes session.2.sender,
        if takes mailboxes session.2 then closed else closed ++ [session.1]) := by
  obtain ⟨id, ⟨sender⟩⟩ := session
  have hbox : offeredTo event mailboxes sender =
      fun s => if s = sender then (mailboxes sender).map (offered event) else mailboxes s := by
    funext s
    rw [offeredTo]
    split
    next heq => rw [heq]
    next => rfl
  have hkept : (fun s => if s = sender then mailboxes sender else mailboxes s) = mailboxes := by
    funext s
    split
    next heq => rw [heq]
    next => rfl
  rcases Option.eq_none_or_eq_some (mailboxes sender) with hfound | ⟨mailbox, hfound⟩
  · rw [hfound] at hkept
    simp [offer, takes, hbox, hfound, hkept]
  · rw [hfound] at hkept
    cases haccepts : mailbox.accepts with
    | true =>
      have hinsert : mailboxes.insert sender (mailbox.push event) =
          fun s => if s = sender then some (mailbox.push event) else mailboxes s :=
        funext fun s => FMap.insert_apply ..
      simp [offer, takes, hbox, hfound, Mailbox.trySend, haccepts, offered, hinsert]
    | false => simp [offer, takes, hbox, hfound, Mailbox.trySend, haccepts, offered, hkept]

/-- Sessions with queues of their own are offered the event independently. -/
theorem foldl_offer (event : ChannelEvent) : ∀ (sessions : List (ℕ × Subscriber)) (mailboxes : Mailboxes)
    (closed : List ℕ), (sessions.map fun s => s.2.sender).Nodup →
    sessions.foldl (offer event) (mailboxes, closed) =
      (fun sender => if sender ∈ sessions.map (fun s => s.2.sender) then
          (mailboxes sender).map (offered event) else mailboxes sender,
        closed ++ (sessions.filter fun s => !takes mailboxes s.2).map Prod.fst)
  | [], mailboxes, closed, _ => by simp
  | session :: rest, mailboxes, closed, hnodup => by
    obtain ⟨hnew, hrest⟩ := List.nodup_cons.mp hnodup
    rw [List.foldl_cons, offer_eq, foldl_offer event rest _ _ hrest]
    have hsame : ∀ s ∈ rest, takes (offeredTo event mailboxes session.2.sender) s.2 =
        takes mailboxes s.2 := by
      intro s hs
      have hne : s.2.sender ≠ session.2.sender := fun heq =>
        hnew (List.mem_map.mpr ⟨s, hs, heq⟩)
      rw [takes, offeredTo, if_neg hne, takes]
    refine Prod.ext (funext fun sender => ?_) ?_
    · simp only [List.map_cons, List.mem_cons, offeredTo]
      by_cases heq : sender = session.2.sender
      · subst heq
        rw [if_neg hnew, if_pos rfl, if_pos (.inl rfl)]
      · rw [if_neg heq]
        exact if_congr (by simp [heq]) rfl rfl
    · have hfilter : rest.filter (fun s => !takes (offeredTo event mailboxes session.2.sender) s.2) =
          rest.filter fun s => !takes mailboxes s.2 :=
        List.filter_congr fun s hs => by rw [hsame s hs]
      simp only [hfilter, List.filter_cons]
      cases takes mailboxes session.2 <;> simp

theorem lookup_foldl_erase (ids : List ℕ) (sessions : Dict ℕ Subscriber) (id : ℕ) :
    (ids.foldl (fun sessions id => sessions.erase id) sessions).lookup id =
      if id ∈ ids then none else sessions.lookup id := by
  induction ids generalizing sessions with
  | nil => simp
  | cons i rest ih =>
    rw [List.foldl_cons, ih, Dict.lookup_erase_apply]
    by_cases hrest : id ∈ rest
    · simp [hrest]
    · by_cases hi : id = i <;> simp [hrest, hi]

/-- The sessions of a channel have queues of their own. -/
def OwnQueues (sessions : Dict ℕ Subscriber) : Prop :=
  (sessions.toList.map fun s => s.2.sender).Nodup

theorem sendLive_mailboxes {channel : ChannelState V} (hown : OwnQueues channel.sessions)
    (event : ChannelEvent) (mailboxes : Mailboxes) (sender : ℕ) :
    (sendLive channel event mailboxes).2 sender =
      if sender ∈ channel.sessions.toList.map (fun s => s.2.sender) then
        (mailboxes sender).map (offered event)
      else mailboxes sender := by
  rw [sendLive, foldl_offer event _ mailboxes [] hown]

/-- A session stays exactly when its queue takes the event. -/
theorem sendLive_sessions {channel : ChannelState V} (hown : OwnQueues channel.sessions)
    (event : ChannelEvent) (mailboxes : Mailboxes) (id : ℕ) :
    (sendLive channel event mailboxes).1.sessions.lookup id =
      (channel.sessions.lookup id).filter (takes mailboxes) := by
  rw [sendLive, foldl_offer event _ mailboxes [] hown]
  simp only [List.nil_append, lookup_foldl_erase]
  have hclosed : id ∈ (channel.sessions.toList.filter fun s => !takes mailboxes s.2).map Prod.fst ↔
      ∃ subscriber, channel.sessions.lookup id = some subscriber ∧
        takes mailboxes subscriber = false := by
    constructor
    · intro hmem
      obtain ⟨⟨i, subscriber⟩, hfound, rfl⟩ := List.mem_map.mp hmem
      obtain ⟨hfound, hnot⟩ := List.mem_filter.mp hfound
      exact ⟨subscriber, Dict.mem_toList.mp hfound, by simpa using hnot⟩
    · rintro ⟨subscriber, hfound, hnot⟩
      exact List.mem_map.mpr ⟨(id, subscriber),
        List.mem_filter.mpr ⟨Dict.mem_toList.mpr hfound, by simp [hnot]⟩, rfl⟩
  cases hlookup : channel.sessions.lookup id with
  | none => simp
  | some subscriber =>
    simp only [hclosed, hlookup, Option.some.injEq, exists_eq_left']
    cases htakes : takes mailboxes subscriber <;> simp [Option.filter, htakes]

/-! ### The world -/

/-- What a client's receiver holds of its session: the channel and the session id. -/
structure Lease where
  target : ChannelTarget
  id : ℕ
  deriving DecidableEq, Repr

/-- The runtime, the publishers under way, and the clients. `accepted` and `allocated` are publishers
    before and after they took their event id. `history` and `since` are not part of the program. -/
structure World (V : Type) where
  runtime : SubscriptionRuntime V
  accepted : List (List AcceptedChannel × PendingPayload)
  allocated : List (List DeliveryTarget × ChannelEvent)
  leases : FMap ℕ Lease
  replays : FMap ℕ (List ChannelEvent)
  history : ChannelTarget → List ChannelEvent
  since : ℕ → ℕ

/-- One step of a publisher, of the debounce timer or of a client. -/
inductive Act (V : Type)
  | candidates (typeId : TypeId) (value : V) (attachedOnly : Bool) (payload : PendingPayload)
  | allocate (n createdAt : ℕ)
  | append (n : ℕ)
  | debounced (key : DebounceKey) (payload : PendingPayload) (createdAt : ℕ)
  | attach (target : ChannelTarget) (deliveries : List (DeliverySpec V)) (after : Option ℕ)
  | recv (sender : ℕ)
  | close (sender : ℕ)

/-- Whether a step opens a session. -/
def Act.attaches : Act V → Bool
  | .attach .. => true
  | _ => false

/-- The accepted channels an event goes to at once. -/
def immediate (accepted : List AcceptedChannel) : List DeliveryTarget :=
  (accepted.filter fun a => a.debounce.isNone).map AcceptedChannel.target

namespace World

def new (conf : ChannelConf) : World V where
  runtime := .new conf
  accepted := []
  allocated := []
  leases := FMap.empty
  replays := FMap.empty
  history := fun _ => []
  since := fun _ => 0

/-- A delivery to one channel, which is all that is ever appended to its history. -/
def record (w : World V) (target : ChannelTarget) (channel : ChannelState V) (event : ChannelEvent) :
    World V :=
  { w with
    runtime := w.runtime.deliver target channel event
    history := fun t => if t = target then w.history t ++ [event] else w.history t }

/-- One target of `append_event`: a channel whose policy changed since is passed over. -/
def appendTo (event : ChannelEvent) (w : World V) (target : DeliveryTarget) : World V :=
  match w.runtime.state.channel target.channel with
  | none => w
  | some channel =>
    if channel.generation ≠ target.generation then w else w.record target.channel channel event

/-- Delivers a debounced payload, unless the policy changed or the rule is no longer debounced. The
    event id is taken under the lock. -/
def deliverDebounced (w : World V) (key : DebounceKey) (payload : PendingPayload) (createdAt : ℕ) :
    World V :=
  match w.runtime.state.channel key.target.channel with
  | none => w
  | some channel =>
    if channel.generation ≠ key.target.generation ||
        !((channel.rules key.typeId).any fun rule => rule.debounce.isSome) then w
    else
      let (id, runtime) := w.runtime.fetchEvent
      { w with runtime }.record key.target.channel channel
        { id, eventType := payload.eventType, data := payload.data, createdAt }

def step (w : World V) : Act V → World V
  | .candidates typeId value attachedOnly payload =>
    let accepted := w.runtime.state.candidatesAny typeId value attachedOnly
    { w with accepted := w.accepted ++ [(accepted, payload)] }
  | .allocate n createdAt =>
    match w.accepted[n]? with
    | none => w
    | some (accepted, payload) =>
      let w := { w with accepted := w.accepted.eraseIdx n }
      if (immediate accepted).isEmpty then w
      else
        let (id, runtime) := w.runtime.fetchEvent
        let event := { id, eventType := payload.eventType, data := payload.data, createdAt }
        { w with runtime, allocated := w.allocated ++ [(immediate accepted, event)] }
  | .append n =>
    match w.allocated[n]? with
    | none => w
    | some (targets, event) =>
      targets.foldl (appendTo event) { w with allocated := w.allocated.eraseIdx n }
  | .debounced key payload createdAt => w.deliverDebounced key payload createdAt
  | .attach target deliveries after =>
    let sender := w.runtime.made
    let lease := { target, id := w.runtime.nextSession }
    match w.runtime.openUser target deliveries after with
    | (.error _, runtime) => { w with runtime }
    | (.ok replay, runtime) =>
      { w with
        runtime
        leases := w.leases.insert sender lease
        replays := w.replays.insert sender replay
        since := fun s => if s = sender then (w.history target).length else w.since s }
  | .recv sender =>
    { w with runtime.mailboxes := fun s =>
        if s = sender then (w.runtime.mailboxes s).map Mailbox.recv else w.runtime.mailboxes s }
  | .close sender =>
    match w.leases sender with
    | none => w
    | some lease =>
      let runtime := w.runtime.removeSession lease.target lease.id
      { w with runtime := { runtime with mailboxes := fun s =>
          if s = sender then (runtime.mailboxes s).map Mailbox.close else runtime.mailboxes s } }

def run (w : World V) (acts : List (Act V)) : World V := acts.foldl step w

/-- A session is attached to a channel. -/
def Registered (w : World V) (target : ChannelTarget) (sender : ℕ) : Prop :=
  ∃ channel id, w.runtime.state.channel target = some channel ∧
    channel.sessions.lookup id = some ⟨sender⟩

/-- What every session has been sent, against what its channel was sent since it was opened. -/
structure Tracked (w : World V) : Prop where
  leased : ∀ target channel id sender, w.runtime.state.channel target = some channel →
    channel.sessions.lookup id = some ⟨sender⟩ → w.leases sender = some ⟨target, id⟩
  made : ∀ sender lease, w.leases sender = some lease → sender < w.runtime.made
  behind : ∀ sender lease, w.leases sender = some lease →
    w.since sender ≤ (w.history lease.target).length ∧
    ∃ mailbox, w.runtime.mailboxes sender = some mailbox ∧
      mailbox.sent <+: (w.history lease.target).drop (w.since sender)
  live : ∀ target sender mailbox, w.Registered target sender →
    w.runtime.mailboxes sender = some mailbox →
    mailbox.sent = (w.history target).drop (w.since sender) ∧ mailbox.closed = false

theorem new_tracked (conf : ChannelConf) : (new conf : World V).Tracked where
  leased _ _ _ _ h _ := nomatch h
  made _ _ h := nomatch h
  behind _ _ h := nomatch h
  live _ _ _ h := by
    obtain ⟨_, _, h, -⟩ := h
    exact nomatch h

/-- The sessions of one channel have leases, and so queues, of their own. -/
theorem Tracked.ownQueues {w : World V} (h : w.Tracked) {target : ChannelTarget}
    {channel : ChannelState V} (hchannel : w.runtime.state.channel target = some channel) :
    OwnQueues channel.sessions := by
  refine List.Nodup.map_on ?_ (List.Nodup.of_map Prod.fst channel.sessions.nodup_keys_toList)
  rintro ⟨i, ⟨a⟩⟩ hi ⟨j, ⟨b⟩⟩ hj (rfl : a = b)
  have hleaseI := h.leased target channel i a hchannel (Dict.mem_toList.mp hi)
  have hleaseJ := h.leased target channel j a hchannel (Dict.mem_toList.mp hj)
  cases hleaseI.symm.trans hleaseJ
  rfl

theorem mem_senders {sessions : Dict ℕ Subscriber} {sender : ℕ} :
    sender ∈ sessions.toList.map (fun s => s.2.sender) ↔ ∃ id, sessions.lookup id = some ⟨sender⟩ := by
  constructor
  · intro hmem
    obtain ⟨⟨id, ⟨_⟩⟩, hfound, rfl⟩ := List.mem_map.mp hmem
    exact ⟨id, Dict.mem_toList.mp hfound⟩
  · rintro ⟨id, hfound⟩
    exact List.mem_map.mpr ⟨(id, ⟨sender⟩), Dict.mem_toList.mpr hfound, rfl⟩

/-- What a delivery does to the channels. -/
theorem record_channel (w : World V) (target t : ChannelTarget) (channel : ChannelState V)
    (event : ChannelEvent) :
    (w.record target channel event).runtime.state.channel t =
      if t = target then
        some (sendLive { channel with log := channel.log.append event w.runtime.conf.retentionEvents }
          event w.runtime.mailboxes).1
      else w.runtime.state.channel t :=
  LocalChannelState.channel_setChannel ..

section Record

variable {w : World V} (h : w.Tracked) {target : ChannelTarget} {channel : ChannelState V}
  (hchannel : w.runtime.state.channel target = some channel) (event : ChannelEvent)

include h hchannel

theorem record_mailbox_attached {id sender : ℕ} (hlookup : channel.sessions.lookup id = some ⟨sender⟩) :
    (w.record target channel event).runtime.mailboxes sender =
      (w.runtime.mailboxes sender).map (offered event) :=
  (sendLive_mailboxes (h.ownQueues hchannel) event w.runtime.mailboxes sender).trans
    (if_pos (mem_senders.mpr ⟨id, hlookup⟩))

theorem record_mailbox_other {sender : ℕ} (hnone : ∀ id, channel.sessions.lookup id ≠ some ⟨sender⟩) :
    (w.record target channel event).runtime.mailboxes sender = w.runtime.mailboxes sender :=
  (sendLive_mailboxes (h.ownQueues hchannel) event w.runtime.mailboxes sender).trans
    (if_neg fun hmem => (mem_senders.mp hmem).elim hnone)

theorem record_sessions {t : ChannelTarget} {after : ChannelState V} {id : ℕ} {sender : ℕ}
    (hafter : (w.record target channel event).runtime.state.channel t = some after) :
    after.sessions.lookup id = some ⟨sender⟩ ↔
      t = target ∧ channel.sessions.lookup id = some ⟨sender⟩ ∧
        takes w.runtime.mailboxes ⟨sender⟩ = true ∨
      t ≠ target ∧ w.runtime.state.channel t = some after ∧
        after.sessions.lookup id = some ⟨sender⟩ := by
  rw [record_channel] at hafter
  by_cases ht : t = target
  · rw [if_pos ht] at hafter
    have hown : OwnQueues channel.sessions := h.ownQueues hchannel
    have hlive := sendLive_sessions (V := V) (show OwnQueues ({ channel with
      log := channel.log.append event w.runtime.conf.retentionEvents } : ChannelState V).sessions
      from hown) event w.runtime.mailboxes id
    rw [Option.some.inj hafter] at hlive
    rw [hlive, Option.filter_eq_some_iff]
    simp [ht]
  · rw [if_neg ht] at hafter
    simp [ht, hafter]

/-- A delivery reaches the sessions with room and drops the others. -/
theorem record_registered (t : ChannelTarget) (sender : ℕ) :
    (w.record target channel event).Registered t sender ↔
      w.Registered t sender ∧ (t = target → takes w.runtime.mailboxes ⟨sender⟩ = true) := by
  constructor
  · rintro ⟨after, id, hafter, hlookup⟩
    rcases (record_sessions h hchannel event hafter).mp hlookup with
      ⟨rfl, hbefore, htakes⟩ | ⟨hne, hbefore, hlookup⟩
    · exact ⟨⟨channel, id, hchannel, hbefore⟩, fun _ => htakes⟩
    · exact ⟨⟨after, id, hbefore, hlookup⟩, fun heq => absurd heq hne⟩
  · rintro ⟨⟨before, id, hbefore, hlookup⟩, htakes⟩
    by_cases ht : t = target
    · subst ht
      obtain rfl : channel = before := Option.some.inj (hchannel.symm.trans hbefore)
      obtain ⟨after, hafter⟩ : ∃ after,
          (w.record t channel event).runtime.state.channel t = some after :=
        ⟨_, (record_channel ..).trans (if_pos rfl)⟩
      exact ⟨after, id, hafter, (record_sessions h hchannel event hafter).mpr
        (.inl ⟨rfl, hlookup, htakes rfl⟩)⟩
    · exact ⟨before, id, (record_channel ..).trans ((if_neg ht).trans hbefore), hlookup⟩

/-- The queue of another channel's session is not offered the event. -/
theorem record_takes_elsewhere {t : ChannelTarget} {sender : ℕ} (ht : t ≠ target)
    (hregistered : w.Registered t sender) :
    takes (w.record target channel event).runtime.mailboxes ⟨sender⟩ =
      takes w.runtime.mailboxes ⟨sender⟩ := by
  obtain ⟨before, id, hbefore, hlookup⟩ := hregistered
  have hlease := h.leased t before id sender hbefore hlookup
  have hnone : ∀ i, channel.sessions.lookup i ≠ some ⟨sender⟩ := by
    intro i hi
    cases hlease.symm.trans (h.leased target channel i sender hchannel hi)
    exact ht rfl
  rw [takes, record_mailbox_other h hchannel event hnone, takes]

theorem record_tracked : (w.record target channel event).Tracked := by
  have hother : ∀ sender lease, w.leases sender = some lease → lease.target ≠ target →
      ∀ id, channel.sessions.lookup id ≠ some ⟨sender⟩ := by
    intro sender lease hlease hne id hlookup
    cases hlease.symm.trans (h.leased target channel id sender hchannel hlookup)
    exact hne rfl
  refine ⟨?_, h.made, ?_, ?_⟩
  · intro t after id sender hafter hlookup
    rcases (record_sessions h hchannel event hafter).mp hlookup with
      ⟨rfl, hbefore, -⟩ | ⟨-, hbefore, hlookup⟩
    · exact h.leased t channel id sender hchannel hbefore
    · exact h.leased t after id sender hbefore hlookup
  · intro sender lease hlease
    obtain ⟨hsince, mailbox, hmailbox, hprefix⟩ := h.behind sender lease hlease
    by_cases ht : lease.target = target
    · have hhistory : (w.record target channel event).history lease.target =
          w.history lease.target ++ [event] := if_pos ht
      have hdrop : (w.history lease.target ++ [event]).drop (w.since sender) =
          (w.history lease.target).drop (w.since sender) ++ [event] := List.drop_append_of_le_length hsince
      rw [hhistory]
      refine ⟨hsince.trans (by simp), ?_⟩
      by_cases hattached : ∃ id, channel.sessions.lookup id = some ⟨sender⟩
      · obtain ⟨id, hlookup⟩ := hattached
        have hlive := (h.live target sender mailbox ⟨channel, id, hchannel, hlookup⟩ hmailbox).1
        refine ⟨offered event mailbox, ?_, ?_⟩
        · rw [record_mailbox_attached h hchannel event hlookup, hmailbox, Option.map_some]
        · rw [show (w.record target channel event).since = w.since from rfl, hdrop, ht, offered]
          split
          · rw [Mailbox.push_sent, hlive]
          · rw [hlive]
            exact List.prefix_append ..
      · rw [not_exists] at hattached
        refine ⟨mailbox, (record_mailbox_other h hchannel event hattached).trans hmailbox, ?_⟩
        rw [show (w.record target channel event).since = w.since from rfl, hdrop]
        exact hprefix.trans (List.prefix_append ..)
    · have hhistory : (w.record target channel event).history lease.target = w.history lease.target :=
        if_neg ht
      have hsame := record_mailbox_other h hchannel event (hother sender lease hlease ht)
      rw [hhistory]
      exact ⟨hsince, mailbox, hsame.trans hmailbox, hprefix⟩
  · intro t sender mailbox hregistered hmailbox
    obtain ⟨⟨before, id, hbefore, hlookup⟩, htakes⟩ :=
      (record_registered h hchannel event t sender).mp hregistered
    have hlease := h.leased t before id sender hbefore hlookup
    by_cases ht : t = target
    · subst ht
      obtain rfl : channel = before := Option.some.inj (hchannel.symm.trans hbefore)
      obtain ⟨hsince, old, hold, -⟩ := h.behind sender _ hlease
      obtain ⟨hsent, hopen⟩ := h.live t sender old ⟨channel, id, hchannel, hlookup⟩ hold
      have haccepts : old.accepts = true := by simpa [takes, hold] using htakes rfl
      rw [record_mailbox_attached h hchannel event hlookup, hold, Option.map_some, offered,
        if_pos haccepts] at hmailbox
      obtain rfl : old.push event = mailbox := Option.some.inj hmailbox
      refine ⟨?_, hopen⟩
      have hhistory : (w.record t channel event).history t = w.history t ++ [event] := if_pos rfl
      have hdrop : (w.history t ++ [event]).drop (w.since sender) =
          (w.history t).drop (w.since sender) ++ [event] := List.drop_append_of_le_length hsince
      rw [hhistory, show (w.record t channel event).since = w.since from rfl, hdrop, Mailbox.push_sent, hsent]
    · have hhistory : (w.record target channel event).history t = w.history t := if_neg ht
      rw [record_mailbox_other h hchannel event (hother sender _ hlease ht)] at hmailbox
      rw [hhistory]
      exact h.live t sender mailbox ⟨before, id, hbefore, hlookup⟩ hmailbox

end Record

/-- An appended event is delivered to the target's channel, or nothing changes. -/
theorem appendTo_cases (event : ChannelEvent) (w : World V) (target : DeliveryTarget) :
    w.appendTo event target = w ∨
    ∃ channel, w.runtime.state.channel target.channel = some channel ∧
      w.appendTo event target = w.record target.channel channel event := by
  rw [appendTo]
  cases w.runtime.state.channel target.channel with
  | none => exact .inl rfl
  | some channel =>
    dsimp only
    split
    · exact .inl rfl
    · exact .inr ⟨channel, rfl, rfl⟩

theorem deliverDebounced_cases (w : World V) (key : DebounceKey) (payload : PendingPayload)
    (createdAt : ℕ) :
    w.deliverDebounced key payload createdAt = w ∨
    ∃ channel, w.runtime.state.channel key.target.channel = some channel ∧
      w.deliverDebounced key payload createdAt =
        { w with runtime := w.runtime.fetchEvent.2 }.record key.target.channel channel
          ⟨w.runtime.nextEvent, payload.eventType, payload.data, createdAt⟩ := by
  rw [deliverDebounced]
  cases w.runtime.state.channel key.target.channel with
  | none => exact .inl rfl
  | some channel =>
    dsimp only
    split
    · exact .inl rfl
    · exact .inr ⟨channel, rfl, rfl⟩

/-- What every delivery keeps, appending keeps. -/
theorem foldl_appendTo_inv {P : World V → Prop} {event : ChannelEvent}
    (hrecord : ∀ w target channel, P w → w.runtime.state.channel target = some channel →
      P (w.record target channel event))
    (targets : List DeliveryTarget) {w : World V} (h : P w) : P (targets.foldl (appendTo event) w) := by
  induction targets generalizing w with
  | nil => exact h
  | cons target rest ih =>
    refine ih ?_
    rcases appendTo_cases event w target with heq | ⟨channel, hchannel, heq⟩
    · rw [heq]
      exact h
    · rw [heq]
      exact hrecord w target.channel channel h hchannel

/-- A refused attachment leaves an unused queue behind; an accepted one a session with a fresh queue
    on a channel with the new policy. -/
theorem openUser_cases (runtime : SubscriptionRuntime V) (target : ChannelTarget)
    (deliveries : List (DeliverySpec V)) (after : Option ℕ) :
    let opened := { runtime with
      mailboxes := runtime.mailboxes.insert runtime.made (.new (max runtime.conf.subscriberQueue 1))
      made := runtime.made + 1
      nextSession := wrappingAddU64 runtime.nextSession 1 }
    (∃ error, runtime.openUser target deliveries after = (.error error, opened)) ∨
    ∃ channel, (runtime.state.replacePolicy target deliveries).channel target = some channel ∧
      channel.log = ((runtime.state.channel target).getD .fresh).log ∧
      channel.sessions = ((runtime.state.channel target).getD .fresh).sessions ∧
      let sessions := channel.sessions.insert runtime.nextSession ⟨runtime.made⟩
      let state := runtime.state.replacePolicy target deliveries
      runtime.openUser target deliveries after =
        (.ok (channel.log.after (after.getD 0) runtime.conf.replayLimit),
          { opened with state := state.setChannel target { channel with sessions } }) := by
  intro opened
  have hchannel := LocalChannelState.replacePolicy_channel runtime.state target target deliveries
  rw [if_pos rfl] at hchannel
  rw [SubscriptionRuntime.openUser]
  dsimp only
  cases hlimit : runtime.state.ensureChannelLimit target runtime.conf.maxChannelsPerUser with
  | error error => exact .inl ⟨error, rfl⟩
  | ok =>
    refine .inr ⟨_, hchannel, rfl, rfl, ?_⟩
    dsimp only
    rw [hchannel]

/-- The sessions after an attachment: the new one, and the old ones but for one of the same id. -/
theorem attached_sessions {state : LocalChannelState V} {target t : ChannelTarget}
    {deliveries : List (DeliverySpec V)} {channel after : ChannelState V} {id next made sender : ℕ}
    (hsessions : channel.sessions = ((state.channel target).getD .fresh).sessions)
    (hafter : ((state.replacePolicy target deliveries).setChannel target
      { channel with sessions := channel.sessions.insert next ⟨made⟩ }).channel t = some after) :
    after.sessions.lookup id = some ⟨sender⟩ ↔
      t = target ∧ id = next ∧ sender = made ∨
      ¬(t = target ∧ id = next) ∧ ∃ before, state.channel t = some before ∧
        before.sessions.lookup id = some ⟨sender⟩ := by
  rw [LocalChannelState.channel_setChannel] at hafter
  by_cases ht : t = target
  · subst ht
    rw [if_pos rfl] at hafter
    cases hafter
    rw [Dict.lookup_insert_apply, hsessions]
    by_cases hid : id = next
    · simp [hid, eq_comm]
    · cases state.channel t with
      | none => simp [hid, ChannelState.fresh]
      | some before => simp [hid]
  · rw [if_neg ht, LocalChannelState.replacePolicy_channel, if_neg ht] at hafter
    simp [ht, hafter]

theorem attach_tracked {w : World V} (h : w.Tracked) (target : ChannelTarget)
    (deliveries : List (DeliverySpec V)) (after : Option ℕ) :
    (w.step (.attach target deliveries after)).Tracked := by
  have hold : ∀ sender lease, w.leases sender = some lease → sender ≠ w.runtime.made :=
    fun sender lease hlease => Nat.ne_of_lt (h.made sender lease hlease)
  rcases openUser_cases w.runtime target deliveries after with
    ⟨error, heq⟩ | ⟨channel, hchannel, -, hsessions, heq⟩
  · simp only [step, heq]
    refine ⟨h.leased, fun s lease hlease => (h.made s lease hlease).trans (Nat.lt_succ_self _), ?_, ?_⟩
    · intro s lease hlease
      obtain ⟨hsince, mailbox, hmailbox, hprefix⟩ := h.behind s lease hlease
      exact ⟨hsince, mailbox, (FMap.insert_of_ne _ _ (hold s lease hlease)).trans hmailbox, hprefix⟩
    · intro t s mailbox hregistered hmailbox
      obtain ⟨before, id, hbefore, hlookup⟩ := hregistered
      have hlease := h.leased t before id s hbefore hlookup
      have hkept := (FMap.insert_of_ne _ _ (hold s _ hlease)).symm.trans hmailbox
      exact h.live t s mailbox ⟨before, id, hbefore, hlookup⟩ hkept
  · simp only [step, heq]
    refine ⟨?_, ?_, ?_, ?_⟩
    · intro t after' id s hafter hlookup
      rcases (attached_sessions hsessions hafter).mp hlookup with
        ⟨rfl, rfl, rfl⟩ | ⟨-, before, hbefore, hlookup⟩
      · exact FMap.insert_self ..
      · have hlease := h.leased t before id s hbefore hlookup
        exact (FMap.insert_of_ne _ _ (hold s _ hlease)).trans hlease
    · intro s lease hlease
      simp only [FMap.insert_apply] at hlease
      split at hlease
      next hs => rw [hs]; exact Nat.lt_succ_self _
      next => exact (h.made s lease hlease).trans (Nat.lt_succ_self _)
    · intro s lease hlease
      simp only [FMap.insert_apply] at hlease ⊢
      split at hlease
      next hs =>
        cases hlease
        simp only [hs, if_true]
        exact ⟨le_rfl, _, rfl, List.nil_prefix⟩
      next hs =>
        obtain ⟨hsince, mailbox, hmailbox, hprefix⟩ := h.behind s lease hlease
        simp only [hs, if_false]
        exact ⟨hsince, mailbox, hmailbox, hprefix⟩
    · intro t s mailbox hregistered hmailbox
      obtain ⟨after', id, hafter, hlookup⟩ := hregistered
      simp only [FMap.insert_apply] at hmailbox ⊢
      rcases (attached_sessions hsessions hafter).mp hlookup with
        ⟨rfl, rfl, rfl⟩ | ⟨-, before, hbefore, hlookup⟩
      · simp only [if_true] at hmailbox ⊢
        cases hmailbox
        simp [Mailbox.new]
      · have hlease := h.leased t before id s hbefore hlookup
        simp only [hold s _ hlease, if_false] at hmailbox ⊢
        exact h.live t s mailbox ⟨before, id, hbefore, hlookup⟩ hmailbox

/-- Forgetting a session leaves the others. -/
theorem removed_sessions {runtime : SubscriptionRuntime V} {target t : ChannelTarget}
    {after : ChannelState V} {gone id sender : ℕ}
    (hafter : (runtime.removeSession target gone).state.channel t = some after) :
    after.sessions.lookup id = some ⟨sender⟩ ↔
      ¬(t = target ∧ id = gone) ∧ ∃ before, runtime.state.channel t = some before ∧
        before.sessions.lookup id = some ⟨sender⟩ := by
  rw [SubscriptionRuntime.removeSession] at hafter
  cases hchannel : runtime.state.channel target with
  | none =>
    rw [hchannel] at hafter
    have hne : t ≠ target := by
      rintro rfl
      exact nomatch hchannel.symm.trans hafter
    have hsame : runtime.state.channel t = some after := hafter
    simp [hne, hsame]
  | some channel =>
    rw [hchannel] at hafter
    have hset := (LocalChannelState.channel_setChannel ..).symm.trans hafter
    by_cases ht : t = target
    · subst ht
      rw [if_pos rfl] at hset
      cases hset
      rw [Dict.lookup_erase_apply]
      by_cases hid : id = gone <;> simp [hid, hchannel]
    · rw [if_neg ht] at hset
      simp [ht, hset]

theorem close_tracked {w : World V} (h : w.Tracked) (sender : ℕ) : (w.step (.close sender)).Tracked := by
  rw [step]
  cases hlease : w.leases sender with
  | none => exact h
  | some lease =>
    have hruntime : (w.runtime.removeSession lease.target lease.id).mailboxes = w.runtime.mailboxes ∧
        (w.runtime.removeSession lease.target lease.id).made = w.runtime.made := by
      rw [SubscriptionRuntime.removeSession]
      cases w.runtime.state.channel lease.target <;> exact ⟨rfl, rfl⟩
    obtain ⟨hmailboxes, hmade⟩ := hruntime
    refine ⟨?_, ?_, ?_, ?_⟩
    · intro t after id s hafter hlookup
      obtain ⟨-, before, hbefore, hlookup⟩ := (removed_sessions hafter).mp hlookup
      exact h.leased t before id s hbefore hlookup
    · simp only [hmade]
      exact h.made
    · intro s other hother
      obtain ⟨hsince, mailbox, hmailbox, hprefix⟩ := h.behind s other hother
      refine ⟨hsince, if s = sender then mailbox.close else mailbox, ?_, ?_⟩
      · simp only [hmailboxes, hmailbox]
        split <;> rfl
      · split <;> exact hprefix
    · intro t s mailbox hregistered hmailbox
      obtain ⟨after, id, hafter, hlookup⟩ := hregistered
      obtain ⟨hkept, before, hbefore, hlookup⟩ := (removed_sessions hafter).mp hlookup
      have hs : s ≠ sender := by
        rintro rfl
        cases hlease.symm.trans (h.leased t before id s hbefore hlookup)
        exact hkept ⟨rfl, rfl⟩
      simp only [hmailboxes, if_neg hs] at hmailbox
      exact h.live t s mailbox ⟨before, id, hbefore, hlookup⟩ hmailbox

theorem step_tracked {w : World V} (h : w.Tracked) (act : Act V) : (w.step act).Tracked := by
  cases act with
  | candidates typeId value attachedOnly payload => exact ⟨h.leased, h.made, h.behind, h.live⟩
  | allocate n createdAt =>
    rw [step]
    split
    · exact h
    · dsimp only
      split
      · exact ⟨h.leased, h.made, h.behind, h.live⟩
      · exact ⟨h.leased, h.made, h.behind, h.live⟩
  | append n =>
    rw [step]
    split
    · exact h
    next targets event _ =>
      have hstart : ({ w with allocated := w.allocated.eraseIdx n } : World V).Tracked :=
        ⟨h.leased, h.made, h.behind, h.live⟩
      exact foldl_appendTo_inv (fun _ _ _ h hchannel => record_tracked h hchannel event) targets hstart
  | debounced key payload createdAt =>
    rw [step]
    rcases deliverDebounced_cases w key payload createdAt with heq | ⟨channel, hchannel, heq⟩
    · rw [heq]
      exact h
    · rw [heq]
      have hfetched : ({ w with runtime := w.runtime.fetchEvent.2 } : World V).Tracked :=
        ⟨h.leased, h.made, h.behind, h.live⟩
      exact record_tracked hfetched hchannel _
  | attach target deliveries after => exact attach_tracked h target deliveries after
  | recv sender =>
    refine ⟨h.leased, h.made, ?_, ?_⟩
    · intro s lease hlease
      obtain ⟨hsince, mailbox, hmailbox, hprefix⟩ := h.behind s lease hlease
      refine ⟨hsince, if s = sender then mailbox.recv else mailbox, ?_, ?_⟩
      · simp only [step, hmailbox]
        split <;> rfl
      · split
        · rw [Mailbox.recv_sent]
          exact hprefix
        · exact hprefix
    · intro t s mailbox hregistered hmailbox
      simp only [step] at hmailbox
      split at hmailbox
      · obtain ⟨old, hold, rfl⟩ := Option.map_eq_some_iff.mp hmailbox
        rw [Mailbox.recv_sent, Mailbox.recv_closed]
        exact h.live t s old hregistered hold
      · exact h.live t s mailbox hregistered hmailbox
  | close sender => exact close_tracked h sender

/-! ### The other invariants -/

/-- Sessions are numbered as their queues are made, up to where the counter wraps. -/
structure Numbered (w : World V) : Prop where
  next : w.runtime.nextSession = (w.runtime.made + 1) % 2 ^ 64
  ids : ∀ sender lease, w.leases sender = some lease → lease.id = (sender + 1) % 2 ^ 64

/-- A publisher holds each channel once. -/
structure Distinct (w : World V) : Prop where
  accepted : ∀ p ∈ w.accepted, (p.1.map fun a => a.target.channel).Nodup
  allocated : ∀ p ∈ w.allocated, (p.1.map DeliveryTarget.channel).Nodup

/-- What appending does not touch. -/
structure Frame (w w' : World V) : Prop where
  made : w'.runtime.made = w.runtime.made
  nextSession : w'.runtime.nextSession = w.runtime.nextSession
  nextEvent : w'.runtime.nextEvent = w.runtime.nextEvent
  conf : w'.runtime.conf = w.runtime.conf
  leases : w'.leases = w.leases
  replays : w'.replays = w.replays
  since : w'.since = w.since
  accepted : w'.accepted = w.accepted
  allocated : w'.allocated = w.allocated

theorem Frame.refl (w : World V) : Frame w w := ⟨rfl, rfl, rfl, rfl, rfl, rfl, rfl, rfl, rfl⟩

theorem foldl_appendTo_frame (event : ChannelEvent) (targets : List DeliveryTarget) (w : World V) :
    Frame w (targets.foldl (appendTo event) w) := by
  induction targets generalizing w with
  | nil => exact .refl w
  | cons target rest ih =>
    obtain ⟨h₁, h₂, h₃, h₄, h₅, h₆, h₇, h₈, h₉⟩ := ih (w.appendTo event target)
    rw [List.foldl_cons]
    rcases appendTo_cases event w target with heq | ⟨channel, -, heq⟩
    · rw [heq] at h₁ h₂ h₃ h₄ h₅ h₆ h₇ h₈ h₉ ⊢
      exact ⟨h₁, h₂, h₃, h₄, h₅, h₆, h₇, h₈, h₉⟩
    · rw [heq] at h₁ h₂ h₃ h₄ h₅ h₆ h₇ h₈ h₉ ⊢
      exact ⟨h₁, h₂, h₃, h₄, h₅, h₆, h₇, h₈, h₉⟩

theorem step_numbered {w : World V} (h : w.Numbered) (act : Act V) : (w.step act).Numbered := by
  cases act with
  | candidates typeId value attachedOnly payload => exact ⟨h.next, h.ids⟩
  | allocate n createdAt =>
    rw [step]
    split
    · exact h
    · dsimp only
      split <;> exact ⟨h.next, h.ids⟩
  | append n =>
    rw [step]
    split
    · exact h
    next targets event _ =>
      have hframe := foldl_appendTo_frame event targets { w with allocated := w.allocated.eraseIdx n }
      refine ⟨?_, ?_⟩
      · rw [hframe.nextSession, hframe.made]
        exact h.next
      · rw [hframe.leases]
        exact h.ids
  | debounced key payload createdAt =>
    rw [step]
    rcases deliverDebounced_cases w key payload createdAt with heq | ⟨channel, -, heq⟩
    · rw [heq]
      exact h
    · rw [heq]
      exact ⟨h.next, h.ids⟩
  | attach target deliveries after =>
    have hnext : wrappingAddU64 w.runtime.nextSession 1 = (w.runtime.made + 1 + 1) % 2 ^ 64 := by
      rw [wrappingAddU64, h.next]
      omega
    rcases openUser_cases w.runtime target deliveries after with ⟨error, heq⟩ | ⟨channel, -, -, -, heq⟩
    · simp only [step, heq]
      exact ⟨hnext, h.ids⟩
    · simp only [step, heq]
      refine ⟨hnext, fun s lease hlease => ?_⟩
      simp only [FMap.insert_apply] at hlease
      split at hlease
      next hs =>
        cases hlease
        rw [hs]
        exact h.next
      next => exact h.ids s lease hlease
  | recv sender => exact ⟨h.next, h.ids⟩
  | close sender =>
    rw [step]
    split
    · exact h
    next lease _ =>
      have hruntime : (w.runtime.removeSession lease.target lease.id).nextSession =
          w.runtime.nextSession ∧
          (w.runtime.removeSession lease.target lease.id).made = w.runtime.made := by
        rw [SubscriptionRuntime.removeSession]
        cases w.runtime.state.channel lease.target <;> exact ⟨rfl, rfl⟩
      refine ⟨?_, h.ids⟩
      dsimp only
      rw [hruntime.1, hruntime.2]
      exact h.next

theorem map_filterMap_sublist {α β γ : Type} {f : α → Option β} {key : α → γ} {g : β → γ}
    (hfg : ∀ a b, f a = some b → g b = key a) (l : List α) :
    ((l.filterMap f).map g).Sublist (l.map key) := by
  induction l with
  | nil => exact List.Sublist.refl _
  | cons a rest ih =>
    rw [List.filterMap_cons, List.map_cons]
    cases hfa : f a with
    | none => exact ih.cons _
    | some b =>
      rw [List.map_cons, hfg a b hfa]
      exact ih.cons_cons _

theorem candidatesAny_nodup (state : LocalChannelState V) (typeId : TypeId) (value : V)
    (attachedOnly : Bool) :
    ((state.candidatesAny typeId value attachedOnly).map fun a => a.target.channel).Nodup := by
  have hrule : ∀ target found, state.channelRule typeId attachedOnly target = some found →
      found.1.channel = target := by
    intro target found hfound
    rw [LocalChannelState.channelRule] at hfound
    obtain ⟨channel, -, hfound⟩ := Option.bind_eq_some_iff.mp hfound
    split at hfound
    · exact nomatch hfound
    · obtain ⟨rule, -, hfound⟩ := Option.bind_eq_some_iff.mp hfound
      cases hfound
      rfl
  have hall : ((state.deliveryCandidates typeId attachedOnly).map fun c => c.1.channel).Nodup := by
    rw [LocalChannelState.deliveryCandidates]
    split
    · exact List.nodup_nil
    next targets _ =>
      refine List.Nodup.sublist (map_filterMap_sublist hrule targets.keys) ?_
      rw [List.map_id']
      exact targets.keys_nodup
  refine hall.sublist (map_filterMap_sublist ?_ _)
  rintro ⟨target, rule⟩ accepted hfound
  dsimp only at hfound
  split at hfound
  · cases hfound
    rfl
  · exact nomatch hfound

theorem immediate_nodup {accepted : List AcceptedChannel}
    (h : (accepted.map fun a => a.target.channel).Nodup) :
    ((immediate accepted).map DeliveryTarget.channel).Nodup := by
  rw [immediate, List.map_map]
  exact h.sublist (List.filter_sublist.map _)

theorem step_distinct {w : World V} (h : w.Distinct) (act : Act V) : (w.step act).Distinct := by
  cases act with
  | candidates typeId value attachedOnly payload =>
    refine ⟨?_, h.allocated⟩
    intro p hp
    rcases List.mem_append.mp hp with hp | hp
    · exact h.accepted p hp
    · rw [List.mem_singleton.mp hp]
      exact candidatesAny_nodup ..
  | allocate n createdAt =>
    rw [step]
    split
    · exact h
    next accepted payload hfound =>
      have hrest : ∀ p ∈ w.accepted.eraseIdx n, (p.1.map fun a => a.target.channel).Nodup :=
        fun p hp => h.accepted p (List.mem_of_mem_eraseIdx hp)
      dsimp only
      split
      · exact ⟨hrest, h.allocated⟩
      · refine ⟨hrest, ?_⟩
        intro p hp
        rcases List.mem_append.mp hp with hp | hp
        · exact h.allocated p hp
        · rw [List.mem_singleton.mp hp]
          exact immediate_nodup (h.accepted _ (List.mem_of_getElem? hfound))
  | append n =>
    rw [step]
    split
    · exact h
    next targets event _ =>
      have hframe := foldl_appendTo_frame event targets { w with allocated := w.allocated.eraseIdx n }
      refine ⟨?_, ?_⟩
      · rw [hframe.accepted]
        exact h.accepted
      · rw [hframe.allocated]
        exact fun p hp => h.allocated p (List.mem_of_mem_eraseIdx hp)
  | debounced key payload createdAt =>
    rw [step]
    rcases deliverDebounced_cases w key payload createdAt with heq | ⟨channel, -, heq⟩
    · rw [heq]
      exact h
    · rw [heq]
      exact ⟨h.accepted, h.allocated⟩
  | attach target deliveries after =>
    rcases openUser_cases w.runtime target deliveries after with ⟨error, heq⟩ | ⟨channel, -, -, -, heq⟩
    · simp only [step, heq]
      exact ⟨h.accepted, h.allocated⟩
    · simp only [step, heq]
      exact ⟨h.accepted, h.allocated⟩
  | recv sender => exact ⟨h.accepted, h.allocated⟩
  | close sender =>
    rw [step]
    split
    · exact h
    · exact ⟨h.accepted, h.allocated⟩

theorem step_indexed {w : World V} (h : w.runtime.state.Indexed) (act : Act V) :
    (w.step act).runtime.state.Indexed := by
  cases act with
  | candidates typeId value attachedOnly payload => exact h
  | allocate n createdAt =>
    rw [step]
    split
    · exact h
    · dsimp only
      split <;> exact h
  | append n =>
    rw [step]
    split
    · exact h
    next targets event _ =>
      exact foldl_appendTo_inv (P := fun w => w.runtime.state.Indexed)
        (fun _ _ _ h hchannel => h.setChannel hchannel rfl) targets h
  | debounced key payload createdAt =>
    rw [step]
    rcases deliverDebounced_cases w key payload createdAt with heq | ⟨channel, hchannel, heq⟩
    · rw [heq]
      exact h
    · rw [heq]
      exact h.setChannel hchannel rfl
  | attach target deliveries after =>
    rcases openUser_cases w.runtime target deliveries after with
      ⟨error, heq⟩ | ⟨channel, hchannel, -, -, heq⟩
    · simp only [step, heq]
      exact h
    · simp only [step, heq]
      exact (h.replacePolicy target deliveries).setChannel hchannel rfl
  | recv sender => exact h
  | close sender =>
    rw [step]
    split
    · exact h
    next lease _ =>
      dsimp only
      rw [SubscriptionRuntime.removeSession]
      cases hchannel : w.runtime.state.channel lease.target with
      | none => exact h
      | some channel => exact h.setChannel hchannel rfl

/-! ### When a session goes -/

theorem record_history (w : World V) (target t : ChannelTarget) (channel : ChannelState V)
    (event : ChannelEvent) :
    (w.record target channel event).history t =
      if t = target then w.history t ++ [event] else w.history t := rfl

theorem foldl_appendTo_off (event : ChannelEvent) {targets : List DeliveryTarget} {t : ChannelTarget}
    (ht : t ∉ targets.map DeliveryTarget.channel) (w : World V) :
    (targets.foldl (appendTo event) w).history t = w.history t := by
  induction targets generalizing w with
  | nil => rfl
  | cons target rest ih =>
    rw [List.map_cons, List.mem_cons, not_or] at ht
    rw [List.foldl_cons, ih ht.2]
    rcases appendTo_cases event w target with heq | ⟨channel, -, heq⟩
    · rw [heq]
    · rw [heq, record_history, if_neg ht.1]

/-- Appending to distinct channels, a session stays unless its channel got the event and its queue did
    not take it. -/
theorem foldl_appendTo_registered (event : ChannelEvent) {targets : List DeliveryTarget}
    (hnodup : (targets.map DeliveryTarget.channel).Nodup) {w : World V} (h : w.Tracked)
    (t : ChannelTarget) (sender : ℕ) :
    (targets.foldl (appendTo event) w).Registered t sender ↔
      w.Registered t sender ∧ ((targets.foldl (appendTo event) w).history t ≠ w.history t →
        takes w.runtime.mailboxes ⟨sender⟩ = true) := by
  induction targets generalizing w with
  | nil => simp
  | cons target rest ih =>
    rw [List.map_cons, List.nodup_cons] at hnodup
    rw [List.foldl_cons]
    rcases appendTo_cases event w target with heq | ⟨channel, hchannel, heq⟩
    · rw [heq]
      exact ih hnodup.2 h
    · rw [heq, ih hnodup.2 (record_tracked h hchannel event), record_registered h hchannel]
      by_cases ht : t = target.channel
      · have hoff := foldl_appendTo_off event (ht ▸ hnodup.1) (w.record target.channel channel event)
        rw [hoff, record_history, if_pos ht]
        simp [ht]
      · rw [record_history, if_neg ht]
        constructor
        · rintro ⟨⟨hregistered, -⟩, htakes⟩
          rw [record_takes_elsewhere h hchannel event ht hregistered] at htakes
          exact ⟨hregistered, htakes⟩
        · rintro ⟨hregistered, htakes⟩
          rw [record_takes_elsewhere h hchannel event ht hregistered]
          exact ⟨⟨hregistered, fun heq => absurd heq ht⟩, htakes⟩

/-- Before the session counter wraps, an attached session stays until its receiver is dropped or its
    channel gets an event its queue does not take. -/
theorem step_registered {w : World V} (h : w.Tracked) (hn : w.Numbered) (hd : w.Distinct)
    (hmade : w.runtime.made < 2 ^ 64) (act : Act V) {t : ChannelTarget} {sender : ℕ}
    (hregistered : w.Registered t sender) :
    (w.step act).Registered t sender ↔ act ≠ .close sender ∧
      ((w.step act).history t ≠ w.history t → takes w.runtime.mailboxes ⟨sender⟩ = true) := by
  obtain ⟨before, id, hbefore, hlookup⟩ := hregistered
  have hlease := h.leased t before id sender hbefore hlookup
  have hid := hn.ids sender _ hlease
  have hsender := h.made sender _ hlease
  dsimp only at hid
  cases act with
  | candidates typeId value attachedOnly payload =>
    simpa [step] using ⟨before, id, hbefore, hlookup⟩
  | allocate n createdAt =>
    have hsame : (w.step (.allocate n createdAt)).runtime.state = w.runtime.state ∧
        (w.step (.allocate n createdAt)).history = w.history := by
      rw [step]
      split
      · exact ⟨rfl, rfl⟩
      · dsimp only
        split <;> exact ⟨rfl, rfl⟩
    rw [Registered, hsame.1, hsame.2]
    simpa using ⟨before, hbefore, id, hlookup⟩
  | append n =>
    rw [step]
    split
    · simpa using ⟨before, id, hbefore, hlookup⟩
    next targets event hfound =>
      have htracked : ({ w with allocated := w.allocated.eraseIdx n } : World V).Tracked :=
        ⟨h.leased, h.made, h.behind, h.live⟩
      have hnodup := hd.allocated _ (List.mem_of_getElem? hfound)
      rw [foldl_appendTo_registered event hnodup htracked t sender]
      exact ⟨fun hkept => ⟨(fun h => by cases h), hkept.2⟩, fun hkept => ⟨⟨before, id, hbefore, hlookup⟩, hkept.2⟩⟩
  | debounced key payload createdAt =>
    rw [step]
    rcases deliverDebounced_cases w key payload createdAt with heq | ⟨channel, hchannel, heq⟩
    · rw [heq]
      simpa using ⟨before, id, hbefore, hlookup⟩
    · have hfetched : ({ w with runtime := w.runtime.fetchEvent.2 } : World V).Tracked :=
        ⟨h.leased, h.made, h.behind, h.live⟩
      rw [heq, record_registered hfetched hchannel, record_history]
      by_cases ht : t = key.target.channel
      · rw [if_pos ht]
        refine ⟨fun hkept => ⟨(fun h => by cases h), fun _ => hkept.2 ht⟩, fun hkept => ⟨⟨before, id, hbefore, hlookup⟩, ?_⟩⟩
        exact fun _ => hkept.2 (by simp)
      · rw [if_neg ht]
        exact ⟨fun _ => ⟨(fun h => by cases h), fun hgot => absurd rfl hgot⟩,
          fun _ => ⟨⟨before, id, hbefore, hlookup⟩, fun heq => absurd heq ht⟩⟩
  | attach target deliveries after =>
    have hnew : ¬(t = target ∧ id = w.runtime.nextSession) := by
      rintro ⟨-, heq⟩
      rw [hid, hn.next] at heq
      omega
    rcases openUser_cases w.runtime target deliveries after with
      ⟨error, heq⟩ | ⟨channel, hchannel, -, hsessions, heq⟩
    · simp only [step, heq]
      simpa using ⟨before, id, hbefore, hlookup⟩
    · simp only [step, heq]
      obtain ⟨after', hafter⟩ : ∃ after', ((w.runtime.state.replacePolicy target deliveries).setChannel
          target { channel with
            sessions := channel.sessions.insert w.runtime.nextSession ⟨w.runtime.made⟩ }).channel t =
          some after' := by
        rw [LocalChannelState.channel_setChannel, LocalChannelState.replacePolicy_channel]
        by_cases ht : t = target
        · exact ⟨_, if_pos ht⟩
        · exact ⟨before, by rw [if_neg ht, if_neg ht]; exact hbefore⟩
      have hkept := (attached_sessions hsessions hafter).mpr (.inr ⟨hnew, before, hbefore, hlookup⟩)
      simpa using ⟨after', id, hafter, hkept⟩
  | recv s => simpa [step] using ⟨before, id, hbefore, hlookup⟩
  | close s =>
    have hhistory : (w.step (.close s)).history = w.history := by
      rw [step]
      split <;> rfl
    rw [hhistory]
    by_cases hs : s = sender
    · subst hs
      refine ⟨fun hregistered => ?_, fun hkept => absurd rfl hkept.1⟩
      obtain ⟨after, i, hafter, hfound⟩ := hregistered
      simp only [step, hlease] at hafter
      obtain ⟨hkept, before', hbefore', hfound⟩ := (removed_sessions hafter).mp hfound
      cases hlease.symm.trans (h.leased t before' i s hbefore' hfound)
      exact absurd ⟨rfl, rfl⟩ hkept
    · refine ⟨fun _ => ⟨fun heq => hs (Act.close.inj heq), fun hgot => absurd rfl hgot⟩, fun _ => ?_⟩
      rw [step]
      cases hother : w.leases s with
      | none => exact ⟨before, id, hbefore, hlookup⟩
      | some other =>
        have hkept : ¬(t = other.target ∧ id = other.id) := by
          rintro ⟨-, heq⟩
          have hothers := hn.ids s other hother
          have hmades := h.made s other hother
          omega
        obtain ⟨after, hafter⟩ : ∃ after,
            (w.runtime.removeSession other.target other.id).state.channel t = some after := by
          rw [SubscriptionRuntime.removeSession]
          cases hchannel : w.runtime.state.channel other.target with
          | none => exact ⟨before, hbefore⟩
          | some channel =>
            by_cases ht : t = other.target
            · exact ⟨_, (LocalChannelState.channel_setChannel ..).trans (if_pos ht)⟩
            · exact ⟨before, (LocalChannelState.channel_setChannel ..).trans ((if_neg ht).trans hbefore)⟩
        exact ⟨after, id, hafter, (removed_sessions hafter).mpr ⟨hkept, before, hbefore, hlookup⟩⟩

/-! ### Runs -/

/-- What holds of a world after any steps. -/
structure Consistent (w : World V) : Prop where
  tracked : w.Tracked
  numbered : w.Numbered
  distinct : w.Distinct
  indexed : w.runtime.state.Indexed

theorem new_consistent (conf : ChannelConf) : (new conf : World V).Consistent where
  tracked := new_tracked conf
  numbered := ⟨rfl, fun _ _ h => nomatch h⟩
  distinct := ⟨fun _ h => (nomatch h), fun _ h => nomatch h⟩
  indexed := LocalChannelState.fresh_indexed

theorem run_consistent {w : World V} (h : w.Consistent) (acts : List (Act V)) :
    (w.run acts).Consistent := by
  induction acts generalizing w with
  | nil => exact h
  | cons act rest ih =>
    exact ih ⟨step_tracked h.tracked act, step_numbered h.numbered act, step_distinct h.distinct act,
      step_indexed h.indexed act⟩

theorem step_made (w : World V) (act : Act V) :
    (w.step act).runtime.made = w.runtime.made + if act.attaches then 1 else 0 := by
  cases act with
  | candidates typeId value attachedOnly payload => rfl
  | allocate n createdAt =>
    rw [step]
    split
    · rfl
    · dsimp only
      split <;> rfl
  | append n =>
    rw [step]
    split
    · rfl
    next targets event _ =>
      exact (foldl_appendTo_frame event targets { w with allocated := w.allocated.eraseIdx n }).made
  | debounced key payload createdAt =>
    rw [step]
    rcases deliverDebounced_cases w key payload createdAt with heq | ⟨channel, -, heq⟩
    · rw [heq]
      rfl
    · rw [heq]
      rfl
  | attach target deliveries after =>
    rcases openUser_cases w.runtime target deliveries after with ⟨error, heq⟩ | ⟨channel, -, -, -, heq⟩
    · simp only [step, heq]
      rfl
    · simp only [step, heq]
      rfl
  | recv sender => rfl
  | close sender =>
    rw [step]
    split
    · rfl
    next lease _ =>
      dsimp only
      rw [SubscriptionRuntime.removeSession]
      cases w.runtime.state.channel lease.target <;> rfl

theorem run_made (w : World V) (acts : List (Act V)) :
    (w.run acts).runtime.made = w.runtime.made + acts.countP Act.attaches := by
  induction acts generalizing w with
  | nil => rfl
  | cons act rest ih =>
    rw [show w.run (act :: rest) = (w.step act).run rest from rfl, ih, step_made, List.countP_cons]
    omega

end World

/-- CORRECT: in every interleaving of publishers, debounced deliveries and clients, a signal type is in
    a channel's rules exactly when the channel is listed under it; a session has been sent, and has
    received, a gap-free part of what its channel got since it was opened, and all of it while attached;
    and until the session counter wraps, an attached session stays attached through every step but the
    drop of its receiver and an event its queue does not take. -/
theorem channel_sessions_are_exact (conf : ChannelConf) (acts : List (Act V)) :
    let w := (World.new conf).run acts
    w.runtime.state.Indexed ∧
    (∀ sender lease, w.leases sender = some lease →
      ∃ mailbox, w.runtime.mailboxes sender = some mailbox ∧
        mailbox.received <+: mailbox.sent ∧
        mailbox.sent <+: (w.history lease.target).drop (w.since sender) ∧
        (w.Registered lease.target sender →
          mailbox.sent = (w.history lease.target).drop (w.since sender))) ∧
    (acts.countP Act.attaches < 2 ^ 64 → ∀ act target sender, w.Registered target sender →
      ((w.step act).Registered target sender ↔ act ≠ .close sender ∧
        ((w.step act).history target ≠ w.history target →
          takes w.runtime.mailboxes ⟨sender⟩ = true))) := by
  intro w
  have h : w.Consistent := World.run_consistent (World.new_consistent conf) acts
  refine ⟨h.indexed, ?_, ?_⟩
  · intro sender lease hlease
    obtain ⟨-, mailbox, hmailbox, hsent⟩ := h.tracked.behind sender lease hlease
    exact ⟨mailbox, hmailbox, List.take_prefix .., hsent,
      fun hregistered => (h.tracked.live lease.target sender mailbox hregistered hmailbox).1⟩
  · intro hopens act target sender hregistered
    have hmade : w.runtime.made < 2 ^ 64 := by
      rw [show w.runtime.made = 0 + _ from World.run_made _ acts]
      omega
    exact World.step_registered h.tracked h.numbered h.distinct hmade act hregistered

theorem channel_sessions_are_exact_attached :
    let w := (World.new ⟨4, 4, 4, 4, 4⟩ : World Unit).run [.attach ⟨"u", "c"⟩ [] none]
    w.Registered ⟨"u", "c"⟩ 0 ∧ ¬ (w.step (.close 0)).Registered ⟨"u", "c"⟩ 0 := by
  intro w
  have hregistered : w.Registered ⟨"u", "c"⟩ 0 := ⟨_, 1, rfl, rfl⟩
  have hgoes := (channel_sessions_are_exact (V := Unit) ⟨4, 4, 4, 4, 4⟩
    [.attach ⟨"u", "c"⟩ [] none]).2.2 (by decide) (.close 0) ⟨"u", "c"⟩ 0 hregistered
  exact ⟨hregistered, fun hstays => (hgoes.mp hstays).1 rfl⟩

/-! ### When the session counter wraps -/

namespace World

theorem attach_history (w : World V) (target : ChannelTarget) (deliveries : List (DeliverySpec V))
    (after : Option ℕ) : (w.step (.attach target deliveries after)).history = w.history := by
  rcases openUser_cases w.runtime target deliveries after with ⟨error, heq⟩ | ⟨channel, -, -, -, heq⟩
  · simp only [step, heq]
  · simp only [step, heq]

/-- A new session takes the place of an attached one with the same id. -/
theorem attach_replaces {w : World V} (h : w.Tracked) {t : ChannelTarget} {sender : ℕ}
    (hregistered : w.Registered t sender)
    (hid : w.leases sender = some ⟨t, w.runtime.nextSession⟩) (deliveries : List (DeliverySpec V))
    (after : Option ℕ) : ¬ (w.step (.attach t deliveries after)).Registered t sender := by
  obtain ⟨before, id, hbefore, hlookup⟩ := hregistered
  have hold : sender ≠ w.runtime.made := Nat.ne_of_lt (h.made sender _ hid)
  rcases openUser_cases w.runtime t deliveries after with
    ⟨error, heq⟩ | ⟨channel, hchannel, -, hsessions, heq⟩
  · exfalso
    have hlimit : w.runtime.state.ensureChannelLimit t w.runtime.conf.maxChannelsPerUser = .ok () := by
      obtain ⟨channels, husers, hfound⟩ := Option.bind_eq_some_iff.mp hbefore
      simp only [LocalChannelState.ensureChannelLimit, husers, hfound, Option.isSome_some, if_true]
    have hchannel := LocalChannelState.replacePolicy_channel w.runtime.state t t deliveries
    rw [if_pos rfl] at hchannel
    rw [SubscriptionRuntime.openUser] at heq
    simp only [hlimit, hchannel] at heq
    cases congrArg Prod.fst heq
  · simp only [step, heq]
    rintro ⟨after', i, hafter, hfound⟩
    rcases (attached_sessions hsessions hafter).mp hfound with ⟨-, -, heq⟩ | ⟨hkept, before', hbefore', hfound⟩
    · exact hold heq
    · cases hid.symm.trans (h.leased t before' i sender hbefore' hfound)
      exact hkept ⟨rfl, rfl⟩

/-- Other sessions being opened, one stays attached until the counter has wrapped. -/
theorem run_attaches {w : World V} (h : w.Consistent) {t other : ChannelTarget} {sender : ℕ}
    (hregistered : w.Registered t sender) : ∀ n : ℕ, w.runtime.made + n ≤ 2 ^ 64 →
    (w.run (List.replicate n (.attach other [] none))).Registered t sender := by
  intro n hn
  induction n generalizing w with
  | zero => exact hregistered
  | succ n ih =>
    have hhistory := attach_history w other [] none
    have hstays := (step_registered h.tracked h.numbered h.distinct (by omega) (.attach other [] none)
      hregistered).mpr ⟨nofun, fun hgot => absurd (congrFun hhistory t) hgot⟩
    have hmade := step_made w (.attach other [] none)
    rw [List.replicate_succ]
    refine ih (run_consistent h [.attach other [] none]) hstays ?_
    simp only [hmade, Act.attaches, if_true]
    omega

end World

/-- As many sessions as the counter has numbers. -/
def crowded : List (Act Unit) :=
  [.attach ⟨"u", "c"⟩ [] none] ++ List.replicate (2 ^ 64 - 1) (.attach ⟨"u", "d"⟩ [] none)

/-- With the counter wrapped, a session is lost to another one although no event came. -/
theorem wrapped_session_is_replaced :
    let w := (World.new ⟨4, 4, 4, 4, 4⟩).run crowded
    let act : Act Unit := .attach ⟨"u", "c"⟩ [] none
    w.Registered ⟨"u", "c"⟩ 0 ∧ act ≠ .close 0 ∧ (w.step act).history = w.history ∧
      ¬ (w.step act).Registered ⟨"u", "c"⟩ 0 := by
  intro w act
  let w₁ := (World.new ⟨4, 4, 4, 4, 4⟩ : World Unit).run [.attach ⟨"u", "c"⟩ [] none]
  have h₁ : w₁.Consistent := World.run_consistent (World.new_consistent _) _
  have hregistered₁ : w₁.Registered ⟨"u", "c"⟩ 0 := ⟨_, 1, rfl, rfl⟩
  have hw : w = w₁.run (List.replicate (2 ^ 64 - 1) (.attach ⟨"u", "d"⟩ [] none)) :=
    List.foldl_append ..
  have hregistered : w.Registered ⟨"u", "c"⟩ 0 := by
    rw [hw]
    exact World.run_attaches h₁ hregistered₁ (2 ^ 64 - 1) (by decide)
  have h : w.Consistent := World.run_consistent (World.new_consistent _) _
  have hmade : w.runtime.made = 2 ^ 64 := by
    have hmade₁ : w₁.runtime.made = 1 := rfl
    rw [hw, World.run_made, List.countP_replicate, hmade₁]
    rfl
  have hnext : w.runtime.nextSession = 1 := by
    rw [h.numbered.next, hmade]
    rfl
  obtain ⟨before, id, hbefore, hlookup⟩ := hregistered
  have hlease := h.tracked.leased _ before id 0 hbefore hlookup
  have hid : id = 1 := h.numbered.ids 0 _ hlease
  rw [hid, ← hnext] at hlease
  refine ⟨⟨before, id, hbefore, hlookup⟩, nofun, ?_,
    World.attach_replaces h.tracked ⟨before, id, hbefore, hlookup⟩ hlease [] none⟩
  exact World.attach_history ..

end Vyuh.Channels
