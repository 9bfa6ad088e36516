import Vyuh.Lib.Dict
import Vyuh.Lib.FMap
import Vyuh.Lib.Machine
import Vyuh.Lib.Mailbox

/-! The channel runtime (`channels/runtime.rs`, `channels/log.rs`): logical channels with their delivery
    rules, a second copy of the rules indexed by signal type, a bounded replay log and the attached
    sessions. `V` is the type of erased signal values a rule's predicate looks at; a payload is its
    serialized text. Everything here runs under the state lock except the two counters. -/

namespace Vyuh.Channels

open Lib

structure TypeId where
  hash : ℕ
  deriving DecidableEq, Repr

abbrev UserKey := String
abbrev ChannelKey := String
abbrev SignalKey := String

/-- The part of the configuration the runtime reads. -/
structure ChannelConf where
  subscriberQueue : ℕ
  replayLimit : ℕ
  retentionEvents : ℕ
  maxChannelsPerUser : ℕ
  maxMessageBytes : ℕ
  deriving DecidableEq, Repr

/-- Wire envelope delivered by WebSocket, SSE, and polling transports. -/
structure ChannelEvent where
  id : ℕ
  eventType : String
  data : String
  createdAt : ℕ
  deriving DecidableEq, Repr

inductive ChannelError
  | channelLimitExceeded (max : ℕ)
  | backendUnavailable
  deriving DecidableEq, Repr

/-- Bounded local reconnect convenience for one subscription policy. -/
structure SubscriptionLog where
  events : List ChannelEvent
  deriving DecidableEq, Repr

namespace SubscriptionLog

/-- Retains an accepted event while respecting the configured bound. -/
def append (log : SubscriptionLog) (event : ChannelEvent) (limit : ℕ) : SubscriptionLog :=
  if limit = 0 then log
  else
    let events := log.events ++ [event]
    { events := events.drop (events.length - limit) }

/-- Returns events newer than a local cursor, limited for one reconnect. -/
def after (log : SubscriptionLog) (after limit : ℕ) : List ChannelEvent :=
  (log.events.filter fun event => event.id > after).take limit

end SubscriptionLog

/-- Delivery rule registered for a user and one signal payload type. -/
structure DeliverySpec (V : Type) where
  typeId : TypeId
  signalKey : SignalKey
  predicate : V → Bool
  decoder : String → Option V
  debounce : Option Duration

structure DeliveryRule (V : Type) where
  predicate : V → Bool
  debounce : Option Duration

structure SignalCodec (V : Type) where
  typeId : TypeId
  decoder : String → Option V

/-- The sending half of a session's queue. -/
structure Subscriber where
  sender : ℕ
  deriving DecidableEq, Repr

structure ChannelState (V : Type) where
  generation : ℕ
  rules : FMap TypeId (DeliveryRule V)
  log : SubscriptionLog
  sessions : Dict ℕ Subscriber

/-- `ChannelState::default()`. -/
def ChannelState.fresh {V : Type} : ChannelState V :=
  { generation := 0, rules := FMap.empty, log := ⟨[]⟩, sessions := ∅ }

structure ChannelTarget where
  userKey : UserKey
  channelKey : ChannelKey
  deriving DecidableEq, Repr

structure DeliveryTarget where
  channel : ChannelTarget
  generation : ℕ
  deriving DecidableEq, Repr

structure DebounceKey where
  target : DeliveryTarget
  typeId : TypeId
  deriving DecidableEq, Repr

structure PendingPayload where
  eventType : String
  data : String
  deriving DecidableEq, Repr

structure AcceptedChannel where
  target : DeliveryTarget
  debounce : Option Duration
  deriving DecidableEq, Repr

/-- What the state lock guards. -/
structure LocalChannelState (V : Type) where
  users : FMap UserKey (Dict ChannelKey (ChannelState V))
  typeIndex : FMap TypeId (Dict ChannelTarget Unit)
  codecs : FMap SignalKey (SignalCodec V)

namespace LocalChannelState

variable {V : Type}

def fresh : LocalChannelState V :=
  { users := FMap.empty, typeIndex := FMap.empty, codecs := FMap.empty }

/-- The channel of a target, as `channel_mut` finds it. -/
def channel (state : LocalChannelState V) (target : ChannelTarget) : Option (ChannelState V) :=
  (state.users target.userKey).bind fun channels => channels.lookup target.channelKey

/-- Writes a channel back, under a new entry of its user where there was none. -/
def setChannel (state : LocalChannelState V) (target : ChannelTarget) (channel : ChannelState V) :
    LocalChannelState V :=
  let channels := (state.users target.userKey).getD ∅
  { state with users := state.users.insert target.userKey (channels.insert target.channelKey channel) }

def ensureChannelLimit (state : LocalChannelState V) (target : ChannelTarget) (limit : ℕ) :
    Except ChannelError Unit :=
  match state.users target.userKey with
  | none => .ok ()
  | some channels =>
    if (channels.lookup target.channelKey).isSome then .ok ()
    else if channels.size ≥ limit then .error (.channelLimitExceeded limit)
    else .ok ()

/-- Takes a target out of every type's set, and the sets that are left empty. -/
def removeIndexes (state : LocalChannelState V) (target : ChannelTarget) : LocalChannelState V :=
  { state with
    typeIndex := fun typeId =>
      ((state.typeIndex typeId).map (AList.erase target)).filter (fun targets => targets.size ≠ 0) }

/-- Registers one delivery in the index, in the channel's rules and among the codecs. -/
def register (target : ChannelTarget)
    (acc : FMap TypeId (Dict ChannelTarget Unit) × FMap TypeId (DeliveryRule V) ×
      FMap SignalKey (SignalCodec V))
    (delivery : DeliverySpec V) :
    FMap TypeId (Dict ChannelTarget Unit) × FMap TypeId (DeliveryRule V) ×
      FMap SignalKey (SignalCodec V) :=
  let (index, rules, codecs) := acc
  (index.insert delivery.typeId (((index delivery.typeId).getD ∅).insert target ()),
    rules.insert delivery.typeId { predicate := delivery.predicate, debounce := delivery.debounce },
    codecs.insert delivery.signalKey { typeId := delivery.typeId, decoder := delivery.decoder })

def replacePolicy (state : LocalChannelState V) (target : ChannelTarget)
    (deliveries : List (DeliverySpec V)) : LocalChannelState V :=
  let state := state.removeIndexes target
  let channel := (state.channel target).getD .fresh
  let (typeIndex, rules, codecs) :=
    deliveries.foldl (register target) (state.typeIndex, FMap.empty, state.codecs)
  { state with typeIndex, codecs }.setChannel target
    { channel with generation := wrappingAddU64 channel.generation 1, rules }

/-- The rule a target's channel has for a signal type. -/
def channelRule (state : LocalChannelState V) (typeId : TypeId) (attachedOnly : Bool)
    (target : ChannelTarget) : Option (DeliveryTarget × DeliveryRule V) := do
  let channel ← state.channel target
  if attachedOnly && channel.sessions.size = 0 then none
  else
    let rule ← channel.rules typeId
    some ({ channel := target, generation := channel.generation }, rule)

def deliveryCandidates (state : LocalChannelState V) (typeId : TypeId) (attachedOnly : Bool) :
    List (DeliveryTarget × DeliveryRule V) :=
  match state.typeIndex typeId with
  | none => []
  | some targets => targets.keys.filterMap (state.channelRule typeId attachedOnly)

/-- The channels whose rule accepts a signal. -/
def candidatesAny (state : LocalChannelState V) (typeId : TypeId) (value : V) (attachedOnly : Bool) :
    List AcceptedChannel :=
  (state.deliveryCandidates typeId attachedOnly).filterMap fun (target, rule) =>
    if rule.predicate value then some { target, debounce := rule.debounce } else none

end LocalChannelState

/-- The queues of all sessions, by the order they were made in. -/
abbrev Mailboxes := FMap ℕ (Mailbox ChannelEvent)

/-- Offers an event to one session; a session whose queue does not take it is closed. -/
def offer (event : ChannelEvent) (acc : Mailboxes × List ℕ) (session : ℕ × Subscriber) :
    Mailboxes × List ℕ :=
  let (mailboxes, closed) := acc
  match (mailboxes session.2.sender).bind fun mailbox => mailbox.trySend event with
  | some mailbox => (mailboxes.insert session.2.sender mailbox, closed)
  | none => (mailboxes, closed ++ [session.1])

/-- Offers an event to every session of a channel and drops those that do not take it. -/
def sendLive {V : Type} (channel : ChannelState V) (event : ChannelEvent) (mailboxes : Mailboxes) :
    ChannelState V × Mailboxes :=
  let (mailboxes, closed) := channel.sessions.toList.foldl (offer event) (mailboxes, [])
  ({ channel with sessions := closed.foldl (fun sessions id => sessions.erase id) channel.sessions },
    mailboxes)

/-- The site's channel runtime. -/
structure SubscriptionRuntime (V : Type) where
  conf : ChannelConf
  nextEvent : ℕ
  nextSession : ℕ
  state : LocalChannelState V
  mailboxes : Mailboxes
  made : ℕ

namespace SubscriptionRuntime

variable {V : Type}

def new (conf : ChannelConf) : SubscriptionRuntime V :=
  { conf, nextEvent := 1, nextSession := 1, state := .fresh, mailboxes := FMap.empty, made := 0 }

/-- Retains an event in a channel and offers it to the channel's sessions. -/
def deliver (runtime : SubscriptionRuntime V) (target : ChannelTarget) (channel : ChannelState V)
    (event : ChannelEvent) : SubscriptionRuntime V :=
  let channel := { channel with log := channel.log.append event runtime.conf.retentionEvents }
  let (channel, mailboxes) := sendLive channel event runtime.mailboxes
  { runtime with state := runtime.state.setChannel target channel, mailboxes }

/-- `next_event.fetch_add(1)`. -/
def fetchEvent (runtime : SubscriptionRuntime V) : ℕ × SubscriptionRuntime V :=
  (runtime.nextEvent, { runtime with nextEvent := wrappingAddU64 runtime.nextEvent 1 })

/-- Atomically replaces one logical-channel policy and opens a physical session. The queue and the
    session id are made before the lock is taken, whether or not the channel limit then refuses. -/
def openUser (runtime : SubscriptionRuntime V) (target : ChannelTarget)
    (deliveries : List (DeliverySpec V)) (after : Option ℕ) :
    Except ChannelError (List ChannelEvent) × SubscriptionRuntime V :=
  let sender := runtime.made
  let sessionId := runtime.nextSession
  let runtime := { runtime with
    mailboxes := runtime.mailboxes.insert sender (.new (max runtime.conf.subscriberQueue 1))
    made := runtime.made + 1
    nextSession := wrappingAddU64 runtime.nextSession 1 }
  match runtime.state.ensureChannelLimit target runtime.conf.maxChannelsPerUser with
  | .error error => (.error error, runtime)
  | .ok () =>
    let state := runtime.state.replacePolicy target deliveries
    match state.channel target with
    | none => (.error .backendUnavailable, { runtime with state })
    | some channel =>
      let replay := channel.log.after (after.getD 0) runtime.conf.replayLimit
      let channel := { channel with sessions := channel.sessions.insert sessionId { sender } }
      (.ok replay, { runtime with state := state.setChannel target channel })

/-- Forgets a session of a channel. -/
def removeSession (runtime : SubscriptionRuntime V) (target : ChannelTarget) (id : ℕ) :
    SubscriptionRuntime V :=
  match runtime.state.channel target with
  | none => runtime
  | some channel =>
    { runtime with
      state := runtime.state.setChannel target { channel with sessions := channel.sessions.erase id } }

end SubscriptionRuntime

end Vyuh.Channels
