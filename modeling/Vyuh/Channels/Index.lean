import Vyuh.Channels.Runtime

/-! The rule index. `typeIndex` is a second copy of the channels' rules, by signal type. Only
    `replacePolicy` writes either, and it takes the target out of every set before it registers the new
    deliveries in both (`Indexed`). -/

namespace Vyuh.Channels

open Lib

variable {V : Type}

namespace LocalChannelState

theorem channel_setChannel (state : LocalChannelState V) (target t : ChannelTarget)
    (channel : ChannelState V) :
    (state.setChannel target channel).channel t =
      if t = target then some channel else state.channel t := by
  simp only [LocalChannelState.channel, setChannel]
  by_cases huser : t.userKey = target.userKey
  · simp only [huser, FMap.insert_self, Option.bind_some, Dict.lookup_insert_apply]
    by_cases hkey : t.channelKey = target.channelKey
    · have heq : t = target := by
        cases t
        cases target
        simp_all
      rw [if_pos hkey, if_pos heq]
    · have hne : t ≠ target := fun heq => hkey (congrArg ChannelTarget.channelKey heq)
      rw [if_neg hkey, if_neg hne]
      cases state.users target.userKey <;> rfl
  · have hne : t ≠ target := fun heq => huser (congrArg ChannelTarget.userKey heq)
    rw [FMap.insert_of_ne _ _ huser, if_neg hne]

@[simp] theorem setChannel_typeIndex (state : LocalChannelState V) (target : ChannelTarget)
    (channel : ChannelState V) : (state.setChannel target channel).typeIndex = state.typeIndex := rfl

/-- A channel is listed under a signal type. -/
def Listed (index : FMap TypeId (Dict ChannelTarget Unit)) (typeId : TypeId)
    (target : ChannelTarget) : Prop :=
  ∃ targets, index typeId = some targets ∧ target ∈ targets

/-- A signal type is in a channel's rules exactly when the channel is listed under the type. -/
def Indexed (state : LocalChannelState V) : Prop :=
  ∀ typeId target, Listed state.typeIndex typeId target ↔
    ∃ channel, state.channel target = some channel ∧ (channel.rules typeId).isSome

theorem fresh_indexed : (fresh : LocalChannelState V).Indexed := by
  intro typeId target
  constructor
  · rintro ⟨_, h, -⟩
    exact nomatch h
  · rintro ⟨_, h, -⟩
    exact nomatch h

/-- A change that keeps a channel's rules keeps the index right. -/
theorem Indexed.setChannel {state : LocalChannelState V} (h : state.Indexed) {target : ChannelTarget}
    {before after : ChannelState V} (hbefore : state.channel target = some before)
    (hrules : after.rules = before.rules) : (state.setChannel target after).Indexed := by
  intro typeId t
  rw [setChannel_typeIndex, h typeId t, channel_setChannel]
  by_cases ht : t = target
  · subst ht
    simp [hbefore, hrules]
  · rw [if_neg ht]

theorem listed_removeIndexes (state : LocalChannelState V) (target t : ChannelTarget)
    (typeId : TypeId) :
    Listed (state.removeIndexes target).typeIndex typeId t ↔
      t ≠ target ∧ Listed state.typeIndex typeId t := by
  constructor
  · rintro ⟨targets, hfound, hmem⟩
    obtain ⟨hfound, -⟩ := Option.filter_eq_some_iff.mp hfound
    obtain ⟨old, hold, rfl⟩ := Option.map_eq_some_iff.mp hfound
    obtain ⟨hne, hmem⟩ := AList.mem_erase.mp hmem
    exact ⟨hne, old, hold, hmem⟩
  · rintro ⟨hne, targets, hfound, hmem⟩
    have hmem' : t ∈ targets.erase target := AList.mem_erase.mpr ⟨hne, hmem⟩
    refine ⟨targets.erase target, Option.filter_eq_some_iff.mpr ⟨by rw [hfound]; rfl, ?_⟩, hmem'⟩
    have hkey : t ∈ (targets.erase target).keys := AList.mem_keys.mp hmem'
    have hpos := List.length_pos_of_mem hkey
    rw [AList.keys, List.keys, List.length_map] at hpos
    exact decide_eq_true (Nat.ne_of_gt hpos)

theorem listed_register (target t : ChannelTarget) (typeId : TypeId) (delivery : DeliverySpec V)
    (acc : FMap TypeId (Dict ChannelTarget Unit) × FMap TypeId (DeliveryRule V) ×
      FMap SignalKey (SignalCodec V)) :
    Listed (register target acc delivery).1 typeId t ↔
      Listed acc.1 typeId t ∨ t = target ∧ typeId = delivery.typeId := by
  obtain ⟨index, rules, codecs⟩ := acc
  simp only [register, Listed, FMap.insert_apply]
  by_cases htype : typeId = delivery.typeId
  · subst htype
    rw [if_pos rfl]
    constructor
    · rintro ⟨_, ⟨⟩, hmem⟩
      rcases (AList.mem_insert _).mp hmem with rfl | hmem
      · exact .inr ⟨rfl, rfl⟩
      · cases hold : index delivery.typeId with
        | none =>
          rw [hold] at hmem
          exact absurd hmem (AList.notMem_empty t)
        | some old =>
          rw [hold] at hmem
          exact .inl ⟨old, rfl, hmem⟩
    · rintro (⟨old, hold, hmem⟩ | ⟨rfl, -⟩)
      · exact ⟨_, rfl, (AList.mem_insert _).mpr (.inr (by rw [hold]; exact hmem))⟩
      · exact ⟨_, rfl, (AList.mem_insert _).mpr (.inl rfl)⟩
  · rw [if_neg htype]
    simp [htype]

/-- Registering deliveries lists the target under their types and gives its channel a rule for each. -/
theorem foldl_register (target : ChannelTarget) (deliveries : List (DeliverySpec V)) :
    ∀ acc : FMap TypeId (Dict ChannelTarget Unit) × FMap TypeId (DeliveryRule V) ×
      FMap SignalKey (SignalCodec V),
    (∀ typeId t, Listed (deliveries.foldl (register target) acc).1 typeId t ↔
      Listed acc.1 typeId t ∨ t = target ∧ typeId ∈ deliveries.map DeliverySpec.typeId) ∧
    ∀ typeId, ((deliveries.foldl (register target) acc).2.1 typeId).isSome ↔
      (acc.2.1 typeId).isSome ∨ typeId ∈ deliveries.map DeliverySpec.typeId := by
  induction deliveries with
  | nil => intro acc; simp
  | cons delivery rest ih =>
    intro acc
    obtain ⟨hlisted, hrules⟩ := ih (register target acc delivery)
    constructor
    · intro typeId t
      rw [List.foldl_cons, hlisted, listed_register, List.map_cons, List.mem_cons]
      tauto
    · intro typeId
      rw [List.foldl_cons, hrules, List.map_cons, List.mem_cons]
      simp only [register, FMap.insert_apply]
      by_cases htype : typeId = delivery.typeId
      · simp [htype]
      · simp [htype]

theorem replacePolicy_channel (state : LocalChannelState V) (target t : ChannelTarget)
    (deliveries : List (DeliverySpec V)) :
    (state.replacePolicy target deliveries).channel t =
      if t = target then
        let channel := (state.channel target).getD .fresh
        some { channel with
          generation := wrappingAddU64 channel.generation 1
          rules := (deliveries.foldl (register target)
            ((state.removeIndexes target).typeIndex, FMap.empty, state.codecs)).2.1 }
      else state.channel t := by
  rw [replacePolicy, channel_setChannel]
  rfl

/-- The index stays right when a policy is replaced. -/
theorem Indexed.replacePolicy {state : LocalChannelState V} (h : state.Indexed)
    (target : ChannelTarget) (deliveries : List (DeliverySpec V)) :
    (state.replacePolicy target deliveries).Indexed := by
  obtain ⟨hlisted, hrules⟩ := foldl_register target deliveries
    ((state.removeIndexes target).typeIndex, FMap.empty, state.codecs)
  intro typeId t
  have hindex : Listed (state.replacePolicy target deliveries).typeIndex typeId t ↔ _ := hlisted typeId t
  rw [hindex, replacePolicy_channel]
  simp only [listed_removeIndexes]
  by_cases ht : t = target
  · subst ht
    have hrule := hrules typeId
    simp only [FMap.empty, Option.isSome_none, Bool.false_eq_true, false_or] at hrule
    simp [hrule]
  · rw [if_neg ht, h typeId t]
    simp [ht]

end LocalChannelState

end Vyuh.Channels
