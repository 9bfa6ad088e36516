import Mathlib
import Vyuh.Auth.Identity
import Vyuh.Lib.BTreeMap
import Vyuh.Lib.Step

/-! Audience coverage of a provider (`auth/runtime/contract.rs`) and the index from audiences and
    selectors to provider positions (`auth/runtime/indexes.rs`). -/

namespace Vyuh.Auth

open Lib

variable {selector : String} {index index' : AccessIndex} {values : List (String × ProviderAudienceSet)}

instance : LinearOrder AudienceId :=
  inferInstanceAs (LinearOrder { value : String // validAudience value = true })

/-- Static route-audience coverage. -/
inductive ProviderAudienceSet
  | any
  | only (values : List AudienceId)
  deriving DecidableEq

namespace ProviderAudienceSet

/-- Builds a finite non-empty audience set and rejects duplicate declarations. -/
def ofValues (values : List AudienceId) : Except AuthError ProviderAudienceSet :=
  let sorted := values.mergeSort (fun a b => decide (a ≤ b))
  let unique := sorted.destutter (· ≠ ·)
  if unique.isEmpty || unique.length > 64 || unique.length ≠ sorted.length then
    .error (.invalidProviderConfig "provider audiences must contain between 1 and 64 unique values")
  else .ok (.only unique)

/-- Whether a provider may authenticate an audience; the binary search is over sorted values. -/
def supports (audience : AudienceId) : ProviderAudienceSet → Bool
  | .any => true
  | .only values => values.contains audience

/-- Rejects audiences outside the provider's static coverage. -/
def validateRequested (set : ProviderAudienceSet) (audiences : List AudienceId) : Except AuthError Unit :=
  if audiences.all (fun audience => set.supports audience) then .ok () else .error .audienceMismatch

end ProviderAudienceSet

/-- Provider positions by audience and selector, and by selector for unrestricted providers. -/
structure AccessIndex where
  access : BTreeMap AudienceId (BTreeMap String ℕ)
  unrestrictedAccess : BTreeMap String ℕ

namespace AccessIndex

def empty : AccessIndex := ⟨[], []⟩

/-- Adds a wildcard selector only when no exact or wildcard binding overlaps it. -/
def insertUnrestricted (index : AccessIndex) (selector : String) (position : ℕ) :
    Except AuthError AccessIndex :=
  if index.unrestrictedAccess.containsKey selector then
    .error (.ambiguousProvider (selector ++ " for unrestricted audiences"))
  else
    match index.access.find? fun entry => entry.2.containsKey selector with
    | some (audience, _) =>
      .error (.ambiguousProvider (selector ++ " for audience '" ++ audience.asStr ++ "'"))
    | none =>
      .ok { index with unrestrictedAccess := index.unrestrictedAccess.insert selector position }

/-- Adds one exact audience-selector binding while rejecting wildcard overlap. -/
def insertRestricted (selector : String) (position : ℕ) (index : AccessIndex) (audience : AudienceId) :
    Except AuthError AccessIndex :=
  if index.unrestrictedAccess.containsKey selector then
    .error (.ambiguousProvider (selector ++ " for audience '" ++ audience.asStr ++ "'"))
  else
    let values := (index.access.get audience).getD []
    if values.containsKey selector then
      .error (.ambiguousProvider (selector ++ " for audience '" ++ audience.asStr ++ "'"))
    else .ok { index with access := index.access.insert audience (values.insert selector position) }

/-- Adds one selector over finite or unrestricted audience coverage. -/
def insert (index : AccessIndex) (audiences : ProviderAudienceSet) (selector : String) (position : ℕ) :
    Except AuthError AccessIndex :=
  match audiences with
  | .any => index.insertUnrestricted selector position
  | .only values => values.foldlM (insertRestricted selector position) index

/-- Indexes selectors with their coverage, numbered from `position`. -/
def build (index : AccessIndex) (position : ℕ) :
    List (String × ProviderAudienceSet) → Except AuthError AccessIndex
  | [] => .ok index
  | (selector, audiences) :: rest => do
    let index ← index.insert audiences selector position
    index.build (position + 1) rest

/-- The providers statically eligible for one audience, exact bindings first. -/
def accessFor (index : AccessIndex) (audience : AudienceId) : List ℕ :=
  ((index.access.get audience).getD []).values ++ index.unrestrictedAccess.values

end AccessIndex

/-- Validates descriptor-level selector scopes. -/
def validateAccessSelectors (values : List (String × ProviderAudienceSet)) : Except AuthError Unit := do
  let _ ← AccessIndex.empty.build 0 values
  .ok ()

/-! ### What the index holds -/

/-- The selectors bound for exactly one audience. -/
def AccessIndex.exact (index : AccessIndex) (audience : AudienceId) : BTreeMap String ℕ :=
  (index.access.get audience).getD []

/-- An index of a list of selectors with their coverage: every binding is there under the position of its
    provider, and no selector is bound twice for one audience. -/
structure AccessIndex.Indexes (index : AccessIndex) (values : List (String × ProviderAudienceSet)) :
    Prop where
  unrestricted : ∀ selector position, (selector, position) ∈ index.unrestrictedAccess ↔
    values[position]? = some (selector, .any)
  restricted : ∀ audience selector position, (selector, position) ∈ index.exact audience ↔
    ∃ covered, values[position]? = some (selector, .only covered) ∧ audience ∈ covered
  audiences : index.access.keys.Nodup
  wildcards : index.unrestrictedAccess.keys.Nodup
  selectors : ∀ audience, (index.exact audience).keys.Nodup
  apart : ∀ audience selector position position', (selector, position) ∈ index.unrestrictedAccess →
    (selector, position') ∉ index.exact audience

theorem getElem?_concat {α : Type} {values : List α} {value entry : α} {position : ℕ} :
    (values ++ [value])[position]? = some entry ↔
      values[position]? = some entry ∨ position = values.length ∧ entry = value := by
  rw [List.getElem?_append]
  split
  next hlt =>
    exact ⟨.inl, fun h => h.resolve_right fun heq => absurd heq.1 hlt.ne⟩
  next hge =>
    have hnone : values[position]? = none := List.getElem?_eq_none (not_lt.mp hge)
    rw [hnone, List.getElem?_singleton]
    split
    next hzero =>
      have hlast : position = values.length := by omega
      simp [hlast, eq_comm]
    next hpos =>
      have hlater : position ≠ values.length := by omega
      simp [hlater]

namespace AccessIndex

theorem empty_indexes : empty.Indexes [] where
  unrestricted _ _ := ⟨fun h => (nomatch h), fun h => nomatch h⟩
  restricted _ _ _ := ⟨fun h => (nomatch h), fun ⟨_, h, _⟩ => nomatch h⟩
  audiences := .nil
  wildcards := .nil
  selectors _ := .nil
  apart _ _ _ _ h := nomatch h

theorem insertUnrestricted_indexes (h : index.Indexes values)
    (hinsert : index.insertUnrestricted selector values.length = .ok index') :
    index'.Indexes (values ++ [(selector, .any)]) := by
  rw [insertUnrestricted] at hinsert
  split at hinsert
  · exact nomatch hinsert
  next hfresh =>
    cases hfind : index.access.find? fun entry => entry.2.containsKey selector with
    | some entry =>
      rw [hfind] at hinsert
      exact nomatch hinsert
    | none =>
      rw [hfind] at hinsert
      cases hinsert
      have hnew : ∀ position, (selector, position) ∉ index.unrestrictedAccess := fun position hmem =>
        hfresh (BTreeMap.containsKey_iff.mpr ⟨position, hmem⟩)
      have hnone : ∀ audience position, (selector, position) ∉ index.exact audience := by
        intro audience position hmem
        rw [exact] at hmem
        cases hget : index.access.get audience with
        | none =>
          rw [hget] at hmem
          exact nomatch hmem
        | some bound =>
          rw [hget] at hmem
          have hentry := (BTreeMap.get_eq_some_iff h.audiences).mp hget
          exact List.find?_eq_none.mp hfind _ hentry (BTreeMap.containsKey_iff.mpr ⟨position, hmem⟩)
      refine ⟨?_, ?_, h.audiences, BTreeMap.nodup_keys_insert h.wildcards .., h.selectors, ?_⟩
      · intro other position
        rw [BTreeMap.mem_insert, getElem?_concat, ← h.unrestricted other position, Prod.mk.injEq,
          Prod.mk.injEq]
        constructor
        · rintro (⟨rfl, rfl⟩ | ⟨hmem, -⟩)
          · exact .inr ⟨rfl, rfl, rfl⟩
          · exact .inl hmem
        · rintro (hmem | ⟨rfl, rfl, -⟩)
          · exact .inr ⟨hmem, fun heq => hnew position (heq ▸ hmem)⟩
          · exact .inl ⟨rfl, rfl⟩
      · intro audience other position
        refine (h.restricted audience other position).trans ⟨?_, ?_⟩
        · rintro ⟨covered, hat, hmem⟩
          exact ⟨covered, getElem?_concat.mpr (.inl hat), hmem⟩
        · rintro ⟨covered, hat, hmem⟩
          rcases getElem?_concat.mp hat with hat | ⟨-, heq⟩
          · exact ⟨covered, hat, hmem⟩
          · exact nomatch heq
      · intro audience other position position' hmem hother
        rcases BTreeMap.mem_insert.mp hmem with heq | ⟨hmem, -⟩
        · cases heq
          exact hnone audience position' hother
        · exact h.apart audience other position position' hmem hother

/-- A binding for one more audience, of a provider that is bound for the audiences before it. -/
theorem insertRestricted_indexes {covered : List AudienceId} {audience : AudienceId}
    (h : index.Indexes (values ++ [(selector, .only covered)]))
    (hinsert : index.insertRestricted selector values.length audience = .ok index') :
    index'.Indexes (values ++ [(selector, .only (covered ++ [audience]))]) := by
  rw [insertRestricted] at hinsert
  split at hinsert
  · exact nomatch hinsert
  next hwild =>
    dsimp only at hinsert
    split at hinsert
    · exact nomatch hinsert
    next hfresh =>
      have hindex := Except.ok.inj hinsert
      have hwildcards : index'.unrestrictedAccess = index.unrestrictedAccess := hindex ▸ rfl
      have hexact : ∀ other, index'.exact other =
          if other = audience then (index.exact audience).insert selector values.length
          else index.exact other := by
        intro other
        rw [← hindex, exact, BTreeMap.get_insert h.audiences]
        split <;> rfl
      have hnew : ∀ position, (selector, position) ∉ index.exact audience := fun position hmem =>
        hfresh (BTreeMap.containsKey_iff.mpr ⟨position, hmem⟩)
      refine ⟨?_, ?_, ?_, ?_, ?_, ?_⟩
      · intro other position
        rw [hwildcards, h.unrestricted, getElem?_concat, getElem?_concat]
        simp
      · intro audience' other position
        rw [hexact]
        by_cases haudience : audience' = audience
        · subst haudience
          rw [if_pos rfl, BTreeMap.mem_insert, h.restricted]
          constructor
          · rintro (heq | ⟨⟨covered', hat, hmem⟩, -⟩)
            · cases heq
              exact ⟨_, getElem?_concat.mpr (.inr ⟨rfl, rfl⟩), List.mem_append_right _ List.mem_cons_self⟩
            · rcases getElem?_concat.mp hat with hat | ⟨rfl, heq⟩
              · exact ⟨covered', getElem?_concat.mpr (.inl hat), hmem⟩
              · cases heq
                exact ⟨_, getElem?_concat.mpr (.inr ⟨rfl, rfl⟩), List.mem_append_left _ hmem⟩
          · rintro ⟨covered', hat, hmem⟩
            rcases getElem?_concat.mp hat with hold | ⟨rfl, heq⟩
            · have hbound := (h.restricted audience' other position).mpr
                ⟨covered', getElem?_concat.mpr (.inl hold), hmem⟩
              refine .inr ⟨⟨covered', getElem?_concat.mpr (.inl hold), hmem⟩, ?_⟩
              exact fun heq => hnew position (heq ▸ hbound)
            · cases heq
              exact .inl rfl
        · rw [if_neg haudience, h.restricted]
          constructor
          · rintro ⟨covered', hat, hmem⟩
            rcases getElem?_concat.mp hat with hat | ⟨rfl, heq⟩
            · exact ⟨covered', getElem?_concat.mpr (.inl hat), hmem⟩
            · cases heq
              exact ⟨_, getElem?_concat.mpr (.inr ⟨rfl, rfl⟩), List.mem_append_left _ hmem⟩
          · rintro ⟨covered', hat, hmem⟩
            rcases getElem?_concat.mp hat with hat | ⟨rfl, heq⟩
            · exact ⟨covered', getElem?_concat.mpr (.inl hat), hmem⟩
            · cases heq
              refine ⟨covered, getElem?_concat.mpr (.inr ⟨rfl, rfl⟩), ?_⟩
              exact (List.mem_append.mp hmem).resolve_right fun hlast =>
                haudience (List.mem_singleton.mp hlast)
      · rw [← hindex]
        exact BTreeMap.nodup_keys_insert h.audiences ..
      · rw [hwildcards]
        exact h.wildcards
      · intro other
        rw [hexact]
        split
        · exact BTreeMap.nodup_keys_insert (h.selectors audience) ..
        · exact h.selectors other
      · intro other selector' position position' hmem
        rw [hwildcards] at hmem
        rw [hexact]
        split
        · intro hbound
          rcases BTreeMap.mem_insert.mp hbound with heq | ⟨hbound, -⟩
          · cases heq
            exact hwild (BTreeMap.containsKey_iff.mpr ⟨position, hmem⟩)
          · exact h.apart audience selector' position position' hmem hbound
        · exact h.apart other selector' position position' hmem

theorem insertEach_indexes (covered rest : List AudienceId)
    (h : index.Indexes (values ++ [(selector, .only covered)]))
    (hinsert : rest.foldlM (insertRestricted selector values.length) index = .ok index') :
    index'.Indexes (values ++ [(selector, .only (covered ++ rest))]) := by
  induction rest generalizing covered index with
  | nil =>
    cases hinsert
    rw [List.append_nil]
    exact h
  | cons audience rest ih =>
    rw [List.foldlM_cons] at hinsert
    obtain ⟨next, hnext, hinsert⟩ := Step.except_bind_ok.mp hinsert
    have hlast := ih (covered ++ [audience]) (insertRestricted_indexes h hnext) hinsert
    rwa [List.append_assoc, List.singleton_append] at hlast

/-- Before its first audience, a provider is bound for none. -/
theorem Indexes.unbound {index : AccessIndex} (h : index.Indexes values) :
    index.Indexes (values ++ [(selector, .only [])]) := by
  refine ⟨?_, ?_, h.audiences, h.wildcards, h.selectors, h.apart⟩
  · intro other position
    rw [h.unrestricted, getElem?_concat]
    simp
  · intro audience other position
    rw [h.restricted]
    constructor
    · rintro ⟨covered', hat, hmem⟩
      exact ⟨covered', getElem?_concat.mpr (.inl hat), hmem⟩
    · rintro ⟨covered', hat, hmem⟩
      rcases getElem?_concat.mp hat with hat | ⟨-, heq⟩
      · exact ⟨covered', hat, hmem⟩
      · cases heq
        exact nomatch hmem

theorem insert_indexes {audiences : ProviderAudienceSet} (h : index.Indexes values)
    (hinsert : index.insert audiences selector values.length = .ok index') :
    index'.Indexes (values ++ [(selector, audiences)]) := by
  cases audiences with
  | any => exact insertUnrestricted_indexes h hinsert
  | only covered =>
    exact insertEach_indexes [] covered h.unbound hinsert

theorem build_indexes (values rest : List (String × ProviderAudienceSet)) (h : index.Indexes values)
    (hbuild : index.build values.length rest = .ok index') :
    index'.Indexes (values ++ rest) := by
  induction rest generalizing values index with
  | nil =>
    cases hbuild
    rw [List.append_nil]
    exact h
  | cons entry rest ih =>
    obtain ⟨selector, audiences⟩ := entry
    obtain ⟨next, hnext, hbuild⟩ := Step.except_bind_ok.mp hbuild
    have hlast := ih (values ++ [(selector, audiences)]) (insert_indexes h hnext)
      (by rw [List.length_append]; exact hbuild)
    rwa [List.append_assoc, List.singleton_append] at hlast

section

variable {index : AccessIndex} {values : List (String × ProviderAudienceSet)} {audience : AudienceId}

/-- The providers listed for an audience are those that support it. -/
theorem Indexes.mem_accessFor (h : index.Indexes values) {position : ℕ} :
    position ∈ index.accessFor audience ↔
      ∃ selector audiences, values[position]? = some (selector, audiences) ∧
        audiences.supports audience = true := by
  simp only [accessFor, List.mem_append, BTreeMap.values, List.mem_map, Prod.exists, exists_eq_right]
  constructor
  · rintro (⟨selector, hmem⟩ | ⟨selector, hmem⟩)
    · obtain ⟨covered, hat, hcovered⟩ := (h.restricted audience selector position).mp hmem
      exact ⟨selector, _, hat, List.contains_iff_mem.mpr hcovered⟩
    · exact ⟨selector, _, (h.unrestricted selector position).mp hmem, rfl⟩
  · rintro ⟨selector, audiences, hat, hsupports⟩
    cases audiences with
    | any => exact .inr ⟨selector, (h.unrestricted selector position).mpr hat⟩
    | only covered =>
      exact .inl ⟨selector, (h.restricted audience selector position).mpr
        ⟨covered, hat, List.contains_iff_mem.mp hsupports⟩⟩

/-- Two providers with one selector do not support the same audience. -/
theorem Indexes.selector_unique (h : index.Indexes values) {position other : ℕ}
    {audiences audiences' : ProviderAudienceSet} (hat : values[position]? = some (selector, audiences))
    (hsupports : audiences.supports audience = true) (hother : values[other]? = some (selector, audiences'))
    (hsupports' : audiences'.supports audience = true) : position = other := by
  have hrestricted : ∀ {position covered}, values[position]? = some (selector, .only covered) →
      ProviderAudienceSet.supports audience (.only covered) = true →
      (selector, position) ∈ index.exact audience := fun hat hsupports =>
    (h.restricted audience selector _).mpr ⟨_, hat, List.contains_iff_mem.mp hsupports⟩
  cases audiences with
  | any =>
    have hmem := (h.unrestricted selector position).mpr hat
    cases audiences' with
    | any => exact BTreeMap.value_unique h.wildcards hmem ((h.unrestricted selector other).mpr hother)
    | only covered =>
      exact absurd (hrestricted hother hsupports') (h.apart audience selector position other hmem)
  | only covered =>
    have hmem := hrestricted hat hsupports
    cases audiences' with
    | any =>
      exact absurd hmem (h.apart audience selector other position ((h.unrestricted selector other).mpr hother))
    | only covered' =>
      exact BTreeMap.value_unique (h.selectors audience) hmem (hrestricted hother hsupports')

/-- Every provider is listed once. -/
theorem Indexes.nodup_accessFor (h : index.Indexes values) : (index.accessFor audience).Nodup := by
  rw [accessFor]
  refine List.nodup_append.mpr ⟨?_, ?_, ?_⟩
  · refine BTreeMap.nodup_values (h.selectors audience) ?_
    intro selector selector' position hmem hmem'
    obtain ⟨_, hat, -⟩ := (h.restricted audience selector position).mp hmem
    obtain ⟨_, hat', -⟩ := (h.restricted audience selector' position).mp hmem'
    cases hat.symm.trans hat'
    rfl
  · refine BTreeMap.nodup_values h.wildcards ?_
    intro selector selector' position hmem hmem'
    cases ((h.unrestricted selector position).mp hmem).symm.trans
      ((h.unrestricted selector' position).mp hmem')
    rfl
  · rintro position hexact other hwild rfl
    obtain ⟨⟨selector, _⟩, hmem, rfl⟩ := List.mem_map.mp hexact
    obtain ⟨⟨selector', _⟩, hmem', rfl⟩ := List.mem_map.mp hwild
    obtain ⟨_, hat, -⟩ := (h.restricted audience selector _).mp hmem
    cases hat.symm.trans ((h.unrestricted selector' _).mp hmem')

end

end AccessIndex

end Vyuh.Auth
