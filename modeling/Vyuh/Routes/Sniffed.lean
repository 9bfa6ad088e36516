import Vyuh.Routes.Rules

/-! The type that a file is found to have while it arrives, and the type of its first 8192 bytes. -/

namespace Vyuh.Routes

open Lib

def Field.content (field : Field) : Bytes := field.chunks.flatten

/-- The type of a file by its first bytes. -/
def typeByContent (host : Host) (field : Field) : Option String := wholeType host field.content

/-- The first type that is found while a file arrives. -/
def typeByArrival (host : Host) (field : Field) : Option String :=
  (firstType host [] field.chunks).or (wholeType host field.content)

/-- The bytes that have arrived where some chunk ends, 8192 at most, are the first that the sniffer knows. -/
structure FirstKnown (host : Host) (field : Field) (early : List Bytes) (mime : String) : Prop where
  arrives : early <+: field.chunks
  nonempty : early.flatten ≠ []
  known : host.mime (early.flatten.take sniffLimit) = some mime
  first : ∀ shorter, shorter <+: early → shorter ≠ early → shorter.flatten ≠ [] →
    host.mime (shorter.flatten.take sniffLimit) = none

/-- The rule says one thing of the first bytes that are known, and another of the first 8192 bytes of the file. -/
def Misread (host : Host) (rule : FileRule) (field : Field) : Prop :=
  ∃ early mime, FirstKnown host field early mime ∧ rule.sniffs (some mime) ≠ rule.sniffs (typeByContent host field)

/-- No file is misread, or one is refused by its content and its first bytes, or of the files that are misread
    one is refused by its content and one is accepted. -/
def SniffedAlike (host : Host) (files : List (FileRule × Field)) : Prop :=
  (∀ file ∈ files, ¬Misread host file.1 file.2) ∨
  (∃ file ∈ files, ¬Misread host file.1 file.2 ∧ file.1.sniffs (typeByContent host file.2) = false) ∨
  ((∃ file ∈ files, Misread host file.1 file.2 ∧ file.1.sniffs (typeByContent host file.2) = false) ∧
    ∃ file ∈ files, Misread host file.1 file.2 ∧ file.1.sniffs (typeByContent host file.2) = true)

section

variable {host : Host} {rule : FileRule} {field : Field} {arrived chunk : Bytes} {chunks : List Bytes} {mime : String}

/-- The sniffer has no type for these first bytes. -/
def Untyped (host : Host) (seen : Bytes) : Prop := seen ≠ [] → host.mime (seen.take sniffLimit) = none

/-- These chunks, behind what has arrived, are the first at whose end there is a type. -/
structure KnownAfter (host : Host) (arrived : Bytes) (early : List Bytes) (mime : String) : Prop where
  nonempty : arrived ++ early.flatten ≠ []
  known : host.mime ((arrived ++ early.flatten).take sniffLimit) = some mime
  first : ∀ shorter, shorter <+: early → shorter ≠ early → Untyped host (arrived ++ shorter.flatten)

theorem not_untyped : ¬Untyped host arrived ↔ arrived ≠ [] ∧ ∃ mime, host.mime (arrived.take sniffLimit) = some mime := by
  rw [Untyped, Classical.not_imp, ← Ne, Option.ne_none_iff_exists']

/-- A chunk that brings nothing the sniffer knows is passed over. -/
theorem Untyped.firstType_cons (h : Untyped host (arrived ++ chunk)) :
    firstType host arrived (chunk :: chunks) = firstType host (arrived ++ chunk) chunks := by
  rw [firstType]
  split
  next hseen =>
    rw [h fun hnil => hseen.2 (by rw [hnil]; rfl), Option.none_or]
  next => rw [Option.none_or]

/-- A chunk that brings the type is looked at: what has arrived before it is not yet 8192 bytes. -/
theorem firstType_cons_of_known (harrived : Untyped host arrived) (hne : arrived ++ chunk ≠ [])
    (hknown : host.mime ((arrived ++ chunk).take sniffLimit) = some mime) :
    firstType host arrived (chunk :: chunks) = some mime := by
  have hlimit : arrived.length < sniffLimit := by
    by_contra hfull
    have hsame : (arrived ++ chunk).take sniffLimit = arrived.take sniffLimit :=
      List.take_append_of_le_length (not_lt.mp hfull)
    have hsome : arrived ≠ [] := fun hnil => hfull (by rw [hnil]; decide)
    rw [hsame, harrived hsome] at hknown
    exact absurd hknown.symm (Option.some_ne_none _)
  have hseen : (arrived ++ chunk).take sniffLimit ≠ [] := by
    rw [Ne, List.take_eq_nil_iff, not_or]
    exact ⟨by decide, hne⟩
  rw [firstType, if_pos ⟨hlimit, hseen⟩, hknown, Option.some_or]

theorem flatten_behind (arrived chunk : Bytes) (later : List Bytes) :
    arrived ++ (chunk :: later).flatten = arrived ++ chunk ++ later.flatten := by
  rw [List.flatten_cons, List.append_assoc]

namespace KnownAfter

variable {early later : List Bytes}

/-- What is not known yet is known by a chunk that comes. -/
theorem ne_nil (harrived : Untyped host arrived) (h : KnownAfter host arrived early mime) : early ≠ [] := by
  rintro rfl
  have hne := h.nonempty
  have hknown := h.known
  rw [List.flatten_nil, List.append_nil] at hne hknown
  exact Option.some_ne_none _ (hknown.symm.trans (harrived hne))

/-- A chunk that brings nothing is the first of them, and the rest is found behind it. -/
theorem cons_iff (harrived : Untyped host arrived) (hchunk : Untyped host (arrived ++ chunk)) :
    KnownAfter host arrived (chunk :: later) mime ↔ KnownAfter host (arrived ++ chunk) later mime := by
  constructor
  · intro h
    refine ⟨flatten_behind _ _ later ▸ h.nonempty, flatten_behind _ _ later ▸ h.known, fun shorter hshorter hdiff => ?_⟩
    rw [← flatten_behind]
    exact h.first _ (List.cons_prefix_cons.mpr ⟨rfl, hshorter⟩) fun heq => hdiff (List.cons.inj heq).2
  · intro h
    refine ⟨(flatten_behind _ _ later).symm ▸ h.nonempty, (flatten_behind _ _ later).symm ▸ h.known, ?_⟩
    intro shorter hshorter hdiff
    cases shorter with
    | nil =>
      rw [List.flatten_nil, List.append_nil]
      exact harrived
    | cons first shorter =>
      obtain ⟨rfl, hrest⟩ := List.cons_prefix_cons.mp hshorter
      rw [flatten_behind]
      exact h.first shorter hrest fun heq => hdiff (heq ▸ rfl)

/-- A chunk that brings the type is the only one. -/
theorem cons_iff_of_known (harrived : Untyped host arrived) (hne : arrived ++ chunk ≠ []) {known : String}
    (hknown : host.mime ((arrived ++ chunk).take sniffLimit) = some known) :
    KnownAfter host arrived (chunk :: later) mime ↔ later = [] ∧ known = mime := by
  have hself : arrived ++ [chunk].flatten = arrived ++ chunk := by rw [List.flatten_singleton]
  constructor
  · intro h
    have hlater : later = [] := by
      by_contra hmore
      have hbefore := h.first [chunk] (List.cons_prefix_cons.mpr ⟨rfl, List.nil_prefix⟩)
        fun heq => hmore (List.cons.inj heq).2.symm
      rw [hself] at hbefore
      exact Option.some_ne_none _ (hknown.symm.trans (hbefore hne))
    subst hlater
    have hsame := h.known
    rw [hself, hknown] at hsame
    exact ⟨rfl, Option.some.inj hsame⟩
  · rintro ⟨rfl, rfl⟩
    refine ⟨hself ▸ hne, hself ▸ hknown, fun shorter hshorter hdiff => ?_⟩
    cases shorter with
    | nil =>
      rw [List.flatten_nil, List.append_nil]
      exact harrived
    | cons first shorter =>
      obtain ⟨rfl, hrest⟩ := List.cons_prefix_cons.mp hshorter
      exact absurd (by rw [List.prefix_nil.mp hrest]) hdiff

end KnownAfter

/-- The first type that is found is that of the first bytes that are known. -/
theorem firstType_eq_some_iff (harrived : Untyped host arrived) :
    firstType host arrived chunks = some mime ↔ ∃ early, early <+: chunks ∧ KnownAfter host arrived early mime := by
  induction chunks generalizing arrived with
  | nil =>
    refine iff_of_false (Option.not_mem_none mime) ?_
    rintro ⟨early, hearly, hknown⟩
    exact hknown.ne_nil harrived (List.prefix_nil.mp hearly)
  | cons chunk chunks ih =>
    have hcons : (∃ early, early <+: chunk :: chunks ∧ KnownAfter host arrived early mime) ↔
        ∃ later, later <+: chunks ∧ KnownAfter host arrived (chunk :: later) mime := by
      constructor
      · rintro ⟨early, hearly, hknown⟩
        cases early with
        | nil => exact absurd rfl (hknown.ne_nil harrived)
        | cons first later =>
          obtain ⟨rfl, hlater⟩ := List.cons_prefix_cons.mp hearly
          exact ⟨later, hlater, hknown⟩
      · rintro ⟨later, hlater, hknown⟩
        exact ⟨chunk :: later, List.cons_prefix_cons.mpr ⟨rfl, hlater⟩, hknown⟩
    rw [hcons]
    by_cases hchunk : Untyped host (arrived ++ chunk)
    · rw [hchunk.firstType_cons, ih hchunk]
      exact exists_congr fun later => and_congr_right fun _ => (KnownAfter.cons_iff harrived hchunk).symm
    · obtain ⟨hne, known, hknown⟩ := not_untyped.mp hchunk
      rw [firstType_cons_of_known harrived hne hknown, Option.some_inj]
      simp only [KnownAfter.cons_iff_of_known harrived hne hknown]
      constructor
      · exact fun heq => ⟨[], List.nil_prefix, rfl, heq⟩
      · rintro ⟨_, -, -, heq⟩
        exact heq

theorem firstKnown_iff : (∃ early, FirstKnown host field early mime) ↔
    firstType host [] field.chunks = some mime := by
  rw [firstType_eq_some_iff fun hne => absurd rfl hne]
  refine exists_congr fun early => ⟨fun h => ⟨h.arrives, h.nonempty, h.known, h.first⟩, ?_⟩
  rintro ⟨harrives, hknown⟩
  exact ⟨harrives, hknown.nonempty, hknown.known, hknown.first⟩

/-- A file is misread when its rule decides by another type on arrival than by the content. -/
theorem misread_iff : Misread host rule field ↔
    rule.sniffs (typeByArrival host field) ≠ rule.sniffs (typeByContent host field) := by
  have hmisread : Misread host rule field ↔ ∃ mime, firstType host [] field.chunks = some mime ∧
      rule.sniffs (some mime) ≠ rule.sniffs (typeByContent host field) := by
    rw [Misread, exists_comm]
    exact exists_congr fun mime => by rw [← firstKnown_iff, exists_and_right]
  rw [hmisread, typeByArrival]
  cases hfirst : firstType host [] field.chunks with
  | none =>
    rw [Option.none_or]
    exact iff_of_false (fun ⟨_, h, _⟩ => nomatch h) (not_not.mpr rfl)
  | some mime =>
    rw [Option.some_or]
    exact ⟨fun ⟨other, h, hdiff⟩ => Option.some.inj h ▸ hdiff, fun hdiff => ⟨mime, rfl, hdiff⟩⟩

/-- All files are taken on arrival exactly when all are by their contents. -/
theorem sniffedAlike_iff {files : List (FileRule × Field)} : SniffedAlike host files ↔
    ((∀ file ∈ files, file.1.sniffs (typeByArrival host file.2) = true) ↔
      ∀ file ∈ files, file.1.sniffs (typeByContent host file.2) = true) := by
  have hsame : ∀ file : FileRule × Field, ¬Misread host file.1 file.2 ↔
      file.1.sniffs (typeByArrival host file.2) = file.1.sniffs (typeByContent host file.2) := fun file => by
    rw [misread_iff, not_not]
  have hother : ∀ file : FileRule × Field, Misread host file.1 file.2 ↔
      file.1.sniffs (typeByArrival host file.2) = !file.1.sniffs (typeByContent host file.2) := fun file => by
    rw [misread_iff, Bool.eq_not]
  constructor
  · rintro (halike | ⟨file, hfile, halike, hrefused⟩ | ⟨⟨refused, hrefused, -, hno⟩, accepted, haccepted, hmisread, hyes⟩)
    · exact forall₂_congr fun file hfile => by rw [(hsame file).mp (halike file hfile)]
    · refine iff_of_false (fun h => ?_) fun h => ?_
      · exact absurd (((hsame file).mp halike).symm.trans (h file hfile)) (by rw [hrefused]; decide)
      · exact absurd (h file hfile) (by rw [hrefused]; decide)
    · refine iff_of_false (fun h => ?_) fun h => ?_
      · exact absurd (h accepted haccepted) (by rw [(hother accepted).mp hmisread, hyes]; decide)
      · exact absurd (h refused hrefused) (by rw [hno]; decide)
  · intro hiff
    by_cases halike : ∀ file ∈ files, ¬Misread host file.1 file.2
    · exact .inl halike
    push Not at halike
    obtain ⟨file, hfile, hmisread⟩ := halike
    have hdiff := (hother file).mp hmisread
    -- Both sides fail: some file is refused on arrival, and some by its content.
    have hboth : (∃ file ∈ files, file.1.sniffs (typeByArrival host file.2) = false) ∧
        ∃ file ∈ files, file.1.sniffs (typeByContent host file.2) = false := by
      have hnot : ¬∀ file ∈ files, file.1.sniffs (typeByArrival host file.2) = true := by
        intro hall
        have harrival := hall file hfile
        rw [hdiff, hiff.mp hall file hfile] at harrival
        exact nomatch harrival
      have hnot' := mt hiff.mpr hnot
      push Not at hnot hnot'
      simpa only [Bool.not_eq_true] using And.intro hnot hnot'
    obtain ⟨⟨early, hearly, hearlyNo⟩, late, hlate, hlateNo⟩ := hboth
    by_cases hlateMisread : Misread host late.1 late.2
    · by_cases hearlyMisread : Misread host early.1 early.2
      · refine .inr (.inr ⟨⟨late, hlate, hlateMisread, hlateNo⟩, early, hearly, hearlyMisread, ?_⟩)
        rw [(hother early).mp hearlyMisread, Bool.not_eq_false'] at hearlyNo
        exact hearlyNo
      · exact .inr (.inl ⟨early, hearly, hearlyMisread, ((hsame early).mp hearlyMisread).symm.trans hearlyNo⟩)
    · exact .inr (.inl ⟨late, hlate, hlateMisread, hlateNo⟩)

end

end Vyuh.Routes
