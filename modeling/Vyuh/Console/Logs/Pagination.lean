import Mathlib
import Vyuh.Console.Logs.Pages
import Vyuh.Console.Logs.Walk

/-! Reading page after page. Every entry of the files is visited on exactly one page, whatever the limits and
    wherever a budget runs out; what a page visits it emits, except for lines of a digest it has seen. -/

namespace Vyuh.Console.Logs

open Lib

variable {scan : PageScan}

/-! ### Pages in sequence -/

/-- Where an entry stands. -/
def FoundEntry.position (found : FoundEntry) : String × String × ℕ := (found.rule, found.file, found.start)

/-- Where the entry stands that an item of a page points at. -/
def LogEntry.position [CursorCodec] (item : LogEntry) : Option (String × String × ℕ) :=
  match CursorCodec.openToken item.id with
  | .ok (.entry pointer) => some (pointer.rule, pointer.file, pointer.start)
  | _ => none

/-- What is sealed can be opened again. -/
def RoundTrips [CursorCodec] : Prop :=
  ∀ value, ∃ token, CursorCodec.sealValue value = .ok token ∧ CursorCodec.openToken token = .ok value

/-- The pages read one after the other, each with the cursor of the one before, up to the first that has
    none; the limit of a page depends on its number. -/
inductive Pages [Libraries] [CursorCodec] (disk : Disk) (sources : List LogSource) (query : LogQuery)
    (limits : ℕ → ℕ) : ℕ → Option String → List LogPage → Prop
  | last {n : ℕ} {cursor : Option String} {page : LogPage} :
    readPage disk sources { query with cursor } (limits n) = .ok page → page.nextCursor = none →
    Pages disk sources query limits n cursor [page]
  | more {n : ℕ} {cursor : Option String} {page : LogPage} {token : String} {pages : List LogPage} :
    readPage disk sources { query with cursor } (limits n) = .ok page → page.nextCursor = some token →
    Pages disk sources query limits (n + 1) (some token) pages →
    Pages disk sources query limits n cursor (page :: pages)

/-- The first entry of each digest that is not among those seen. -/
def firstOfDigest : List String → List FoundEntry → List FoundEntry
  | _, [] => []
  | seen, found :: rest =>
    if found.digest ∈ seen then firstOfDigest seen rest
    else found :: firstOfDigest (found.digest :: seen) rest

/-- Every entry of a listed file, read alone. -/
def readFile [Libraries] (disk : Disk) (sources : List LogSource) (query : LogQuery) (cursor : FileCursor) :
    Except LogError (List FoundEntry) := do
  readAll query (← openReader disk sources cursor)

/-! ### The newest entry -/

variable {query : LogQuery} {disk : Disk} {sources : List LogSource}

/-- A slot is passed over when it has no entry or one that is older than the best; else it is the best. -/
theorem newer_cases (best : Option (ℕ × String)) (entry : Slot × ℕ) :
    newer best entry = best ∧ (∀ found, entry.1.next = some found → ∃ other, best = some other ∧
        found.entry.timestamp < other.2) ∨
      ∃ found, entry.1.next = some found ∧ newer best entry = some (entry.2, found.entry.timestamp) ∧
        ∀ other, best = some other → other.2 ≤ found.entry.timestamp := by
  rw [newer]
  cases hnext : entry.1.next with
  | none => exact .inl ⟨rfl, fun _ hfound => nomatch hfound⟩
  | some found =>
    dsimp only
    by_cases hlater : best.any (fun other => decide (found.entry.timestamp < other.2)) = true
    · refine .inl ⟨if_pos hlater, fun found' hfound => ?_⟩
      obtain rfl := Option.some.inj hfound
      obtain ⟨other, hbest, hlt⟩ := (Option.any_eq_true _ _).mp hlater
      exact ⟨other, hbest, of_decide_eq_true hlt⟩
    · refine .inr ⟨found, rfl, if_neg hlater, fun other hbest => not_lt.mp fun hlt => hlater ?_⟩
      rw [hbest]
      exact decide_eq_true hlt

theorem newest_none {slots : List (Slot × ℕ)} {best : Option (ℕ × String)}
    (h : slots.foldl newer best = none) : best = none ∧ ∀ entry ∈ slots, entry.1.next = none := by
  induction slots generalizing best with
  | nil => exact ⟨h, fun _ hmem => nomatch hmem⟩
  | cons entry slots ih =>
    obtain ⟨hbest, hslots⟩ := ih h
    rcases newer_cases best entry with ⟨hsame, hpassed⟩ | ⟨found, hnext, hnewer, -⟩
    · have hnone : best = none := hsame.symm.trans hbest
      refine ⟨hnone, List.forall_mem_cons.mpr ⟨Option.eq_none_iff_forall_ne_some.mpr ?_, hslots⟩⟩
      intro found hfound
      obtain ⟨other, hother, -⟩ := hpassed found hfound
      exact nomatch hother.symm.trans hnone
    · exact nomatch hnewer.symm.trans hbest

/-- What is chosen is one of the entries or what was the best before, and none of these is newer. -/
theorem newest_latest {slots : List (Slot × ℕ)} {best : Option (ℕ × String)} {chosen : ℕ × String}
    (h : slots.foldl newer best = some chosen) :
    (∀ other, best = some other → other.2 ≤ chosen.2) ∧
      (∀ entry ∈ slots, ∀ found, entry.1.next = some found → found.entry.timestamp ≤ chosen.2) ∧
      (best = some chosen ∨ ∃ slot found, (slot, chosen.1) ∈ slots ∧ slot.next = some found ∧
        found.entry.timestamp = chosen.2) := by
  induction slots generalizing best with
  | nil =>
    refine ⟨fun other hother => ?_, fun _ hmem => (nomatch hmem), .inl h⟩
    cases hother.symm.trans h
    exact le_rfl
  | cons entry slots ih =>
    obtain ⟨hbest, hslots, horigin⟩ := ih h
    rcases newer_cases best entry with ⟨hsame, hpassed⟩ | ⟨found, hnext, hnewer, hless⟩
    · rw [hsame] at hbest horigin
      refine ⟨hbest, List.forall_mem_cons.mpr ⟨fun found hfound => ?_, hslots⟩, ?_⟩
      · obtain ⟨other, hother, hlt⟩ := hpassed found hfound
        exact hlt.le.trans (hbest other hother)
      · rcases horigin with hchosen | ⟨slot, found, hmem, hrest⟩
        · exact .inl hchosen
        · exact .inr ⟨slot, found, List.mem_cons_of_mem _ hmem, hrest⟩
    · have hfound := hbest _ hnewer
      refine ⟨fun other hother => (hless other hother).trans hfound,
        List.forall_mem_cons.mpr ⟨fun found' hfound' => ?_, hslots⟩, ?_⟩
      · cases hnext.symm.trans hfound'
        exact hfound
      · rcases horigin with hchosen | ⟨slot, found', hmem, hrest⟩
        · cases hnewer.symm.trans hchosen
          exact .inr ⟨entry.1, found, List.mem_cons_self, hnext, rfl⟩
        · exact .inr ⟨slot, found', List.mem_cons_of_mem _ hmem, hrest⟩

theorem newestIndex_eq_none {slots : List Slot} (h : newestIndex slots = none) :
    ∀ slot ∈ slots, slot.next = none := by
  have hfold := (newest_none (Option.map_eq_none_iff.mp h)).2
  intro slot hmem
  obtain ⟨index, hlt, rfl⟩ := List.getElem_of_mem hmem
  exact hfold (slots[index], index) (List.mem_zipIdx_iff_getElem?.mpr (List.getElem?_eq_getElem hlt))

theorem newestIndex_eq_some {slots : List Slot} {index : ℕ} (h : newestIndex slots = some index) :
    ∃ slot found, slots[index]? = some slot ∧ slot.next = some found := by
  obtain ⟨chosen, hchosen, rfl⟩ := Option.map_eq_some_iff.mp h
  rcases (newest_latest hchosen).2.2 with hnone | ⟨slot, found, hmem, hnext, -⟩
  · exact nomatch hnone
  · exact ⟨slot, found, List.mem_zipIdx_iff_getElem?.mp hmem, hnext⟩

/-- A list around one position. -/
theorem set_split {α : Type} {values : List α} {index : ℕ} {value : α} (h : values[index]? = some value)
    (value' : α) : ∃ before after, values = before ++ value :: after ∧
      values.set index value' = before ++ value' :: after := by
  obtain ⟨hlt, hvalue⟩ := List.getElem?_eq_some_iff.mp h
  refine ⟨values.take index, values.drop (index + 1), ?_, List.set_eq_take_append_cons_drop .. |>.trans ?_⟩
  · rw [← hvalue, List.getElem_cons_drop, List.take_append_drop]
  · rw [if_pos hlt]

theorem turns_pos {slot : Slot} (hmem : slot ∈ scan.slots) (hnext : slot.next ≠ none) :
    0 < scan.turns := by
  have hsome : slot.next.isSome = true := Option.isSome_iff_ne_none.mpr hnext
  obtain ⟨before, after, hsplit⟩ := List.append_of_mem hmem
  rw [PageScan.turns, hsplit]
  simp only [List.map_append, List.map_cons, List.sum_append, List.sum_cons, hsome, if_true]
  omega

/-! ### Listed files -/

/-- A file of the disk: a reader of it can be opened at any offset. -/
def Opens (disk : Disk) (sources : List LogSource) (source name : String) (file : List UInt8) : Prop :=
  ∀ offset modified, offset ≤ file.length →
    openReader disk sources ⟨source, name, offset, modified⟩ = .ok ⟨source, name, file, offset⟩

theorem find?_of_nodup {α : Type} {values : List α} {key : α → String} (h : (values.map key).Nodup)
    {value : α} (hmem : value ∈ values) : values.find? (fun other => key other = key value) = some value := by
  induction values with
  | nil => exact nomatch hmem
  | cons first rest ih =>
    obtain ⟨hfirst, hrest⟩ := List.nodup_cons.mp h
    rcases List.mem_cons.mp hmem with rfl | hmem
    · exact List.find?_cons_of_pos (decide_eq_true rfl)
    · rw [List.find?_cons_of_neg]
      · exact ih hrest hmem
      · intro heq
        exact hfirst (List.mem_map.mpr ⟨value, hmem, (of_decide_eq_true heq).symm⟩)

theorem mem_sourceFiles {source : LogSource} {file : FileCursor} :
    file ∈ sourceFiles disk source ↔ ∃ entry ∈ (disk.readDir source.dir).getD [],
      fileMatches source entry.name = true ∧ entry.isFile = true ∧
      file = ⟨source.name, entry.name, entry.bytes.length, entry.modified⟩ := by
  simp only [sourceFiles, List.mem_filterMap, sourceFile, Option.ite_none_right_eq_some,
    Bool.and_eq_true, Option.some.injEq]
  constructor
  · rintro ⟨entry, hmem, ⟨hmatches, hfile⟩, rfl⟩
    exact ⟨entry, hmem, hmatches, hfile, rfl⟩
  · rintro ⟨entry, hmem, hmatches, hfile, rfl⟩
    exact ⟨entry, hmem, ⟨hmatches, hfile⟩, rfl⟩

theorem distinct_names (disk : Disk) (dir : String) : (((disk.readDir dir).getD []).map DirEntry.name).Nodup := by
  cases hdir : disk.readDir dir with
  | none => exact .nil
  | some entries => exact disk.distinct dir entries hdir

/-- A listed file can be opened at any offset, and is listed at its end. -/
theorem opens_of_listed (hnames : (sources.map LogSource.name).Nodup) {source : LogSource}
    (hsource : source ∈ sources) {file : FileCursor} (hfile : file ∈ sourceFiles disk source) :
    ∃ bytes, Opens disk sources file.rule file.file bytes ∧ file.offset = bytes.length := by
  obtain ⟨entry, hentry, hmatches, hregular, rfl⟩ := mem_sourceFiles.mp hfile
  refine ⟨entry.bytes, fun offset modified hoffset => ?_, rfl⟩
  have hname : ((disk.readDir source.dir).getD []).find? (fun other => other.name = entry.name) = some entry :=
    find?_of_nodup (distinct_names disk source.dir) hentry
  have hsourceName : sources.find? (fun other => other.name = source.name) = some source :=
    find?_of_nodup hnames hsource
  simp only [openReader, hsourceName, hname, hregular, hmatches]
  exact if_neg (by simpa using hoffset)

theorem selectedSources_ok {selected : List LogSource} (h : selectedSources sources query = .ok selected)
    (hnames : (sources.map LogSource.name).Nodup) :
    (∀ source ∈ selected, source ∈ sources) ∧ (selected.map LogSource.name).Nodup := by
  rw [selectedSources] at h
  cases hrule : query.rule with
  | none =>
    rw [hrule] at h
    cases h
    exact ⟨fun _ hmem => hmem, hnames⟩
  | some name =>
    rw [hrule] at h
    dsimp only at h
    cases hfind : sources.find? fun source => source.name = name with
    | none =>
      rw [hfind] at h
      exact nomatch h
    | some source =>
      rw [hfind] at h
      cases h
      refine ⟨fun other hmem => ?_, List.nodup_singleton _⟩
      rw [List.mem_singleton.mp hmem]
      exact List.mem_of_find?_eq_some hfind

/-- What tells the files of all sources apart. -/
def FileCursor.key (file : FileCursor) : String × String := (file.rule, file.file)

/-- The listed files of distinct sources are distinct. -/
theorem listedFiles_ok {files : List FileCursor} (h : listedFiles disk sources query = .ok files)
    (hnames : (sources.map LogSource.name).Nodup) :
    (files.map FileCursor.key).Nodup ∧
      ∀ file ∈ files, ∃ bytes, Opens disk sources file.rule file.file bytes ∧ file.offset = bytes.length := by
  obtain ⟨selected, hselected, h⟩ := Step.except_bind_ok.mp h
  cases h
  obtain ⟨hsub, hdistinct⟩ := selectedSources_ok hselected hnames
  constructor
  · rw [List.map_flatMap, List.nodup_flatMap]
    constructor
    · intro source _
      have hdir := List.pairwise_map.mp (distinct_names disk source.dir)
      rw [List.Nodup, List.pairwise_map, sourceFiles, List.pairwise_filterMap]
      refine hdir.imp ?_
      intro entry other hne file hfile file' hfile' heq
      obtain ⟨-, ⟨⟩⟩ := Option.ite_none_right_eq_some.mp hfile
      obtain ⟨-, ⟨⟩⟩ := Option.ite_none_right_eq_some.mp hfile'
      exact hne (Prod.mk.inj heq).2
    · refine List.Pairwise.imp ?_ (List.pairwise_map.mp hdistinct)
      intro source other hne key hkey hkey'
      obtain ⟨file, hfile, rfl⟩ := List.mem_map.mp hkey
      obtain ⟨file', hfile', heq⟩ := List.mem_map.mp hkey'
      obtain ⟨_, -, -, -, rfl⟩ := mem_sourceFiles.mp hfile
      obtain ⟨_, -, -, -, rfl⟩ := mem_sourceFiles.mp hfile'
      exact hne (Prod.mk.inj heq).1.symm
  · intro file hmem
    obtain ⟨source, hsource, hfile⟩ := List.mem_flatMap.mp hmem
    exact opens_of_listed hnames (hsub source hsource) hfile

/-- Up to the limit, discovery only orders the files. -/
theorem discoverFiles_perm {files : List FileCursor} (h : listedFiles disk sources query = .ok files)
    (hcount : files.length ≤ maxFiles) :
    ∃ ordered, discoverFiles disk sources query = .ok ordered ∧ ordered.Perm files := by
  have hperm := List.mergeSort_perm files fun left right => decide (right.modified ≤ left.modified)
  refine ⟨_, Step.except_bind_ok.mpr ⟨files, h, rfl⟩, ?_⟩
  rw [List.take_of_length_le (hperm.length_eq.trans_le hcount)]
  exact hperm

theorem firstOfDigest_sublist (seen : List String) (visited : List FoundEntry) :
    (firstOfDigest seen visited).Sublist visited := by
  induction visited generalizing seen with
  | nil => exact .slnil
  | cons found visited ih =>
    rw [firstOfDigest]
    split
    · exact (ih seen).cons found
    · exact (ih _).cons_cons found

/-- Entries of distinct digests are all first of theirs. -/
theorem firstOfDigest_eq {seen : List String} {visited : List FoundEntry}
    (hnodup : (visited.map FoundEntry.digest).Nodup) (hseen : ∀ found ∈ visited, found.digest ∉ seen) :
    firstOfDigest seen visited = visited := by
  induction visited generalizing seen with
  | nil => rfl
  | cons found visited ih =>
    obtain ⟨hfirst, hrest⟩ := List.nodup_cons.mp hnodup
    obtain ⟨hnew, hothers⟩ := List.forall_mem_cons.mp hseen
    rw [firstOfDigest, if_neg hnew, ih hrest]
    intro other hmem hin
    rcases List.mem_cons.mp hin with heq | hin
    · exact hfirst (heq ▸ List.mem_map_of_mem hmem)
    · exact hothers other hmem hin

/-! ### The merge -/

section

variable [Libraries]

/-- A slot with these entries still to be visited: the one read ahead first, and after it what the reader
    finds. Without one read ahead there is nothing left, unless the budget ran out. -/
structure Slot.Holds (query : LogQuery) (truncated : Bool) (slot : Slot) (pending : List FoundEntry) :
    Prop where
  walk : Walk query slot.reader.source slot.reader.name slot.reader.file (cursorFile slot).offset pending
  within : (cursorFile slot).offset ≤ slot.reader.file.length
  ahead : ∀ found, slot.next = some found → ∃ rest, pending = found :: rest ∧
    Walk query slot.reader.source slot.reader.name slot.reader.file slot.reader.offset rest ∧
    slot.reader.offset < found.stop
  exhausted : slot.next = none → truncated = false → pending = []

theorem Slot.Holds.mono {truncated truncated' : Bool} {slot : Slot} {pending : List FoundEntry}
    (h : slot.Holds query truncated pending) (htruncated : truncated = true → truncated' = true) :
    slot.Holds query truncated' pending := by
  refine ⟨h.walk, h.within, h.ahead, fun hnone hfalse => h.exhausted hnone ?_⟩
  cases truncated with
  | false => rfl
  | true => exact absurd (htruncated rfl) (by rw [hfalse]; exact Bool.false_ne_true)

/-- The slot that a search leaves holds what was before the search, and its cursor does not go forward. -/
theorem nextEntry_holds {reader : FileReader} {pending : List FoundEntry}
    (hwalk : Walk query reader.source reader.name reader.file reader.offset pending)
    (hwithin : reader.offset ≤ reader.file.length) (state : ScanState) :
    ∃ slot state', nextEntry reader query state = .ok (slot.next, slot.reader, state') ∧
      (state.truncated = true → state'.truncated = true) ∧ slot.Holds query state'.truncated pending ∧
      (slot.reader.source = reader.source ∧ slot.reader.name = reader.name ∧
        slot.reader.file = reader.file) ∧
      (cursorFile slot).offset ≤ reader.offset ∧
      (slot.next = none → reader.offset ≠ 0 → lineCost ≤ state.remaining →
        (cursorFile slot).offset < reader.offset) ∧
      slot.reader.offset + (if slot.next.isSome then 1 else 0) ≤ reader.offset := by
  obtain ⟨found, next, state', hsearch, hadvanced⟩ := nextEntryFrom_advances hwalk hwithin _ le_rfl state
  refine ⟨⟨⟨reader.source, reader.name, reader.file, next⟩, found⟩, state', hsearch, ?_⟩
  cases hadvanced with
  | found heq hfirst hrest hlt hstop htruncated =>
    subst heq
    refine ⟨fun h => htruncated.trans h, ⟨hfirst, hstop.trans hwithin, ?_, fun h => nomatch h⟩,
      ⟨rfl, rfl, rfl⟩, hstop, fun h => (nomatch h), hlt.trans_le hstop⟩
    rintro _ ⟨⟩
    exact ⟨_, rfl, hrest, hlt⟩
  | finished heq htruncated =>
    subst heq
    exact ⟨fun h => htruncated.trans h, ⟨.finished, Nat.zero_le _, fun _ h => (nomatch h), fun _ _ => rfl⟩,
      ⟨rfl, rfl, rfl⟩, Nat.zero_le _, fun _ hpos _ => Nat.pos_of_ne_zero hpos, Nat.zero_le _⟩
  | budget hrest hle hprogress htruncated =>
    refine ⟨fun _ => htruncated, ⟨hrest, hle.trans hwithin, fun _ h => (nomatch h), ?_⟩,
      ⟨rfl, rfl, rfl⟩, hle, fun _ _ hbudget => hprogress hbudget, hle⟩
    intro _ hfalse
    exact nomatch hfalse.symm.trans htruncated

/-- How far the cursors of slots are from the beginning of their files. -/
def cursorOffsets (held : List (Slot × List FoundEntry)) : ℕ :=
  (held.map fun entry => (cursorFile entry.1).offset).sum

/-- Files that are read ahead, with what is still to be visited of each; `P` is what is known of them. -/
def AllHold (query : LogQuery) (P : String → String → List UInt8 → Prop) (truncated : Bool)
    (held : List (Slot × List FoundEntry)) : Prop :=
  ∀ entry ∈ held, entry.1.Holds query truncated entry.2 ∧
    P entry.1.reader.source entry.1.reader.name entry.1.reader.file

variable {P : String → String → List UInt8 → Prop}

theorem nextEntries_hold (given : List (FileReader × List FoundEntry))
    (h : ∀ entry ∈ given, Walk query entry.1.source entry.1.name entry.1.file entry.1.offset entry.2 ∧
      entry.1.offset ≤ entry.1.file.length ∧ P entry.1.source entry.1.name entry.1.file)
    (state : ScanState) :
    ∃ held state', nextEntries query (given.map Prod.fst) state = .ok (held.map Prod.fst, state') ∧
      (state.truncated = true → state'.truncated = true) ∧ AllHold query P state'.truncated held ∧
      held.map Prod.snd = given.map Prod.snd ∧
      cursorOffsets held ≤ (given.map fun entry => entry.1.offset).sum ∧
      (lineCost ≤ state.remaining → state.truncated = false → state'.truncated = true →
        (∀ entry ∈ held, entry.1.next = none) →
        cursorOffsets held < (given.map fun entry => entry.1.offset).sum) := by
  induction given generalizing state with
  | nil =>
    refine ⟨[], state, rfl, id, fun _ hmem => (nomatch hmem), rfl, le_rfl, ?_⟩
    intro _ hfalse htrue
    exact nomatch hfalse.symm.trans htrue
  | cons entry given ih =>
    obtain ⟨reader, pending⟩ := entry
    obtain ⟨⟨hwalk, hwithin, hP⟩, hgiven⟩ := List.forall_mem_cons.mp h
    obtain ⟨slot, state₁, hsearch, hmono, hholds, ⟨hsource, hname, hfile⟩, hle, hprogress, -⟩ :=
      nextEntry_holds hwalk hwithin state
    obtain ⟨held, state', hrest, hmono', hall, hpending, hsum, hdown⟩ := ih hgiven state₁
    refine ⟨(slot, pending) :: held, state', ?_, fun h => hmono' (hmono h), ?_, ?_, ?_, ?_⟩
    · rw [List.map_cons, nextEntries, hsearch]
      simp only [bind, Except.bind, hrest, List.map_cons]
    · refine List.forall_mem_cons.mpr ⟨⟨hholds.mono hmono', ?_⟩, hall⟩
      rw [hsource, hname, hfile]
      exact hP
    · rw [List.map_cons, List.map_cons, hpending]
    · rw [cursorOffsets, List.map_cons, List.map_cons, List.sum_cons, List.sum_cons]
      exact Nat.add_le_add hle hsum
    · intro hbudget hfalse htrue hnone
      obtain ⟨hfirst, hothers⟩ := List.forall_mem_cons.mp hnone
      rw [cursorOffsets, List.map_cons, List.map_cons, List.sum_cons, List.sum_cons]
      by_cases hzero : reader.offset = 0
      · -- an exhausted file costs nothing, so the budget is still there for the others
        have hsame : state₁ = state := by
          rw [nextEntry, hzero] at hsearch
          exact (Prod.mk.inj (Prod.mk.inj (Except.ok.inj hsearch)).2).2.symm
        have := hdown (hsame ▸ hbudget) (hsame ▸ hfalse) htrue hothers
        exact Nat.add_lt_add_of_le_of_lt hle this
      · exact Nat.add_lt_add_of_lt_of_le (hprogress hfirst hzero hbudget) hsum

/-! ### Opened readers -/

/-- A cursor into a file with these entries before it. -/
def Ready (disk : Disk) (sources : List LogSource) (query : LogQuery) (cursor : FileCursor)
    (entries : List FoundEntry) : Prop :=
  ∃ file, Opens disk sources cursor.rule cursor.file file ∧ cursor.offset ≤ file.length ∧
    Walk query cursor.rule cursor.file file cursor.offset entries

theorem openReaders (given : List (FileCursor × List FoundEntry))
    (h : ∀ entry ∈ given, Ready disk sources query entry.1 entry.2) :
    ∃ opened : List (FileReader × List FoundEntry),
      (given.map Prod.fst).mapM (openReader disk sources) = .ok (opened.map Prod.fst) ∧
      (∀ entry ∈ opened, Walk query entry.1.source entry.1.name entry.1.file entry.1.offset entry.2 ∧
        entry.1.offset ≤ entry.1.file.length ∧
        Opens disk sources entry.1.source entry.1.name entry.1.file) ∧
      opened.map Prod.snd = given.map Prod.snd ∧
      (opened.map fun entry => entry.1.offset) = given.map fun entry => entry.1.offset := by
  induction given with
  | nil => exact ⟨[], rfl, fun _ hmem => (nomatch hmem), rfl, rfl⟩
  | cons entry given ih =>
    obtain ⟨cursor, entries⟩ := entry
    obtain ⟨⟨file, hopens, hwithin, hwalk⟩, hgiven⟩ := List.forall_mem_cons.mp h
    obtain ⟨opened, hopened, hall, hsnd, hoffsets⟩ := ih hgiven
    refine ⟨(⟨cursor.rule, cursor.file, file, cursor.offset⟩, entries) :: opened, ?_, ?_, ?_, ?_⟩
    · rw [List.map_cons, List.mapM_cons]
      refine Step.except_bind_ok.mpr ⟨_, hopens cursor.offset cursor.modified hwithin, ?_⟩
      exact Step.except_bind_ok.mpr ⟨_, hopened, rfl⟩
    · exact List.forall_mem_cons.mpr ⟨⟨hwalk, hwithin, hopens⟩, hall⟩
    · rw [List.map_cons, List.map_cons, hsnd]
    · rw [List.map_cons, List.map_cons, hoffsets]

theorem Ready.with_cursor {cursor : FileCursor} {entries : List FoundEntry}
    (h : Ready disk sources query cursor entries) (token : Option String) :
    Ready disk sources { query with cursor := token } cursor entries := by
  obtain ⟨file, hopens, hwithin, hwalk⟩ := h
  exact ⟨file, hopens, hwithin, hwalk.with_cursor token⟩

/-- The entries of distinct files stand at distinct positions. -/
theorem positions_nodup {files : List FileCursor} {found : FileCursor → List FoundEntry}
    (hkeys : (files.map FileCursor.key).Nodup)
    (h : ∀ file ∈ files, Ready disk sources query file (found file)) :
    ((files.flatMap found).map FoundEntry.position).Nodup := by
  have hstarts : ∀ file ∈ files, (∀ entry ∈ found file, (entry.rule, entry.file) = file.key) ∧
      ((found file).map FoundEntry.start).Nodup := by
    intro file hmem
    obtain ⟨bytes, -, hwithin, hwalk⟩ := h file hmem
    obtain ⟨hall, hnodup⟩ := hwalk.starts hwithin
    refine ⟨fun entry hentry => ?_, hnodup⟩
    obtain ⟨hrule, hfile, -⟩ := hall entry hentry
    rw [hrule, hfile]
    rfl
  rw [List.map_flatMap, List.nodup_flatMap]
  constructor
  · intro file hmem
    refine List.Nodup.of_map (fun position => position.2.2) ?_
    rw [List.map_map]
    exact (hstarts file hmem).2
  · refine List.Pairwise.imp_of_mem ?_ (List.pairwise_map.mp hkeys)
    intro file other hmem hother hne position hposition hposition'
    obtain ⟨entry, hentry, rfl⟩ := List.mem_map.mp hposition
    obtain ⟨entry', hentry', heq⟩ := List.mem_map.mp hposition'
    refine hne ?_
    rw [← (hstarts file hmem).1 entry hentry, ← (hstarts other hother).1 entry' hentry']
    exact congrArg (fun position : String × String × ℕ => (position.1, position.2.1)) heq.symm

/-- A listed file that can be read alone is ready to be paged. -/
theorem ready_of_readFile {file : FileCursor} {entries : List FoundEntry} {bytes : List UInt8}
    (hopens : Opens disk sources file.rule file.file bytes) (hoffset : file.offset = bytes.length)
    (h : readFile disk sources query file = .ok entries) : Ready disk sources query file entries := by
  refine ⟨bytes, hopens, hoffset.le, ?_⟩
  rw [readFile] at h
  obtain ⟨reader, hreader, h⟩ := Step.except_bind_ok.mp h
  cases (hopens file.offset file.modified hoffset.le).symm.trans hreader
  exact Walk.of_readAllFrom hoffset.le le_rfl h

/-! ### Filling a page -/

variable [CursorCodec]

omit [Libraries] in
theorem position_of_cursor (hcodec : RoundTrips) (found : FoundEntry) :
    ∃ id, entryCursor found = .ok id ∧
      LogEntry.position { found.entry with id } = some found.position := by
  obtain ⟨id, hseal, hopen⟩ := hcodec (.entry ⟨1, "", found.rule, found.file, found.start, found.digest⟩)
  refine ⟨id, hseal, ?_⟩
  rw [LogEntry.position, hopen]
  rfl

/-- From one scan to a later one: entries that were visited, and the others still pending. What is emitted of
    the visited ones and of any that may follow are the first of each digest. -/
structure Visits (query : LogQuery) (P : String → String → List UInt8 → Prop) (scan : PageScan)
    (held : List (Slot × List FoundEntry)) (visited : List FoundEntry) (scan' : PageScan)
    (held' : List (Slot × List FoundEntry)) : Prop where
  slots : scan'.slots = held'.map Prod.fst
  hold : AllHold query P scan'.state.truncated held'
  perm : (visited ++ held'.flatMap Prod.snd).Perm (held.flatMap Prod.snd)
  emitted : ∀ later, scan'.entries.map LogEntry.position ++
      (firstOfDigest scan'.seen later).map (some ∘ FoundEntry.position) =
    scan.entries.map LogEntry.position ++
      (firstOfDigest scan.seen (visited ++ later)).map (some ∘ FoundEntry.position)
  offsets : cursorOffsets held' ≤ cursorOffsets held

theorem Visits.refl {held : List (Slot × List FoundEntry)} (hslots : scan.slots = held.map Prod.fst)
    (h : AllHold query P scan.state.truncated held) :
    Visits query P scan held [] scan held :=
  ⟨hslots, h, .refl _, fun _ => rfl, le_rfl⟩

theorem Visits.trans {scan₁ scan₂ scan₃ : PageScan} {held₁ held₂ held₃ : List (Slot × List FoundEntry)}
    {visited visited' : List FoundEntry} (h : Visits query P scan₁ held₁ visited scan₂ held₂)
    (h' : Visits query P scan₂ held₂ visited' scan₃ held₃) :
    Visits query P scan₁ held₁ (visited ++ visited') scan₃ held₃ := by
  refine ⟨h'.slots, h'.hold, ?_, fun later => ?_, h'.offsets.trans h.offsets⟩
  · rw [List.append_assoc]
    exact (h'.perm.append_left visited).trans h.perm
  · rw [h'.emitted later, h.emitted (visited' ++ later), List.append_assoc]

omit [Libraries] in
theorem keep_slots {scan scan' : PageScan} {found : FoundEntry}
    (h : scan.keep found = .ok scan') : scan'.slots = scan.slots ∧ scan'.state = scan.state := by
  rw [PageScan.keep] at h
  split at h
  · cases h
    exact ⟨rfl, rfl⟩
  · obtain ⟨id, -, hscan⟩ := Step.except_bind_ok.mp h
    cases hscan
    exact ⟨rfl, rfl⟩

omit [Libraries] in
/-- A visited entry is kept when it is the first of its digest. -/
theorem keep_spec (hcodec : RoundTrips) (scan : PageScan) (found : FoundEntry) :
    ∃ entries seen, scan.keep found = .ok { scan with entries, seen } ∧
      ∀ later, entries.map LogEntry.position ++
          (firstOfDigest seen later).map (some ∘ FoundEntry.position) =
        scan.entries.map LogEntry.position ++
          (firstOfDigest scan.seen (found :: later)).map (some ∘ FoundEntry.position) := by
  by_cases hseen : found.digest ∈ scan.seen
  · refine ⟨scan.entries, scan.seen, by rw [PageScan.keep, if_pos hseen], fun later => ?_⟩
    rw [firstOfDigest, if_pos hseen]
  · obtain ⟨id, hid, hposition⟩ := position_of_cursor hcodec found
    refine ⟨scan.entries ++ [{ found.entry with id }], found.digest :: scan.seen, ?_, fun later => ?_⟩
    · rw [PageScan.keep, if_neg hseen, hid]
      rfl
    · rw [firstOfDigest, if_neg hseen, List.map_append, List.map_singleton, hposition, List.map_cons,
        List.append_assoc]
      rfl

/-- One turn of the merge loop visits the entry it takes. -/
theorem turn_visits (hcodec : RoundTrips) {held : List (Slot × List FoundEntry)}
    (hslots : scan.slots = held.map Prod.fst) (h : AllHold query P scan.state.truncated held) {index : ℕ}
    {slot : Slot} {found : FoundEntry} (hslot : scan.slots[index]? = some slot)
    (hfound : slot.next = some found) :
    ∃ entries seen next reader state held', scan.keep found = .ok { scan with entries, seen } ∧
      nextEntry slot.reader query scan.state = .ok (next, reader, state) ∧
      cursorOffsets held' < cursorOffsets held ∧
      PageScan.turns { slots := scan.slots.set index ⟨reader, next⟩, state, entries, seen } < scan.turns ∧
      Visits query P scan held [found]
        { slots := scan.slots.set index ⟨reader, next⟩, state, entries, seen } held' := by
  rw [hslots, List.getElem?_map] at hslot
  obtain ⟨⟨taken, pending⟩, hentry, heq⟩ := Option.map_eq_some_iff.mp hslot
  obtain rfl : taken = slot := heq
  obtain ⟨hholds, hP⟩ := h _ (List.mem_of_getElem? hentry)
  obtain ⟨rest, rfl, hwalk, hlt⟩ := hholds.ahead found hfound
  have hcursor : (cursorFile taken).offset = found.stop := by
    rw [cursorFile, hfound]
    rfl
  have hwithin : taken.reader.offset ≤ taken.reader.file.length :=
    (hlt.trans_eq hcursor.symm).le.trans hholds.within
  obtain ⟨entries, seen, hkeep, hemitted⟩ := keep_spec hcodec scan found
  obtain ⟨next', state, hsearch, hmono, hholds', ⟨hsource, hname, hfile⟩, hle, -, hturn⟩ :=
    nextEntry_holds hwalk hwithin scan.state
  obtain ⟨before, after, hsplit, hset⟩ := set_split hentry (next', rest)
  have hless : cursorOffsets (held.set index (next', rest)) < cursorOffsets held := by
    have hback : (cursorFile next').offset < (cursorFile taken).offset :=
      (hle.trans_lt hlt).trans_eq hcursor.symm
    rw [hset, hsplit, cursorOffsets, cursorOffsets]
    simp only [List.map_append, List.map_cons, List.sum_append, List.sum_cons]
    omega
  have hturns : PageScan.turns ⟨scan.slots.set index next', state, entries, seen⟩ < scan.turns := by
    have hnext : taken.next.isSome = true := Option.isSome_iff_exists.mpr ⟨found, hfound⟩
    have hback : next'.reader.offset + (if next'.next.isSome then 1 else 0) ≤ taken.reader.offset := hturn
    rw [PageScan.turns, PageScan.turns, hslots]
    change (((held.map Prod.fst).set index (next', rest).1).map _).sum < _
    rw [← List.map_set, hset, hsplit]
    simp only [List.map_append, List.map_cons, List.sum_append, List.sum_cons, hnext, if_true]
    omega
  refine ⟨entries, seen, next'.next, next'.reader, state, held.set index (next', rest), hkeep, hsearch,
    hless, hturns, ?_, ?_, ?_, hemitted, hless.le⟩
  · rw [hslots, List.map_set]
  · intro entry hmem
    rcases List.mem_or_eq_of_mem_set hmem with hmem | rfl
    · exact ⟨(h entry hmem).1.mono hmono, (h entry hmem).2⟩
    · refine ⟨hholds', ?_⟩
      rw [hsource, hname, hfile]
      exact hP
  · rw [hset, hsplit]
    simp only [List.flatMap_append, List.flatMap_cons, List.cons_append, List.nil_append]
    exact List.perm_middle.symm

/-- Where the merge loop ends: the page is full, nothing is read ahead or the budget has run out. -/
def PageScan.Ended (limit : ℕ) (scan : PageScan) : Prop :=
  limit ≤ scan.entries.length ∨ (∀ slot ∈ scan.slots, slot.next = none) ∨ scan.state.truncated = true

/-- The merge loop visits entries and leaves the others pending. With as many turns as there may be, it is not
    for lack of turns that it ends. -/
theorem fillFrom_visits (hcodec : RoundTrips) (limit fuel : ℕ) (scan : PageScan)
    (held : List (Slot × List FoundEntry)) (hslots : scan.slots = held.map Prod.fst)
    (h : AllHold query P scan.state.truncated held) :
    ∃ scan' held' visited, PageScan.fillFrom query limit fuel scan = .ok scan' ∧
      Visits query P scan held visited scan' held' ∧
      (0 < fuel → scan.entries.length < limit → (∃ entry ∈ held, entry.1.next ≠ none) →
        cursorOffsets held' < cursorOffsets held) ∧
      (scan.turns ≤ fuel → scan'.Ended limit) := by
  induction fuel generalizing scan held with
  | zero =>
    refine ⟨scan, held, [], rfl, .refl hslots h, fun hpos => absurd hpos (Nat.lt_irrefl 0), fun hturns => ?_⟩
    refine .inr (.inl fun slot hmem => ?_)
    by_contra hnext
    exact absurd (turns_pos hmem hnext) (by omega)
  | succ fuel ih =>
    rw [PageScan.fillFrom]
    by_cases hlimit : scan.entries.length < limit
    · rw [if_pos hlimit]
      cases hnewest : newestIndex scan.slots with
      | none =>
        refine ⟨scan, held, [], rfl, .refl hslots h, fun _ _ ⟨entry, hmem, hnext⟩ => ?_,
          fun _ => .inr (.inl (newestIndex_eq_none hnewest))⟩
        refine absurd (newestIndex_eq_none hnewest entry.1 ?_) hnext
        rw [hslots]
        exact List.mem_map_of_mem hmem
      | some index =>
        obtain ⟨slot, found, hslot, hfound⟩ := newestIndex_eq_some hnewest
        obtain ⟨entries, seen, next, reader, state, held₁, hkeep, hsearch, hless, hturns, hturn⟩ :=
          turn_visits hcodec hslots h hslot hfound
        simp only [hslot, hfound, hkeep, bind, Except.bind, hsearch]
        split
        next htruncated =>
          exact ⟨_, held₁, [found], rfl, hturn, fun _ _ _ => hless, fun _ => .inr (.inr htruncated)⟩
        next =>
          obtain ⟨scan', held', visited, hfill, hvisits, -, hended⟩ := ih _ held₁ hturn.slots hturn.hold
          exact ⟨scan', held', [found] ++ visited, hfill, hturn.trans hvisits,
            fun _ _ _ => hvisits.offsets.trans_lt hless, fun hfuel => hended (by omega)⟩
    · rw [if_neg hlimit]
      exact ⟨scan, held, [], rfl, .refl hslots h, fun _ h => absurd h hlimit,
        fun _ => .inl (not_lt.mp hlimit)⟩

theorem fillFrom_idle {limit fuel : ℕ} (h : ∀ slot ∈ scan.slots, slot.next = none) :
    PageScan.fillFrom query limit fuel scan = .ok scan := by
  cases fuel with
  | zero => rfl
  | succ fuel =>
    rw [PageScan.fillFrom]
    split
    · cases hnewest : newestIndex scan.slots with
      | none => rfl
      | some index =>
        obtain ⟨slot, found, hslot, hfound⟩ := newestIndex_eq_some hnewest
        exact nomatch hfound.symm.trans (h slot (List.mem_of_getElem? hslot))
    · rfl

/-! ### One page -/

/-- How far cursors are from the beginning of their files. -/
def totalOffset (given : List (FileCursor × List FoundEntry)) : ℕ :=
  (given.map fun entry => entry.1.offset).sum

/-- A cursor is sealed for the files of all slots. -/
theorem nextCursor_some {slots : List Slot} {truncated : Bool} {token : String}
    (h : nextCursor query slots truncated = .ok (some token)) :
    slots ≠ [] ∧ CursorCodec.sealValue (.page ⟨1, query.filterKey, slots.map cursorFile⟩) = .ok token := by
  rw [nextCursor] at h
  split at h
  next => exact nomatch h
  next hopen =>
    obtain ⟨_, hseal, hsome⟩ := Step.except_bind_ok.mp h
    cases hsome
    refine ⟨?_, hseal⟩
    rintro rfl
    exact hopen rfl

/-- A page that was read is empty for want of sources, or what its merge loop left. -/
theorem readPage_cases {limit : ℕ} {page : LogPage} (h : readPage disk sources query limit = .ok page) :
    page = emptyPage (sources.map LogSource.name) ∨ ∃ files readers slots state scan,
      cursorFiles disk sources query = .ok files ∧ files.mapM (openReader disk sources) = .ok readers ∧
      nextEntries query readers ⟨scanBytes, false⟩ = .ok (slots, state) ∧
      PageScan.fill query limit ⟨slots, state, [], []⟩ = .ok scan ∧
      nextCursor query scan.slots scan.state.truncated = .ok page.nextCursor ∧
      page.items = scan.entries ∧ page.truncated = scan.state.truncated := by
  rw [readPage] at h
  split at h
  next =>
    cases h
    exact .inl rfl
  next =>
    obtain ⟨files, hfiles, h⟩ := Step.except_bind_ok.mp h
    obtain ⟨readers, hreaders, h⟩ := Step.except_bind_ok.mp h
    obtain ⟨⟨slots, state⟩, hslots, h⟩ := Step.except_bind_ok.mp h
    obtain ⟨scan, hscan, h⟩ := Step.except_bind_ok.mp h
    obtain ⟨cursor, hcursor, h⟩ := Step.except_bind_ok.mp h
    cases h
    exact .inr ⟨files, readers, slots, state, scan, hfiles, hreaders, hslots, hscan, hcursor, rfl, rfl⟩

/-- A page visits entries that were pending and leaves the others to the next page, which starts at smaller
    offsets; without a next page there are no others. -/
theorem readPage_visits (hcodec : RoundTrips) (hsources : sources ≠ []) {limit : ℕ} (hlimit : 1 ≤ limit)
    (given : List (FileCursor × List FoundEntry))
    (hfiles : cursorFiles disk sources query = .ok (given.map Prod.fst))
    (h : ∀ entry ∈ given, Ready disk sources query entry.1 entry.2) :
    ∃ page visited, readPage disk sources query limit = .ok page ∧
      page.items.map LogEntry.position = (firstOfDigest [] visited).map (some ∘ FoundEntry.position) ∧
      (page.nextCursor = none ∧ visited.Perm (given.flatMap Prod.snd) ∨
        ∃ token given', page.nextCursor = some token ∧
          CursorCodec.openToken token = .ok (.page ⟨1, query.filterKey, given'.map Prod.fst⟩) ∧
          (∀ entry ∈ given', Ready disk sources query entry.1 entry.2) ∧
          (visited ++ given'.flatMap Prod.snd).Perm (given.flatMap Prod.snd) ∧
          totalOffset given' < totalOffset given) := by
  obtain ⟨opened, hopened, hall, hsnd, hoffsets⟩ := openReaders given h
  obtain ⟨held, state, hnext, -, hhold, hpending, hle, hprogress⟩ :=
    nextEntries_hold opened hall ⟨scanBytes, false⟩
  obtain ⟨scan, held', visited, hfill, hvisits, hless, -⟩ := fillFrom_visits hcodec limit
    (PageScan.turns ⟨held.map Prod.fst, state, [], []⟩) ⟨held.map Prod.fst, state, [], []⟩ held rfl hhold
  have hemitted := hvisits.emitted []
  rw [firstOfDigest, List.map_nil, List.append_nil, List.append_nil, List.map_nil, List.nil_append] at hemitted
  have hflat : held.flatMap Prod.snd = given.flatMap Prod.snd := by
    rw [List.flatMap_def, List.flatMap_def, hpending, hsnd]
  rw [hoffsets] at hle hprogress
  have hperm := hvisits.perm
  rw [hflat] at hperm
  -- the page as it is read, up to its cursor
  have hread : ∀ {cursor : Option String}, nextCursor query scan.slots scan.state.truncated = .ok cursor →
      readPage disk sources query limit =
        .ok ⟨scan.entries, sources.map LogSource.name, cursor, scan.state.truncated, true⟩ := by
    intro cursor hcursor
    rw [readPage, if_neg (by simpa using hsources), hfiles]
    simp only [bind, Except.bind, hopened, hnext, PageScan.fill, hfill, hcursor]
  by_cases hdone : (scan.slots.isEmpty ||
      (!scan.state.truncated && scan.slots.all fun slot => slot.next.isNone)) = true
  · refine ⟨_, visited, hread (by rw [nextCursor, if_pos hdone]), hemitted, .inl ⟨rfl, ?_⟩⟩
    have hempty : held'.flatMap Prod.snd = [] := by
      rw [List.flatMap_eq_nil_iff]
      intro entry hmem
      have hslot : entry.1 ∈ scan.slots := by
        rw [hvisits.slots]
        exact List.mem_map_of_mem hmem
      rcases Bool.or_eq_true_iff.mp hdone with hnil | hnone
      · rw [List.isEmpty_iff.mp hnil] at hslot
        exact nomatch hslot
      · obtain ⟨htruncated, hnone⟩ := Bool.and_eq_true_iff.mp hnone
        refine (hvisits.hold entry hmem).1.exhausted ?_ (by simpa using htruncated)
        exact Option.isNone_iff_eq_none.mp (List.all_eq_true.mp hnone entry.1 hslot)
    rwa [hempty, List.append_nil] at hperm
  · obtain ⟨token, hseal, hopen⟩ := hcodec (.page ⟨1, query.filterKey, scan.slots.map cursorFile⟩)
    have hcursor : nextCursor query scan.slots scan.state.truncated = .ok (some token) := by
      rw [nextCursor, if_neg hdone, hseal]
      rfl
    refine ⟨_, visited, hread hcursor, hemitted, .inr
      ⟨token, held'.map fun entry => (cursorFile entry.1, entry.2), rfl, ?_, ?_, ?_, ?_⟩⟩
    · rw [hopen, hvisits.slots, List.map_map, List.map_map]
      rfl
    · intro entry hmem
      obtain ⟨⟨slot, pending⟩, hslot, rfl⟩ := List.mem_map.mp hmem
      obtain ⟨hholds, hopens⟩ := hvisits.hold _ hslot
      exact ⟨slot.reader.file, hopens, hholds.within, hholds.walk⟩
    · rwa [List.flatMap_map]
    · have htotal : totalOffset (held'.map fun entry => (cursorFile entry.1, entry.2)) =
          cursorOffsets held' := by
        rw [totalOffset, cursorOffsets, List.map_map]
        rfl
      rw [htotal]
      by_cases hahead : ∃ entry ∈ held, entry.1.next ≠ none
      · obtain ⟨entry, hmem, hsome⟩ := hahead
        exact (hless (turns_pos (List.mem_map_of_mem hmem) hsome) hlimit ⟨entry, hmem, hsome⟩).trans_le hle
      · -- nothing was read ahead: the budget ran out, and the first unfinished file used some of it
        have hnone : ∀ entry ∈ held, entry.1.next = none := fun entry hmem =>
          not_not.mp fun hsome => hahead ⟨entry, hmem, hsome⟩
        have hidle : ∀ slot ∈ held.map Prod.fst, slot.next = none := by
          intro slot hmem
          obtain ⟨entry, hentry, rfl⟩ := List.mem_map.mp hmem
          exact hnone entry hentry
        cases (fillFrom_idle hidle).symm.trans hfill
        have hall : ((held.map Prod.fst).all fun slot => slot.next.isNone) = true :=
          List.all_eq_true.mpr fun slot hmem => Option.isNone_iff_eq_none.mpr (hidle slot hmem)
        have htruncated : state.truncated = true := by
          by_contra hfalse
          refine hdone (Bool.or_eq_true_iff.mpr (.inr (Bool.and_eq_true_iff.mpr ⟨?_, hall⟩)))
          simpa using hfalse
        exact hvisits.offsets.trans_lt (hprogress (by decide) rfl htruncated hnone)

/-! ### All pages -/

/-- A page emits, of the entries it visits, the first of each digest. -/
def Emits (page : LogPage) (visited : List FoundEntry) : Prop :=
  page.items.map LogEntry.position = (firstOfDigest [] visited).map (some ∘ FoundEntry.position)

/-- From any cursors, the pages come to an end and visit what was pending, each entry once. -/
theorem pages_from (hcodec : RoundTrips) (hsources : sources ≠ []) {limits : ℕ → ℕ}
    (hlimits : ∀ n, 1 ≤ limits n) (given : List (FileCursor × List FoundEntry)) (n : ℕ)
    (cursor : Option String)
    (hfiles : cursorFiles disk sources { query with cursor } = .ok (given.map Prod.fst))
    (h : ∀ entry ∈ given, Ready disk sources query entry.1 entry.2) :
    ∃ pages visits, Pages disk sources query limits n cursor pages ∧ List.Forall₂ Emits pages visits ∧
      visits.flatten.Perm (given.flatMap Prod.snd) := by
  -- the offsets of the cursors become smaller from page to page
  induction htotal : totalOffset given using Nat.strong_induction_on generalizing given n cursor with
  | _ total ih =>
    obtain ⟨page, visited, hread, hemits, hcursor⟩ := readPage_visits hcodec hsources (hlimits n) given hfiles
      fun entry hmem => (h entry hmem).with_cursor cursor
    rcases hcursor with ⟨hlast, hperm⟩ | ⟨token, given', hnext, hopen, hready, hperm, hless⟩
    · refine ⟨[page], [visited], .last hread hlast, .cons hemits .nil, ?_⟩
      rwa [List.flatten_cons, List.flatten_nil, List.append_nil]
    · have hfiles' : cursorFiles disk sources { query with cursor := some token } =
          .ok (given'.map Prod.fst) := by
        change cursorPage token { query with cursor := some token } = _
        rw [cursorPage, hopen]
        exact if_neg (by simp [LogQuery.filterKey])
      obtain ⟨pages, visits, hpages, hall, hrest⟩ := ih _ (htotal ▸ hless) given' (n + 1) (some token)
        hfiles' (fun entry hmem => (hready entry hmem).with_cursor query.cursor) rfl
      refine ⟨page :: pages, visited :: visits, .more hread hnext hpages, .cons hemits hall, ?_⟩
      rw [List.flatten_cons]
      exact (hrest.append_left visited).trans hperm

/-! ### What is emitted -/

omit [Libraries] in
/-- The positions the pages emit, among those of the visited entries. -/
theorem emitted_sublist {pages : List LogPage} {visits : List (List FoundEntry)}
    (h : List.Forall₂ Emits pages visits) :
    (pages.flatMap fun page => page.items.map LogEntry.position).Sublist
      (visits.flatten.map (some ∘ FoundEntry.position)) := by
  induction h with
  | nil => exact .slnil
  | cons hemits _ ih =>
    rw [List.flatMap_cons, List.flatten_cons, List.map_append, hemits]
    exact ((firstOfDigest_sublist _ _).map _).append ih

omit [Libraries] in
theorem emitted_eq {pages : List LogPage} {visits : List (List FoundEntry)}
    (h : List.Forall₂ Emits pages visits) (hnodup : (visits.flatten.map FoundEntry.digest).Nodup) :
    (pages.flatMap fun page => page.items.map LogEntry.position) =
      visits.flatten.map (some ∘ FoundEntry.position) := by
  induction h with
  | nil => rfl
  | cons hemits _ ih =>
    rw [List.flatten_cons, List.map_append] at hnodup
    rw [List.flatMap_cons, List.flatten_cons, List.map_append, hemits, ih hnodup.of_append_right,
      firstOfDigest_eq hnodup.of_append_left fun _ _ => List.not_mem_nil]

end

/-- Reading page after page comes to an end, with each entry that reading every file alone finds visited on
    exactly one page. A page emits what it visits, except for the lines of a digest it has already emitted, so
    that no position is emitted twice, and with distinct digests exactly the positions of all entries are. -/
theorem pages_visit_every_entry_once [Libraries] [CursorCodec] (hcodec : RoundTrips) {disk : Disk}
    {sources : List LogSource} (hnames : (sources.map LogSource.name).Nodup) {query : LogQuery}
    {files : List FileCursor} (hfiles : listedFiles disk sources query = .ok files)
    (hcount : files.length ≤ maxFiles) {found : FileCursor → List FoundEntry}
    (hfound : ∀ file ∈ files, readFile disk sources query file = .ok (found file))
    {limits : ℕ → ℕ} (hlimits : ∀ n, 1 ≤ limits n) :
    ∃ pages visits, Pages disk sources query limits 0 none pages ∧
      (pages.flatMap fun page => page.items.map LogEntry.position).Nodup ∧
      List.Forall₂ Emits pages visits ∧ visits.flatten.Perm (files.flatMap found) ∧
      (((files.flatMap found).map FoundEntry.digest).Nodup →
        (pages.flatMap fun page => page.items.map LogEntry.position).Perm
          ((files.flatMap found).map (some ∘ FoundEntry.position))) := by
  obtain ⟨hkeys, hopens⟩ := listedFiles_ok hfiles hnames
  have hready : ∀ file ∈ files, Ready disk sources query file (found file) := by
    intro file hmem
    obtain ⟨bytes, hfile, hoffset⟩ := hopens file hmem
    exact ready_of_readFile hfile hoffset (hfound file hmem)
  obtain ⟨pages, visits, hpages, hemits, hperm⟩ : ∃ pages visits,
      Pages disk sources query limits 0 none pages ∧ List.Forall₂ Emits pages visits ∧
      visits.flatten.Perm (files.flatMap found) := by
    by_cases hsources : sources = []
    · subst hsources
      have hnone : files = [] := List.eq_nil_iff_forall_not_mem.mpr fun file hmem => by
        obtain ⟨bytes, hfile, -⟩ := hopens file hmem
        exact nomatch hfile 0 0 (Nat.zero_le _)
      rw [hnone]
      exact ⟨[emptyPage []], [[]], .last rfl rfl, .cons rfl .nil, .refl _⟩
    · obtain ⟨ordered, hordered, hsame⟩ := discoverFiles_perm hfiles hcount
      obtain ⟨pages, visits, hpages, hemits, hvisits⟩ := pages_from hcodec hsources hlimits
        (ordered.map fun file => (file, found file)) 0 none
        (by rw [List.map_map]; exact hordered.trans (congrArg Except.ok (List.map_id ordered).symm))
        (by
          intro entry hmem
          obtain ⟨file, hfile, rfl⟩ := List.mem_map.mp hmem
          exact hready file (hsame.mem_iff.mp hfile))
      refine ⟨pages, visits, hpages, hemits, hvisits.trans ?_⟩
      rw [List.flatMap_map]
      exact hsame.flatMap_right found
  have hnodup : (visits.flatten.map (some ∘ FoundEntry.position)).Nodup := by
    rw [← List.map_map]
    refine List.Nodup.map (Option.some_injective _) ?_
    exact ((hperm.map _).nodup_iff).mpr (positions_nodup hkeys hready)
  refine ⟨pages, visits, hpages, (emitted_sublist hemits).nodup hnodup, hemits, hperm, fun hdigests => ?_⟩
  rw [emitted_eq hemits ((hperm.map _).nodup_iff.mpr hdigests)]
  exact hperm.map _

/-! ### Libraries and codecs on a page of events -/

/-- The bytes of an ASCII text. -/
def asciiBytes (text : String) : List UInt8 := text.toList.map fun c => UInt8.ofNat c.toNat

def eventLine : List UInt8 := asciiBytes "\x7b\"timestamp\":\"2026-08-04T12:00:00Z\"\x7d"

/-- The libraries on the lines and queries of this example; a digest is the text itself. -/
@[reducible] def eventLibraries : Libraries where
  fromSlice line :=
    if line = eventLine then some (.object [("timestamp", .string "2026-08-04T12:00:00Z")]) else none
  toText _ :=
    asciiBytes "\x7b\"rule\":null,\"level\":null,\"target\":null,\"from\":null,\"to\":null,\"q\":null\x7d"
  parseFromRfc3339 text := if text = "2026-08-04T12:00:00Z" then some 1785844800000000000 else none
  parseFromStr _ := none
  hash bytes := String.ofList (bytes.map fun byte => Char.ofNat byte.toNat)
  toLowercase := String.toLower

def eventQuery : LogQuery := ⟨none, none, none, none, none, none, none⟩

def eventSource : LogSource := ⟨"APP", "logs"⟩

def eventDisk (bytes : List UInt8) : Disk where
  readDir dir := if dir = "logs" then some [⟨"APP.2026-08-04", true, bytes, 0⟩] else none
  distinct dir entries h := by
    obtain ⟨-, h⟩ := Option.ite_none_right_eq_some.mp h
    cases h
    exact List.nodup_singleton _

def eventFound (start stop : ℕ) : FoundEntry where
  entry := ⟨"", "2026-08-04T12:00:00Z", "INFO", "", "", "APP", [], []⟩
  start := start
  stop := stop
  digest := String.ofList (eventLine.map fun byte => Char.ofNat byte.toNat)
  rule := "APP"
  file := "APP.2026-08-04"

instance encodableChar : Encodable Char := Encodable.ofLeftInverse Char.toNat Char.ofNat Char.ofNat_toNat

instance encodableString : Encodable String := Encodable.ofLeftInverse String.toList String.ofList fun _ => String.ofList_toList

deriving instance Encodable for FileCursor, PageCursor, EntryCursor, CursorValue

/-- A codec whose tokens count up to the code of a value. -/
@[reducible] def unaryCodec : CursorCodec where
  sealValue value := .ok (String.ofList (List.replicate (Encodable.encode value) 'x'))
  openToken token := (Encodable.decode token.toList.length).elim (.error .invalidCursor) .ok

attribute [local instance] unaryCodec in
theorem unaryCodec_roundTrips : RoundTrips := by
  intro value
  refine ⟨_, rfl, ?_⟩
  change (Encodable.decode (String.ofList (List.replicate (Encodable.encode value) 'x')).toList.length).elim
    (.error LogError.invalidCursor) Except.ok = Except.ok value
  rw [String.toList_ofList, List.length_replicate, Encodable.encodek]
  rfl

/-! ### Two files -/

/-- The times of three events. -/
def eventTimes : List (String × Int) :=
  [("2026-08-04T12:00:00Z", 1785844800000000000), ("2026-08-04T13:00:00Z", 1785848400000000000),
    ("2026-08-05T12:00:00Z", 1785931200000000000)]

/-- The line of an event. -/
def timedLine (time : String) : List UInt8 := asciiBytes ("\x7b\"timestamp\":\"" ++ time ++ "\"\x7d")

/-- The libraries on these lines. -/
@[reducible] def daysLibraries : Libraries where
  fromSlice line := (eventTimes.find? fun event => line = timedLine event.1).map fun event =>
    .object [("timestamp", .string event.1)]
  toText := eventLibraries.toText
  parseFromRfc3339 text := eventTimes.lookup text
  parseFromStr _ := none
  hash := eventLibraries.hash
  toLowercase := String.toLower

/-- One day with two events, and the day after with one. -/
def daysDisk : Disk where
  readDir dir := if dir = "logs" then
    some [⟨"APP.2026-08-04", true,
        timedLine "2026-08-04T12:00:00Z" ++ newline :: timedLine "2026-08-04T13:00:00Z" ++ [newline], 0⟩,
      ⟨"APP.2026-08-05", true, timedLine "2026-08-05T12:00:00Z" ++ [newline], 1⟩] else none
  distinct dir entries h := by
    obtain ⟨-, h⟩ := Option.ite_none_right_eq_some.mp h
    cases h
    decide

/-- An event of these files. -/
def timedFound (time file : String) (start stop : ℕ) : FoundEntry where
  entry := ⟨"", time, "INFO", "", "", "APP", [], []⟩
  start := start
  stop := stop
  digest := String.ofList ((timedLine time).map fun byte => Char.ofNat byte.toNat)
  rule := "APP"
  file := file

def daysFound (file : FileCursor) : List FoundEntry :=
  if file.file = "APP.2026-08-04" then
    [timedFound "2026-08-04T13:00:00Z" "APP.2026-08-04" 37 74, timedFound "2026-08-04T12:00:00Z" "APP.2026-08-04" 0 37]
  else [timedFound "2026-08-05T12:00:00Z" "APP.2026-08-05" 0 37]

attribute [local instance] daysLibraries unaryCodec in
/-- Pages of one entry, of two and so on emit the three events of the two days, each once. -/
theorem pages_visit_every_entry_once_two_days :
    ∃ pages visits, Pages daysDisk [eventSource] eventQuery (fun n => n + 1) 0 none pages ∧
      List.Forall₂ Emits pages visits ∧
      (pages.flatMap fun page => page.items.map LogEntry.position).Perm
        [some ("APP", "APP.2026-08-04", 37), some ("APP", "APP.2026-08-04", 0),
          some ("APP", "APP.2026-08-05", 0)] := by
  have hfiles : listedFiles daysDisk [eventSource] eventQuery =
      .ok [⟨"APP", "APP.2026-08-04", 74, 0⟩, ⟨"APP", "APP.2026-08-05", 37, 1⟩] := by decide +kernel
  have hfound : ∀ file ∈ [(⟨"APP", "APP.2026-08-04", 74, 0⟩ : FileCursor), ⟨"APP", "APP.2026-08-05", 37, 1⟩],
      readFile daysDisk [eventSource] eventQuery file = .ok (daysFound file) := by
    decide +kernel
  have hnames : ([eventSource].map LogSource.name).Nodup := List.nodup_singleton _
  obtain ⟨pages, visits, hpages, -, hemits, -, hpositions⟩ := pages_visit_every_entry_once unaryCodec_roundTrips
    hnames hfiles (by decide) hfound fun n => Nat.le_add_left 1 n
  exact ⟨pages, visits, hpages, hemits, hpositions (by decide +kernel)⟩

/-! ### One line twice -/

attribute [local instance] eventLibraries unaryCodec in
/-- A line that comes twice is emitted once on a page that has room for both, and no page comes after it. -/
theorem repeated_line_is_emitted_once :
    readFile (eventDisk (eventLine ++ newline :: eventLine)) [eventSource] eventQuery
        ⟨"APP", "APP.2026-08-04", 73, 0⟩ = .ok [eventFound 37 73, eventFound 0 37] ∧
      ∃ page, readPage (eventDisk (eventLine ++ newline :: eventLine)) [eventSource] eventQuery 2 = .ok page ∧
        page.nextCursor = none ∧ page.items.length = 1 := by
  refine ⟨by decide +kernel, ?_⟩
  have hpage : (readPage (eventDisk (eventLine ++ newline :: eventLine)) [eventSource] eventQuery 2).map
      (fun page => (page.nextCursor, page.items.length)) = .ok (none, 1) := by decide +kernel
  cases hread : readPage (eventDisk (eventLine ++ newline :: eventLine)) [eventSource] eventQuery 2 with
  | error error =>
    rw [hread] at hpage
    exact nomatch hpage
  | ok page =>
    rw [hread] at hpage
    obtain ⟨hcursor, hitems⟩ := Prod.mk.inj (Except.ok.inj hpage)
    exact ⟨page, rfl, hcursor, hitems⟩

end Vyuh.Console.Logs
