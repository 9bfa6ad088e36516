import Vyuh.Console.Logs.Pagination

/-! The order in which pages emit the entries of several files. The merge takes the entry whose timestamp is
    the greatest text; `Agree` says when that is the latest entry too. -/

namespace Vyuh.Console.Logs

open Lib

variable {slot : Slot} {source name : String} {found : FoundEntry} {state state' : ScanState}

/-- The instant that the timestamp of an entry denotes. -/
def LogEntry.instant [Libraries] (entry : LogEntry) : ℤ :=
  (Libraries.parseFromRfc3339 entry.timestamp).getD 0

/-- Entries of which none is later than one before it. -/
def Descending [Libraries] (entries : List LogEntry) : Prop :=
  entries.Pairwise fun entry following => following.instant ≤ entry.instant

/-- A file in chronological order: read back from its end, its entries get no later. -/
def Chronological [Libraries] (query : LogQuery) (source name : String) (file : List UInt8) : Prop :=
  ∀ entries stop, Trail query source name file file.length entries stop →
    Descending (entries.map FoundEntry.entry)

/-- The entries read ahead. -/
def PageScan.heads (scan : PageScan) : List FoundEntry := scan.slots.filterMap Slot.next

/-- Of the entries read ahead, one with the greatest timestamp is as late as any. -/
def Agree [Libraries] (heads : List FoundEntry) : Prop :=
  ∀ newest ∈ heads, (∀ other ∈ heads, other.entry.timestamp ≤ newest.entry.timestamp) →
    ∀ other ∈ heads, other.entry.instant ≤ newest.entry.instant

/-! ### Runs of pages -/

section

variable [Libraries] [CursorCodec]

/-- One turn of the merge loop. -/
inductive Turn (query : LogQuery) (limit : ℕ) : PageScan → PageScan → Prop
  | take {scan kept : PageScan} {index : ℕ} {slot : Slot} {found : FoundEntry} {next : Option FoundEntry}
    {reader : FileReader} {state : ScanState} :
    scan.entries.length < limit → newestIndex scan.slots = some index → scan.slots[index]? = some slot →
    slot.next = some found → scan.keep found = .ok kept →
    nextEntry slot.reader query kept.state = .ok (next, reader, state) →
    Turn query limit scan { kept with slots := kept.slots.set index ⟨reader, next⟩, state }

/-- What a page begins with. -/
def startPage (disk : Disk) (sources : List LogSource) (query : LogQuery) : Except LogError PageScan := do
  let files ← cursorFiles disk sources query
  let readers ← files.mapM (openReader disk sources)
  let (slots, state) ← nextEntries query readers ⟨scanBytes, false⟩
  .ok { slots, state, entries := [], seen := [] }

/-- Before every turn of the merge loop of a page, text and instant agree on what is read ahead. -/
def TurnsAgree (disk : Disk) (sources : List LogSource) (query : LogQuery) (limit : ℕ) : Prop :=
  ∀ first scan, startPage disk sources query = .ok first →
    Relation.ReflTransGen (Turn query limit) first scan → scan.entries.length < limit → Agree scan.heads

structure PageRead where
  query : LogQuery
  limit : ℕ
  page : LogPage

/-- Pages read one after the other, each with the cursor of the one before. -/
inductive Reads (disk : Disk) (sources : List LogSource) (query : LogQuery) :
    Option String → List PageRead → Prop
  | last {cursor : Option String} {limit : ℕ} {page : LogPage} :
    readPage disk sources { query with cursor } limit = .ok page →
    Reads disk sources query cursor [⟨{ query with cursor }, limit, page⟩]
  | more {cursor : Option String} {limit : ℕ} {page : LogPage} {token : String} {reads : List PageRead} :
    readPage disk sources { query with cursor } limit = .ok page → page.nextCursor = some token →
    Reads disk sources query (some token) reads →
    Reads disk sources query cursor (⟨{ query with cursor }, limit, page⟩ :: reads)

/-- What opens is what was sealed. -/
def OpensSealed : Prop :=
  ∀ value token opened, CursorCodec.sealValue value = .ok token → CursorCodec.openToken token = .ok opened →
    opened = value

end

/-! ### The newest entry -/

/-- The slot taken holds an entry with the greatest timestamp. -/
theorem newestIndex_latest {slots : List Slot} {index : ℕ} (h : newestIndex slots = some index)
    (hslot : slots[index]? = some slot) (hfound : slot.next = some found) :
    ∀ other ∈ slots.filterMap Slot.next, other.entry.timestamp ≤ found.entry.timestamp := by
  obtain ⟨chosen, hchosen, rfl⟩ := Option.map_eq_some_iff.mp h
  obtain ⟨-, hslots, hnone | ⟨slot', found', hmem, hnext, htimestamp⟩⟩ := newest_latest hchosen
  · exact nomatch hnone
  · cases (List.mem_zipIdx_iff_getElem?.mp hmem).symm.trans hslot
    cases hnext.symm.trans hfound
    intro other hother
    obtain ⟨slot', hslot', hother⟩ := List.mem_filterMap.mp hother
    obtain ⟨position, hposition⟩ := List.mem_iff_getElem?.mp hslot'
    rw [htimestamp]
    exact hslots (slot', position) (List.mem_zipIdx_iff_getElem?.mpr hposition) other hother

/-! ### What is read ahead -/

section

variable [Libraries] {query : LogQuery} {disk : Disk} {sources : List LogSource} {items : List LogEntry}

omit [Libraries] in
theorem whole_before {before after : Bool} (h : before = true → after = true) (hafter : after = false) :
    before = false := by
  cases before with
  | false => rfl
  | true => exact nomatch hafter.symm.trans (h rfl)

/-- An offset of a file on the way back from its end; what comes next there is no later than the entries
    emitted so far. -/
structure Trailed (query : LogQuery) (disk : Disk) (sources : List LogSource) (items : List LogEntry)
    (source name : String) (offset : ℕ) (file : List UInt8) : Prop where
  opens : Opens disk sources source name file
  within : offset ≤ file.length
  trail : ∃ entries, Trail query source name file file.length entries offset
  below : ∀ found stop, Trail query source name file offset [found] stop →
    ∀ item ∈ items, found.entry.instant ≤ item.instant

/-- A slot on the way back from the end of its file, with an entry no later than those emitted so far. -/
structure Slot.Trails (query : LogQuery) (disk : Disk) (sources : List LogSource) (truncated : Bool)
    (items : List LogEntry) (slot : Slot) : Prop where
  opens : Opens disk sources slot.reader.source slot.reader.name slot.reader.file
  within : (cursorFile slot).offset ≤ slot.reader.file.length
  trail : ∃ entries, Trail query slot.reader.source slot.reader.name slot.reader.file
    slot.reader.file.length entries (cursorFile slot).offset
  ahead : Trail query slot.reader.source slot.reader.name slot.reader.file (cursorFile slot).offset
    slot.next.toList slot.reader.offset
  back : slot.reader.offset ≤ (cursorFile slot).offset
  exhausted : truncated = false → slot.next = none → slot.reader.offset = 0
  below : ∀ found, slot.next = some found → ∀ item ∈ items, found.entry.instant ≤ item.instant

/-- A search leads on along the file. -/
theorem nextEntry_trails {reader reader' : FileReader} {next : Option FoundEntry}
    (hreader : Trailed query disk sources items reader.source reader.name reader.offset reader.file)
    (h : nextEntry reader query state = .ok (next, reader', state')) :
    Slot.Trails query disk sources state'.truncated items ⟨reader', next⟩ ∧
      (state.truncated = true → state'.truncated = true) := by
  obtain ⟨stop, offset, rfl, hsearched⟩ := nextEntryFrom_searched hreader.within le_rfl h
  have hstop : (cursorFile ⟨⟨reader.source, reader.name, reader.file, offset⟩, next⟩).offset = stop :=
    hsearched.stop_eq
  obtain ⟨entries, htrail⟩ := hreader.trail
  refine ⟨⟨hreader.opens, ?_, ⟨entries, ?_⟩, ?_, ?_, ?_, ?_⟩, hsearched.truncated⟩
  · rw [hstop]
    exact hsearched.stop_le.trans hreader.within
  · rw [hstop, ← List.append_nil entries]
    exact htrail.append hsearched.before
  · rw [hstop]
    exact hsearched.after
  · rw [hstop]
    exact hsearched.next_le
  · intro hwhole hnone
    exact hsearched.exhausted hnone (whole_before hsearched.truncated hwhole) hwhole
  · rintro found hnext
    have hnext : next = some found := hnext
    have hafter := hsearched.after
    rw [hnext] at hafter
    exact hreader.below found offset (hsearched.before.append hafter)

/-- A slot's cursor leads on along the file again, as long as nothing was left out. -/
theorem Slot.Trails.cursor (h : slot.Trails query disk sources false items) :
    Trailed query disk sources items slot.reader.source slot.reader.name (cursorFile slot).offset
      slot.reader.file := by
  refine ⟨h.opens, h.within, h.trail, fun found stop hfound => ?_⟩
  cases hnext : slot.next with
  | none =>
    have hoffset : (cursorFile slot).offset = slot.reader.offset := by
      rw [cursorFile, hnext]
      rfl
    rw [hoffset, h.exhausted rfl hnext] at hfound
    cases hfound.of_zero
  | some first =>
    have hahead := h.ahead
    rw [hnext] at hahead
    rw [hfound.first_unique hahead]
    exact h.below first hnext

/-- What comes after the entry read ahead is no later than it, nor than what was emitted before it. -/
theorem Slot.Trails.after {truncated : Bool} {items' : List LogEntry}
    (h : slot.Trails query disk sources truncated items) (hfound : slot.next = some found)
    (hchrono : Chronological query slot.reader.source slot.reader.name slot.reader.file)
    (hitems : ∀ item ∈ items', item ∈ items ∨ item.instant = found.entry.instant) :
    Trailed query disk sources items' slot.reader.source slot.reader.name slot.reader.offset
      slot.reader.file := by
  obtain ⟨entries, htrail⟩ := h.trail
  have hahead := h.ahead
  rw [hfound] at hahead
  have hpassed := htrail.append hahead
  refine ⟨h.opens, h.back.trans h.within, ⟨_, hpassed⟩, fun next stop hnext item hitem => ?_⟩
  have horder := hchrono _ _ (hpassed.append hnext)
  rw [List.map_append, List.map_append] at horder
  have hlast : next.entry.instant ≤ found.entry.instant :=
    (List.pairwise_append.mp horder).2.2 found.entry (List.mem_append_right _ (List.mem_singleton_self _))
      next.entry (List.mem_singleton_self _)
  rcases hitems item hitem with hitem | hsame
  · exact hlast.trans (h.below found hfound item hitem)
  · rw [hsame]
    exact hlast

theorem Slot.Trails.mono {truncated truncated' : Bool} (h : slot.Trails query disk sources truncated items)
    (htruncated : truncated = true → truncated' = true) :
    slot.Trails query disk sources truncated' items :=
  ⟨h.opens, h.within, h.trail, h.ahead, h.back, fun hwhole => h.exhausted (whole_before htruncated hwhole),
    h.below⟩

/-- Other slots, when what is emitted is no earlier than their entries. -/
theorem Slot.Trails.more {truncated : Bool} {items' : List LogEntry}
    (h : slot.Trails query disk sources truncated items)
    (hlate : ∀ head, slot.next = some head → head.entry.instant ≤ found.entry.instant)
    (hitems : ∀ item ∈ items', item ∈ items ∨ item.instant = found.entry.instant) :
    slot.Trails query disk sources truncated items' := by
  refine ⟨h.opens, h.within, h.trail, h.ahead, h.back, h.exhausted, fun head hhead item hitem => ?_⟩
  rcases hitems item hitem with hitem | hsame
  · exact h.below head hhead item hitem
  · rw [hsame]
    exact hlate head hhead

theorem nextEntries_trails {readers : List FileReader} {slots : List Slot}
    (hreaders : ∀ reader ∈ readers,
      Trailed query disk sources items reader.source reader.name reader.offset reader.file)
    (h : nextEntries query readers state = .ok (slots, state')) :
    (∀ slot ∈ slots, slot.Trails query disk sources state'.truncated items) ∧
      (state.truncated = true → state'.truncated = true) := by
  induction readers generalizing state slots with
  | nil =>
    cases h
    exact ⟨fun _ hmem => (nomatch hmem), id⟩
  | cons reader readers ih =>
    obtain ⟨hreader, hothers⟩ := List.forall_mem_cons.mp hreaders
    obtain ⟨⟨next, reader', state₁⟩, hnext, h⟩ := Step.except_bind_ok.mp h
    obtain ⟨⟨slots', state₂⟩, hrest, h⟩ := Step.except_bind_ok.mp h
    cases h
    obtain ⟨hslot, htruncated⟩ := nextEntry_trails hreader hnext
    obtain ⟨hslots, htruncated'⟩ := ih hothers hrest
    exact ⟨List.forall_mem_cons.mpr ⟨hslot.mono htruncated', hslots⟩, fun h => htruncated' (htruncated h)⟩

/-- Where a file is begun. -/
def FileCursor.Trails (query : LogQuery) (disk : Disk) (sources : List LogSource) (items : List LogEntry)
    (cursor : FileCursor) : Prop :=
  ∃ file, Trailed query disk sources items cursor.rule cursor.file cursor.offset file

theorem Descending.concat {entry : LogEntry} (h : Descending items)
    (hentry : ∀ item ∈ items, entry.instant ≤ item.instant) : Descending (items ++ [entry]) := by
  refine List.pairwise_append.mpr ⟨h, List.pairwise_singleton _ _, fun item hitem other hother => ?_⟩
  rw [List.mem_singleton.mp hother]
  exact hentry item hitem

theorem Trailed.with_cursor {offset : ℕ} {file : List UInt8}
    (h : Trailed query disk sources items source name offset file) (cursor : Option String) :
    Trailed { query with cursor } disk sources items source name offset file := by
  obtain ⟨entries, htrail⟩ := h.trail
  refine ⟨h.opens, h.within, ⟨entries, htrail.with_cursor cursor⟩, fun found stop hfound => ?_⟩
  exact h.below found stop (hfound.with_cursor query.cursor)

theorem Chronological.with_cursor {file : List UInt8} (h : Chronological query source name file)
    (cursor : Option String) :
    Chronological { query with cursor } source name file :=
  fun entries stop htrail => h entries stop (htrail.with_cursor query.cursor)

/-- The first page begins every file at its end. -/
theorem discoverFiles_trails (hnames : (sources.map LogSource.name).Nodup) {files : List FileCursor}
    (h : discoverFiles disk sources query = .ok files) :
    ∀ file ∈ files, file.Trails query disk sources [] := by
  obtain ⟨listed, hlisted, h⟩ := Step.except_bind_ok.mp h
  cases h
  intro file hmem
  obtain ⟨bytes, hopens, hoffset⟩ :=
    (listedFiles_ok hlisted hnames).2 file (List.mem_mergeSort.mp (List.mem_of_mem_take hmem))
  refine ⟨bytes, hopens, hoffset.le, ⟨[], ?_⟩, fun _ _ _ _ hitem => nomatch hitem⟩
  rw [hoffset]
  exact .stay

/-! ### Timestamps that are written alike -/

omit [Libraries] in
theorem openReader_within {file : FileCursor} {reader : FileReader}
    (h : openReader disk sources file = .ok reader) : reader.offset ≤ reader.file.length := by
  rw [openReader] at h
  split at h
  next => cases h
  next =>
    split at h
    next => cases h
    next entry _ =>
      split at h
      next => cases h
      next hchecks =>
        cases h
        simp only [Bool.or_eq_true, decide_eq_true_eq, not_or, not_lt] at hchecks
        exact hchecks.2

/-- A slot within its file, with an entry of an instant. -/
def Slot.Dated (slot : Slot) : Prop :=
  slot.reader.offset ≤ slot.reader.file.length ∧ ∀ found, slot.next = some found →
    Libraries.parseFromRfc3339 found.entry.timestamp = some found.entry.instant

theorem parseEntry_instant {rule : String} {line : List UInt8} {entry : LogEntry}
    (h : parseEntry rule line query = .ok (some entry)) :
    Libraries.parseFromRfc3339 entry.timestamp = some entry.instant := by
  obtain ⟨_, timestamp, time, -, -, htime, -, hnormal⟩ := parseEntry_eq_some.mp h
  rw [LogEntry.instant, (normalizeEntry_ok hnormal).2, htime]
  rfl

theorem Trail.dated {file : List UInt8} {offset stop : ℕ} {entries : List FoundEntry}
    (h : Trail query source name file offset entries stop) : ∀ found ∈ entries,
      Libraries.parseFromRfc3339 found.entry.timestamp = some found.entry.instant := by
  induction h with
  | stay => exact fun _ hmem => nomatch hmem
  | skip _ _ ih => exact ih
  | pass _ _ _ ih => exact ih
  | found _ hparse _ ih =>
    have hfirst := parseEntry_instant hparse
    exact List.forall_mem_cons.mpr ⟨hfirst, ih⟩

theorem nextEntry_dated {reader reader' : FileReader} {next : Option FoundEntry}
    (hwithin : reader.offset ≤ reader.file.length)
    (h : nextEntry reader query state = .ok (next, reader', state')) : Slot.Dated ⟨reader', next⟩ := by
  obtain ⟨stop, offset, rfl, hsearched⟩ := nextEntryFrom_searched hwithin le_rfl h
  refine ⟨(hsearched.next_le.trans hsearched.stop_le).trans hwithin, fun found hnext => ?_⟩
  exact hsearched.after.dated found (Option.mem_toList.mpr hnext)

theorem nextEntries_dated {readers : List FileReader} {slots : List Slot}
    (hwithin : ∀ reader ∈ readers, reader.offset ≤ reader.file.length)
    (h : nextEntries query readers state = .ok (slots, state')) : ∀ slot ∈ slots, slot.Dated := by
  induction readers generalizing state slots with
  | nil =>
    cases h
    exact fun _ hmem => nomatch hmem
  | cons reader readers ih =>
    obtain ⟨hreader, hothers⟩ := List.forall_mem_cons.mp hwithin
    obtain ⟨⟨next, reader', state₁⟩, hnext, h⟩ := Step.except_bind_ok.mp h
    obtain ⟨⟨slots', state₂⟩, hrest, h⟩ := Step.except_bind_ok.mp h
    cases h
    exact List.forall_mem_cons.mpr ⟨nextEntry_dated hreader hnext, ih hothers hrest⟩

/-! ### One page -/

variable [CursorCodec] {limit : ℕ} {before : List LogEntry}

/-- A page under construction after pages with the entries `before`. -/
structure PageScan.Ordered (query : LogQuery) (disk : Disk) (sources : List LogSource)
    (before : List LogEntry) (scan : PageScan) : Prop where
  slots : ∀ slot ∈ scan.slots, slot.Trails query disk sources scan.state.truncated (before ++ scan.entries)
  descending : Descending (before ++ scan.entries)

theorem keep_descending {scan kept : PageScan} (h : Descending (before ++ scan.entries))
    (hfound : ∀ item ∈ before ++ scan.entries, found.entry.instant ≤ item.instant)
    (hkeep : scan.keep found = .ok kept) :
    Descending (before ++ kept.entries) ∧ ∀ item ∈ before ++ kept.entries,
      item ∈ before ++ scan.entries ∨ item.instant = found.entry.instant := by
  rw [PageScan.keep] at hkeep
  split at hkeep
  · cases hkeep
    exact ⟨h, fun _ hmem => .inl hmem⟩
  · obtain ⟨id, -, hkept⟩ := Step.except_bind_ok.mp hkeep
    cases hkept
    rw [← List.append_assoc]
    refine ⟨h.concat hfound, fun item hmem => ?_⟩
    rcases List.mem_append.mp hmem with hmem | hmem
    · exact .inl hmem
    · rw [List.mem_singleton.mp hmem]
      exact .inr rfl

/-- One turn keeps the order, when text and instant agree on what is read ahead. -/
theorem turn_ordered
    (hchrono : ∀ source name file, Opens disk sources source name file → Chronological query source name file)
    {scan scan' : PageScan} (h : scan.Ordered query disk sources before) (hagree : Agree scan.heads)
    (hturn : Turn query limit scan scan') : scan'.Ordered query disk sources before := by
  obtain ⟨-, hnewest, hslot, hfound, hkeep, hnext⟩ := hturn
  rename_i kept index slot found next reader state
  obtain ⟨hsame, hstate⟩ := keep_slots hkeep
  have hmem := List.mem_of_getElem? hslot
  have htaken := h.slots slot hmem
  have hlate : ∀ head ∈ scan.heads, head.entry.instant ≤ found.entry.instant :=
    hagree found (List.mem_filterMap.mpr ⟨slot, hmem, hfound⟩) (newestIndex_latest hnewest hslot hfound)
  obtain ⟨hdescending, hitems⟩ := keep_descending h.descending (htaken.below found hfound) hkeep
  obtain ⟨hnew, htruncated⟩ := nextEntry_trails
    (htaken.after hfound (hchrono _ _ _ htaken.opens) hitems) hnext
  rw [hstate] at htruncated
  refine ⟨fun other hother => ?_, hdescending⟩
  rcases List.mem_or_eq_of_mem_set hother with hother | rfl
  · rw [hsame] at hother
    refine ((h.slots other hother).more (fun head hhead => ?_) hitems).mono htruncated
    exact hlate head (List.mem_filterMap.mpr ⟨other, hother, hhead⟩)
  · exact hnew

theorem fillFrom_ordered
    (hchrono : ∀ source name file, Opens disk sources source name file → Chronological query source name file)
    {fuel : ℕ} {scan scan' : PageScan} (h : scan.Ordered query disk sources before)
    (hagree : ∀ later, Relation.ReflTransGen (Turn query limit) scan later → later.entries.length < limit →
      Agree later.heads)
    (hfill : PageScan.fillFrom query limit fuel scan = .ok scan') :
    scan'.Ordered query disk sources before := by
  induction fuel generalizing scan with
  | zero =>
    cases hfill
    exact h
  | succ fuel ih =>
    rw [PageScan.fillFrom] at hfill
    split at hfill
    next hlimit =>
      cases hnewest : newestIndex scan.slots with
      | none =>
        rw [hnewest] at hfill
        cases hfill
        exact h
      | some index =>
        obtain ⟨slot, found, hslot, hfound⟩ := newestIndex_eq_some hnewest
        simp only [hnewest, hslot, hfound] at hfill
        obtain ⟨kept, hkept, hfill⟩ := Step.except_bind_ok.mp hfill
        obtain ⟨⟨next, reader, state⟩, hnext, hfill⟩ := Step.except_bind_ok.mp hfill
        have hturn : Turn query limit scan
            { kept with slots := kept.slots.set index ⟨reader, next⟩, state } :=
          .take hlimit hnewest hslot hfound hkept hnext
        have hturned := turn_ordered hchrono h (hagree scan .refl hlimit) hturn
        dsimp only at hfill
        split at hfill
        · cases hfill
          exact hturned
        · exact ih hturned (fun later hlater => hagree later (.head hturn hlater)) hfill
    next =>
      cases hfill
      exact h

theorem readPage_ordered
    (hchrono : ∀ source name file, Opens disk sources source name file → Chronological query source name file)
    (hagree : TurnsAgree disk sources query limit) (hbefore : Descending before)
    (hcursors : ∀ files, cursorFiles disk sources query = .ok files →
      ∀ file ∈ files, file.Trails query disk sources before)
    {page : LogPage} (h : readPage disk sources query limit = .ok page) (hwhole : page.truncated = false) :
    Descending (before ++ page.items) ∧ ∀ token, page.nextCursor = some token →
      ∃ files, CursorCodec.sealValue (.page ⟨1, query.filterKey, files⟩) = .ok token ∧
        ∀ file ∈ files, file.Trails query disk sources (before ++ page.items) := by
  rcases readPage_cases h with rfl | ⟨files, readers, slots, state, scan, hfiles, hreaders, hslots, hscan,
    hcursor, hitems, htruncated⟩
  · refine ⟨?_, fun _ htoken => nomatch htoken⟩
    rw [emptyPage, List.append_nil]
    exact hbefore
  · have hopened : ∀ reader ∈ readers,
        Trailed query disk sources before reader.source reader.name reader.offset reader.file := by
      intro reader hmem
      obtain ⟨file, hfile, hopen⟩ := Step.except_mapM_mem hreaders hmem
      obtain ⟨bytes, htrailed⟩ := hcursors files hfiles file hfile
      cases (htrailed.opens file.offset file.modified htrailed.within).symm.trans hopen
      exact htrailed
    have hstart : startPage disk sources query = .ok ⟨slots, state, [], []⟩ :=
      Step.except_bind_ok.mpr ⟨files, hfiles, Step.except_bind_ok.mpr ⟨readers, hreaders,
        Step.except_bind_ok.mpr ⟨_, hslots, rfl⟩⟩⟩
    have hfirst : PageScan.Ordered query disk sources before ⟨slots, state, [], []⟩ := by
      refine ⟨?_, ?_⟩
      · rw [List.append_nil]
        exact (nextEntries_trails hopened hslots).1
      · rw [List.append_nil]
        exact hbefore
    have hordered := fillFrom_ordered hchrono hfirst (fun later => hagree _ later hstart) hscan
    rw [hitems]
    refine ⟨hordered.descending, fun token htoken => ?_⟩
    rw [htoken] at hcursor
    refine ⟨_, (nextCursor_some hcursor).2, fun file hmem => ?_⟩
    obtain ⟨slot, hslot, rfl⟩ := List.mem_map.mp hmem
    have htrails := hordered.slots slot hslot
    rw [← htruncated, hwhole] at htrails
    exact ⟨_, htrails.cursor⟩

/-! ### All pages -/

/-- A page that goes on with a sealed cursor begins the files where that says. -/
theorem cursorFiles_sealed (hcodec : OpensSealed) {files resumed : List FileCursor} {token filter : String}
    (hseal : CursorCodec.sealValue (.page ⟨1, filter, resumed⟩) = .ok token)
    (h : cursorFiles disk sources { query with cursor := some token } = .ok files) : files = resumed := by
  rw [cursorFiles] at h
  obtain ⟨value, hopen, h⟩ := Step.except_bind_ok.mp h
  obtain rfl := hcodec _ _ _ hseal hopen
  dsimp only at h
  split at h
  · exact nomatch h
  · exact (Except.ok.inj h).symm

theorem reads_descending (hcodec : OpensSealed)
    (hchrono : ∀ source name file, Opens disk sources source name file → Chronological query source name file)
    {cursor : Option String} {reads : List PageRead} (hreads : Reads disk sources query cursor reads)
    (hwhole : ∀ read ∈ reads, read.page.truncated = false)
    (hagree : ∀ read ∈ reads, TurnsAgree disk sources read.query read.limit)
    {before : List LogEntry} (hbefore : Descending before)
    (hcursors : ∀ files, cursorFiles disk sources { query with cursor } = .ok files →
      ∀ file ∈ files, file.Trails query disk sources before) :
    Descending (before ++ reads.flatMap fun read => read.page.items) := by
  -- one page, and what the next one begins with
  have hpage : ∀ {cursor : Option String} {limit : ℕ} {page : LogPage} {before : List LogEntry},
      readPage disk sources { query with cursor } limit = .ok page → page.truncated = false →
      TurnsAgree disk sources { query with cursor } limit → Descending before →
      (∀ files, cursorFiles disk sources { query with cursor } = .ok files →
        ∀ file ∈ files, file.Trails query disk sources before) →
      Descending (before ++ page.items) ∧ ∀ token, page.nextCursor = some token →
        ∀ files, cursorFiles disk sources { query with cursor := some token } = .ok files →
          ∀ file ∈ files, file.Trails query disk sources (before ++ page.items) := by
    intro cursor limit page before hread hwhole hagree hbefore hcursors
    obtain ⟨hdescending, hnext⟩ := readPage_ordered
      (fun source name file hopens => (hchrono source name file hopens).with_cursor cursor) hagree hbefore
      (fun files hfiles file hmem => (hcursors files hfiles file hmem).imp fun _ h => h.with_cursor cursor)
      hread hwhole
    refine ⟨hdescending, fun token htoken files hfiles file hmem => ?_⟩
    obtain ⟨resumed, hseal, htrails⟩ := hnext token htoken
    rw [cursorFiles_sealed hcodec hseal hfiles] at hmem
    exact (htrails file hmem).imp fun _ h => h.with_cursor query.cursor
  induction hreads generalizing before with
  | last hread =>
    rw [List.flatMap_singleton]
    exact (hpage hread (hwhole _ (List.mem_singleton_self _)) (hagree _ (List.mem_singleton_self _)) hbefore
      hcursors).1
  | more hread htoken _ ih =>
    obtain ⟨hfirst, hothers⟩ := List.forall_mem_cons.mp hwhole
    obtain ⟨hagree, hagrees⟩ := List.forall_mem_cons.mp hagree
    obtain ⟨hdescending, hnext⟩ := hpage hread hfirst hagree hbefore hcursors
    rw [List.flatMap_cons, ← List.append_assoc]
    exact ih hothers hagrees hdescending (hnext _ htoken)

/-- Over files in chronological order, the entries that pages emit one after the other, without a truncated
    page, get no later, in every run in which before each turn of a merge loop the entry that is the greatest
    by text among those read ahead is also the latest. -/
theorem pages_emit_in_order (hcodec : OpensSealed) (hnames : (sources.map LogSource.name).Nodup)
    (hchrono : ∀ source name file, Opens disk sources source name file → Chronological query source name file)
    {reads : List PageRead} (hreads : Reads disk sources query none reads)
    (hwhole : ∀ read ∈ reads, read.page.truncated = false)
    (hagree : ∀ read ∈ reads, TurnsAgree disk sources read.query read.limit) :
    Descending (reads.flatMap fun read => read.page.items) :=
  reads_descending hcodec hchrono hreads hwhole hagree .nil fun _ hfiles =>
    discoverFiles_trails hnames hfiles

theorem turn_dated {scan scan' : PageScan} (h : ∀ slot ∈ scan.slots, slot.Dated)
    (hturn : Turn query limit scan scan') : ∀ slot ∈ scan'.slots, slot.Dated := by
  obtain ⟨-, -, hslot, -, hkeep, hnext⟩ := hturn
  intro other hother
  rcases List.mem_or_eq_of_mem_set hother with hother | rfl
  · rw [(keep_slots hkeep).1] at hother
    exact h other hother
  · exact nextEntry_dated (h _ (List.mem_of_getElem? hslot)).1 hnext

/-- Timestamps whose order as texts is that of their instants agree on every page. -/
theorem turnsAgree_of_alike
    (halike : ∀ text text' instant instant', Libraries.parseFromRfc3339 text = some instant →
      Libraries.parseFromRfc3339 text' = some instant' → text ≤ text' → instant ≤ instant') :
    TurnsAgree disk sources query limit := by
  intro first scan hstart hreach hlimit
  clear hlimit
  obtain ⟨files, -, hstart⟩ := Step.except_bind_ok.mp hstart
  obtain ⟨readers, hreaders, hstart⟩ := Step.except_bind_ok.mp hstart
  obtain ⟨⟨slots, state⟩, hslots, hstart⟩ := Step.except_bind_ok.mp hstart
  cases hstart
  have hwithin : ∀ reader ∈ readers, reader.offset ≤ reader.file.length := by
    intro reader hmem
    obtain ⟨file, -, hopen⟩ := Step.except_mapM_mem hreaders hmem
    exact openReader_within hopen
  have hdated : ∀ slot ∈ scan.slots, slot.Dated := by
    induction hreach with
    | refl => exact nextEntries_dated hwithin hslots
    | tail _ hturn ih => exact turn_dated ih hturn
  have hheads : ∀ head ∈ scan.heads,
      Libraries.parseFromRfc3339 head.entry.timestamp = some head.entry.instant := by
    intro head hhead
    obtain ⟨slot, hslot, hnext⟩ := List.mem_filterMap.mp hhead
    exact (hdated slot hslot).2 head hnext
  intro newest hnewest hgreatest other hother
  exact halike _ _ _ _ (hheads other hother) (hheads newest hnewest) (hgreatest other hother)

end

/-! ### Two files -/

/-- The libraries on lines with these timestamps and instants. -/
@[reducible] def timedLibraries (times : List (String × ℤ)) : Libraries where
  fromSlice line := (times.find? fun time => timedLine time.1 = line).map fun time =>
    .object [("timestamp", .string time.1)]
  toText := eventLibraries.toText
  parseFromRfc3339 text := (times.find? fun time => time.1 = text).map Prod.snd
  parseFromStr _ := none
  hash := eventLibraries.hash
  toLowercase := String.toLower

def twoFiles (first second : List UInt8) : List DirEntry :=
  [⟨"APP.1", true, first, 0⟩, ⟨"APP.2", true, second, 0⟩]

def twoDisk (first second : List UInt8) : Disk where
  readDir dir := if dir = "logs" then some (twoFiles first second) else none
  distinct dir entries h := by
    obtain ⟨-, h⟩ := Option.ite_none_right_eq_some.mp h
    cases h
    exact (show ["APP.1", "APP.2"].Nodup by decide)

theorem cursorFiles_twoDisk [Libraries] [CursorCodec] (first second : List UInt8) :
    cursorFiles (twoDisk first second) [eventSource] eventQuery =
      .ok [⟨"APP", "APP.1", first.length, 0⟩, ⟨"APP", "APP.2", second.length, 0⟩] := by
  have hmatches : fileMatches eventSource "APP.1" = true ∧ fileMatches eventSource "APP.2" = true := by decide
  have hlisted : sourceFiles (twoDisk first second) eventSource =
      [⟨"APP", "APP.1", first.length, 0⟩, ⟨"APP", "APP.2", second.length, 0⟩] := by
    show List.filterMap (sourceFile eventSource) (twoFiles first second) = _
    rw [twoFiles, List.filterMap_cons, List.filterMap_cons, sourceFile, sourceFile, hmatches.1, hmatches.2]
    rfl
  have hsorted : ([⟨"APP", "APP.1", first.length, 0⟩, ⟨"APP", "APP.2", second.length, 0⟩] : List FileCursor).mergeSort
      (fun left right => decide (right.modified ≤ left.modified)) =
        [⟨"APP", "APP.1", first.length, 0⟩, ⟨"APP", "APP.2", second.length, 0⟩] :=
    List.mergeSort_of_pairwise (List.pairwise_pair.mpr rfl)
  show Except.ok ((([eventSource].flatMap (sourceFiles (twoDisk first second))).mergeSort _).take maxFiles) = _
  rw [List.flatMap_singleton, hlisted, hsorted]
  rfl

theorem opens_twoDisk {first second file : List UInt8}
    (h : Opens (twoDisk first second) [eventSource] source name file) : file = first ∨ file = second := by
  have hopen := h 0 0 (Nat.zero_le _)
  rw [openReader] at hopen
  split at hopen
  next => cases hopen
  next found hfound =>
    obtain rfl := List.mem_singleton.mp (List.mem_of_find?_eq_some hfound)
    split at hopen
    next => cases hopen
    next entry hentry =>
      split at hopen
      next => cases hopen
      next =>
        cases hopen
        have hmem : entry ∈ twoFiles first second := List.mem_of_find?_eq_some hentry
        rcases List.mem_pair.mp hmem with rfl | rfl
        · exact .inl rfl
        · exact .inr rfl

/-- A file of one line is in chronological order. -/
theorem chronological_line [Libraries] {query : LogQuery} {file line : List UInt8} {cost : ℕ}
    (hline : nextLine file file.length = (.data 0 line, 0, cost)) :
    Chronological query source name file := by
  intro entries stop htrail
  cases htrail with
  | stay => exact .nil
  | skip hline' _ => exact nomatch hline.symm.trans hline'
  | pass hline' _ hrest =>
    cases hline.symm.trans hline'
    rw [hrest.of_zero]
    exact .nil
  | found hline' _ hrest =>
    cases hline.symm.trans hline'
    rw [hrest.of_zero]
    exact List.pairwise_singleton _ _

theorem chronological_twoDisk [Libraries] {query : LogQuery} {first second line line' : List UInt8}
    {cost cost' : ℕ} (hfirst : nextLine first first.length = (.data 0 line, 0, cost))
    (hsecond : nextLine second second.length = (.data 0 line', 0, cost')) :
    ∀ source name file, Opens (twoDisk first second) [eventSource] source name file →
      Chronological query source name file := by
  intro source name file hopens
  rcases opens_twoDisk hopens with rfl | rfl
  · exact chronological_line hfirst
  · exact chronological_line hsecond

theorem RoundTrips.opensSealed [CursorCodec] (h : RoundTrips) : OpensSealed := by
  intro value token opened hseal hopen
  obtain ⟨token', hseal', hopen'⟩ := h value
  cases hseal.symm.trans hseal'
  exact (Except.ok.inj (hopen'.symm.trans hopen)).symm

def noon : String × ℤ := ("2026-08-04T12:00:00Z", 1785844800000000000)
def morning : String × ℤ := ("2026-08-04T08:00:00Z", 1785830400000000000)

/-- Half past six in the morning. -/
def shiftedNoon : String × ℤ := ("2026-08-04T12:00:00+05:30", 1785825000000000000)

attribute [local instance] unaryCodec

theorem page_exists [Libraries] {disk : Disk} {sources : List LogSource} {query : LogQuery} {limit : ℕ}
    {texts : List String}
    (h : (readPage disk sources query limit).map (fun page => (page.truncated, page.items.map (·.timestamp))) =
      .ok (false, texts)) :
    ∃ page, readPage disk sources query limit = .ok page ∧ page.truncated = false ∧
      page.items.map (·.timestamp) = texts := by
  cases hread : readPage disk sources query limit with
  | error error =>
    rw [hread] at h
    exact nomatch h
  | ok page =>
    rw [hread] at h
    obtain ⟨htruncated, hitems⟩ := Prod.mk.inj (Except.ok.inj h)
    exact ⟨page, rfl, htruncated, hitems⟩

@[reducible] def steadyLibraries : Libraries := timedLibraries [noon, morning]

@[reducible] def shiftedLibraries : Libraries := timedLibraries [shiftedNoon, morning]

attribute [local instance] steadyLibraries in
theorem steady_alike (text text' : String) (instant instant' : ℤ)
    (h : Libraries.parseFromRfc3339 text = some instant) (h' : Libraries.parseFromRfc3339 text' = some instant')
    (hle : text ≤ text') : instant ≤ instant' := by
  have htimes : ∀ {text : String} {instant : ℤ}, Libraries.parseFromRfc3339 text = some instant →
      (text, instant) = noon ∨ (text, instant) = morning := by
    intro text instant h
    obtain ⟨time, hfind, rfl⟩ := Option.map_eq_some_iff.mp h
    have hsome := List.find?_some hfind
    obtain rfl : time.1 = text := of_decide_eq_true hsome
    exact List.mem_pair.mp (List.mem_of_find?_eq_some hfind)
  rcases htimes h with hnoon | hmorning <;> rcases htimes h' with hnoon' | hmorning'
  · cases hnoon
    cases hnoon'
    exact le_rfl
  · cases hnoon
    cases hmorning'
    exact absurd hle (by decide)
  · cases hmorning
    cases hnoon'
    decide
  · cases hmorning
    cases hmorning'
    exact le_rfl

attribute [local instance] steadyLibraries in
theorem pages_emit_in_order_two_files :
    ∃ page, readPage (twoDisk (timedLine morning.1) (timedLine noon.1)) [eventSource] eventQuery 2 = .ok page ∧
      page.items.map (·.timestamp) = [noon.1, morning.1] ∧ Descending page.items := by
  have hmap : (readPage (twoDisk (timedLine morning.1) (timedLine noon.1)) [eventSource] eventQuery 2).map
      (fun page => (page.truncated, page.items.map (·.timestamp))) = .ok (false, [noon.1, morning.1]) := by
    rw [readPage, if_neg (by decide), cursorFiles_twoDisk]
    decide +kernel
  obtain ⟨page, hread, hwhole, hitems⟩ := page_exists hmap
  have hreads : Reads (twoDisk (timedLine morning.1) (timedLine noon.1)) [eventSource] eventQuery none
      [⟨eventQuery, 2, page⟩] := .last hread
  have hnames : ([eventSource].map LogSource.name).Nodup := List.nodup_singleton _
  have hlines : nextLine (timedLine morning.1) (timedLine morning.1).length = (.data 0 (timedLine morning.1), 0, 36) ∧
      nextLine (timedLine noon.1) (timedLine noon.1).length = (.data 0 (timedLine noon.1), 0, 36) := by
    decide +kernel
  have hdescending := pages_emit_in_order unaryCodec_roundTrips.opensSealed hnames
    (chronological_twoDisk hlines.1 hlines.2) hreads
    (fun read hmem => by rw [List.mem_singleton.mp hmem]; exact hwhole)
    (fun _ _ => turnsAgree_of_alike steady_alike)
  rw [List.flatMap_singleton] at hdescending
  exact ⟨page, hread, hitems, hdescending⟩

attribute [local instance] shiftedLibraries in
/-- Half past six is emitted before eight o'clock: its text has an offset. -/
theorem shifted_noon_is_emitted_first :
    OpensSealed ∧
      (∀ source name file,
        Opens (twoDisk (timedLine shiftedNoon.1) (timedLine morning.1)) [eventSource] source name file →
          Chronological eventQuery source name file) ∧
      ∃ page, Reads (twoDisk (timedLine shiftedNoon.1) (timedLine morning.1)) [eventSource] eventQuery none
          [⟨eventQuery, 2, page⟩] ∧ page.truncated = false ∧
        page.items.map (·.timestamp) = [shiftedNoon.1, morning.1] ∧ ¬ Descending page.items := by
  have hmap : (readPage (twoDisk (timedLine shiftedNoon.1) (timedLine morning.1)) [eventSource] eventQuery 2).map
      (fun page => (page.truncated, page.items.map (·.timestamp))) =
        .ok (false, [shiftedNoon.1, morning.1]) := by
    rw [readPage, if_neg (by decide), cursorFiles_twoDisk]
    decide +kernel
  obtain ⟨page, hread, hwhole, hitems⟩ := page_exists hmap
  have hlines : nextLine (timedLine shiftedNoon.1) (timedLine shiftedNoon.1).length =
        (.data 0 (timedLine shiftedNoon.1), 0, 41) ∧
      nextLine (timedLine morning.1) (timedLine morning.1).length = (.data 0 (timedLine morning.1), 0, 36) := by
    decide +kernel
  refine ⟨unaryCodec_roundTrips.opensSealed, chronological_twoDisk hlines.1 hlines.2, page, .last hread,
    hwhole, hitems, fun hdescending => ?_⟩
  have hinstants : (page.items.map (·.timestamp)).Pairwise fun text text' =>
      (Libraries.parseFromRfc3339 text').getD 0 ≤ (Libraries.parseFromRfc3339 text).getD 0 :=
    List.pairwise_map.mpr hdescending
  rw [hitems] at hinstants
  exact absurd hinstants (by decide)

end Vyuh.Console.Logs
