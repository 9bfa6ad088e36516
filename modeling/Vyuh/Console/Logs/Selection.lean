import Vyuh.Console.Logs.Cursors
import Vyuh.Console.Logs.Lines

/-! Opening one entry of a page (`console/logs.rs`): the line that its reference points at is read forwards,
    where the pages are read backwards, and its digest compared. -/

namespace Vyuh.Console.Logs

open Lib Auth

/-- The query without any filter. -/
def LogQuery.default : LogQuery := ⟨none, none, none, none, none, none, none⟩

/-- The line from `start` to the next newline, unless it is too long. -/
def selectedLine (file : List UInt8) (start : ℕ) : Except LogError (List UInt8) :=
  let bytes := (file.drop start).take (maxLineBytes + 1)
  let stop := (bytes.findIdx? (· = newline)).getD bytes.length
  if stop ≥ maxLineBytes then .error .entryUnavailable else .ok (bytes.take stop)

/-- The entry that an opened reference points at. -/
def readPointer [Libraries] (disk : Disk) (sources : List LogSource) (token : String) :
    CursorValue → Except LogError (Option LogEntry)
  | .page _ => .error .invalidCursor
  | .entry pointer =>
    if pointer.version ≠ 1 then .error .invalidCursor
    else do
      let reader ← openReader disk sources ⟨pointer.rule, pointer.file, 0, 0⟩
      let line ← selectedLine reader.file pointer.start
      if Libraries.hash line ≠ pointer.digest then .error .entryUnavailable
      else
        match ← parseEntry reader.source line .default with
        | none => .ok none
        | some entry => .ok (some { entry with id := token })

def CursorKeys.readSelected {κ : Type} [Crypto κ] [Libraries] [CursorText] (keys : CursorKeys κ) (disk : Disk)
    (sources : List LogSource) (token : String) : Except LogError (Option LogEntry) := do
  readPointer disk sources token (← keys.openToken token)

/-! ### The line from a place on -/

/-- The bytes of a file from `start` up to the next newline. -/
def lineAt (file : List UInt8) (start : ℕ) : List UInt8 := (file.drop start).takeWhile (· ≠ newline)

theorem selectedLine_eq (file : List UInt8) (start : ℕ) : selectedLine file start =
    if (lineAt file start).length < maxLineBytes then .ok (lineAt file start) else .error .entryUnavailable := by
  have hline : lineAt file start = (file.drop start).take ((file.drop start).findIdx (· = newline)) := by
    rw [lineAt, List.takeWhile_eq_take_findIdx_not]
    simp
  have hlength : (lineAt file start).length = (file.drop start).findIdx (· = newline) := by
    rw [hline, List.length_take]
    exact Nat.min_eq_left List.findIdx_le_length
  rw [selectedLine, hlength, ← List.findIdx_eq_getD_findIdx?, List.findIdx_take]
  by_cases hshort : (file.drop start).findIdx (· = newline) < maxLineBytes
  · rw [if_neg (by omega), if_pos hshort, List.take_take, hline]
    congr 2
    omega
  · rw [if_pos (by omega), if_neg hshort]

/-- Bytes without a newline are the beginning of the line that starts with them. -/
theorem lineAt_append {front bytes : List UInt8} (hclean : newline ∉ bytes) (after : List UInt8) :
    lineAt (front ++ (bytes ++ after)) front.length = bytes ++ after.takeWhile (· ≠ newline) := by
  rw [lineAt, List.drop_left]
  refine List.takeWhile_append_of_pos fun byte hmem => decide_eq_true ?_
  rintro rfl
  exact hclean hmem

/-! ### Where the pages' readers stop -/

/-- A reader stands at an edge of a line, or inside one that is too long from there on. -/
inductive Edge (file : List UInt8) (offset : ℕ) : Prop
  | first : offset = 0 → Edge file offset
  | last : file.length ≤ offset → Edge file offset
  | after {before : List UInt8} : before ++ [newline] <+: file → offset = before.length + 1 → Edge file offset
  | inside : maxLineBytes < (lineAt file offset).length → Edge file offset

/-- The bytes from `start` on are a whole line, or the line is longer and too long. -/
def Lined (file : List UInt8) (start : ℕ) (bytes : List UInt8) : Prop :=
  lineAt file start = bytes ∨ maxLineBytes < (lineAt file start).length

section

variable {file front bytes ending : List UInt8}

theorem Piece.lined (h : Piece file front bytes ending) (hpos : 0 < bytes.length + ending.length)
    (hedge : Edge file (front.length + (bytes.length + ending.length))) : Lined file front.length bytes := by
  obtain ⟨after, rfl⟩ := h.text
  rw [List.append_assoc, List.append_assoc] at hedge ⊢
  rcases h.ends with rfl | rfl
  · -- no newline ends the bytes, so that only the file's end or a line that goes on can
    rw [List.nil_append] at hedge ⊢
    rw [List.length_nil, Nat.add_zero] at hpos hedge
    rw [Lined, lineAt_append h.clean]
    cases hedge with
    | first hzero => omega
    | last hend =>
      simp only [List.length_append] at hend
      have hnil : after = [] := List.length_eq_zero_iff.mp (by omega)
      rw [hnil]
      exact .inl (List.append_nil bytes)
    | @after before hbefore hoffset =>
      have hsame : front ++ bytes = before ++ [newline] := by
        refine (List.prefix_of_prefix_length_le ?_ hbefore ?_).eq_of_length ?_
        · rw [← List.append_assoc]
          exact List.prefix_append _ _
        · rw [List.length_append, List.length_append, hoffset, List.length_singleton]
        · rw [List.length_append, List.length_append, hoffset, List.length_singleton]
      obtain ⟨init, byte, rfl⟩ := (List.eq_nil_or_concat' bytes).resolve_left (List.length_pos_iff.mp hpos)
      rw [← List.append_assoc] at hsame
      have hbyte : byte = newline := List.singleton_inj.mp (List.append_inj' hsame rfl).2
      exact absurd (List.mem_append_right _ (List.mem_singleton.mpr hbyte.symm)) h.clean
    | inside hlong =>
      right
      rw [lineAt, ← List.append_assoc, ← List.length_append, List.drop_left] at hlong
      rw [List.length_append]
      omega
  · left
    rw [lineAt_append h.clean]
    exact List.append_nil bytes

/-- Going back over a line leads from edge to edge, and what is read is a line as it is selected. -/
theorem Edge.nextLine {offset next cost : ℕ} {line : LineRead} (h : Edge file offset)
    (hoffset : offset ≤ file.length) (hpos : offset ≠ 0) (hline : nextLine file offset = (line, next, cost)) :
    Edge file next ∧ ∀ {start bytes}, line = .data start bytes → start = next ∧ Lined file start bytes := by
  have hne : file.take offset ≠ [] := by
    rw [← List.length_pos_iff, List.length_take]
    omega
  have hlength : (file.take offset).length = offset := by
    rw [List.length_take]
    omega
  obtain ⟨front, bytes, ending, htext, hclean, hopens, hends, hsize⟩ := exists_piece _ hne
  have hpiece : Piece file front bytes ending :=
    ⟨htext ▸ List.take_prefix offset file, hclean, hopens, hends⟩
  obtain rfl : front.length + (bytes.length + ending.length) = offset := by
    rw [← hlength, htext, List.length_append, List.length_append]
  have hlined := hpiece.lined hsize h
  rcases Nat.lt_or_ge (bytes.length + ending.length) (5 * blockBytes) with hshort | hlong
  · -- the whole piece is read: the reader is left in front of it
    obtain ⟨cost', hread⟩ := hpiece.nextLine_short hsize hshort
    cases hread.symm.trans hline
    refine ⟨?_, fun {start bytes'} hdata => ?_⟩
    · rcases hopens with rfl | ⟨before, rfl⟩
      · exact .first rfl
      · exact .after ((List.prefix_append _ _).trans hpiece.text) List.length_append
    · split at hdata
      · exact nomatch hdata
      · cases hdata
        exact ⟨rfl, hlined⟩
  · -- a longer piece is cut off, and what is left behind the reader is too long
    obtain ⟨rest, hrest⟩ := Nat.exists_eq_add_of_le' hlong
    obtain ⟨cost', hread⟩ := hpiece.nextLine_long hrest
    cases hread.symm.trans hline
    refine ⟨.inside ?_, fun hdata => nomatch hdata⟩
    obtain ⟨after, rfl⟩ := hpiece.text
    have hmax : maxLineBytes = 4 * blockBytes := rfl
    have hblock : 1 < blockBytes := by decide
    have hending : ending.length ≤ 1 := by
      rcases hends with rfl | rfl
      · exact Nat.zero_le 1
      · exact le_rfl
    have hsplit : front ++ (bytes ++ ending) ++ after =
        (front ++ bytes.take rest) ++ (bytes.drop rest ++ (ending ++ after)) := by
      simp only [List.append_assoc, List.take_append_drop, ← List.append_assoc (bytes.take rest)]
    have hstart : (front ++ bytes.take rest).length = front.length + rest := by
      rw [List.length_append, List.length_take]
      omega
    rw [hsplit, ← hstart, lineAt_append fun hmem => hclean (List.mem_of_mem_drop hmem), List.length_append,
      List.length_drop]
    omega

end

/-! ### What a page emits -/

section

variable [Libraries] {source name : String} {file : List UInt8} {query : LogQuery}

/-- An entry that was found in a file: its line has the digest and parses to it, whatever the query, and the
    reader can begin at its end again. -/
structure FoundEntry.Stands (source name : String) (file : List UInt8) (found : FoundEntry) : Prop where
  rule : found.rule = source
  name : found.file = name
  line : ∃ line, Lined file found.start line ∧ found.digest = Libraries.hash line ∧
    parseEntry source line .default = .ok (some found.entry)
  edge : Edge file found.stop
  within : found.stop ≤ file.length

/-- An entry of a query is an entry without it, and has no reference yet. -/
theorem parseEntry_default {line : List UInt8} {entry : LogEntry}
    (h : parseEntry source line query = .ok (some entry)) :
    parseEntry source line .default = .ok (some entry) ∧ entry.id = "" := by
  obtain ⟨value, timestamp, time, hvalue, htimestamp, htime, -, hnormal⟩ := parseEntry_eq_some.mp h
  exact ⟨parseEntry_eq_some.mpr ⟨value, timestamp, time, hvalue, htimestamp, htime, rfl, hnormal⟩,
    (normalizeEntry_ok hnormal).1⟩

/-- A trail leads from edge to edge, and what is found on it stands in the file. -/
theorem Trail.edge {offset stop : ℕ} {entries : List FoundEntry}
    (h : Trail query source name file offset entries stop) (hedge : Edge file offset)
    (hoffset : offset ≤ file.length) :
    Edge file stop ∧ ∀ found ∈ entries, found.Stands source name file := by
  induction h with
  | stay => exact ⟨hedge, fun _ hmem => nomatch hmem⟩
  | skip hline _ ih =>
    obtain ⟨-, hnext, -⟩ := nextLine_of_ne hoffset hline (nomatch ·)
    exact ih (hedge.nextLine hoffset (Nat.ne_zero_of_lt hnext) hline).1 (hnext.le.trans hoffset)
  | pass hline _ _ ih =>
    obtain ⟨-, hnext, -⟩ := nextLine_of_ne hoffset hline (nomatch ·)
    exact ih (hedge.nextLine hoffset (Nat.ne_zero_of_lt hnext) hline).1 (hnext.le.trans hoffset)
  | found hline hparse _ ih =>
    obtain ⟨-, hnext, -⟩ := nextLine_of_ne hoffset hline (nomatch ·)
    obtain ⟨hedge', hdata⟩ := hedge.nextLine hoffset (Nat.ne_zero_of_lt hnext) hline
    obtain ⟨hstop, hrest⟩ := ih hedge' (hnext.le.trans hoffset)
    obtain ⟨hdefault, hid⟩ := parseEntry_default hparse
    refine ⟨hstop, List.forall_mem_cons.mpr ⟨⟨rfl, rfl, ⟨_, (hdata rfl).2, rfl, ?_⟩, hedge, hoffset⟩, hrest⟩⟩
    rw [hdefault, ← hid]

variable {disk : Disk} {sources : List LogSource}

/-- A reader of a file of the disk, at an edge of its lines. -/
structure FileReader.Stands (disk : Disk) (sources : List LogSource) (reader : FileReader) : Prop where
  opens : Opens disk sources reader.source reader.name reader.file
  within : reader.offset ≤ reader.file.length
  edge : Edge reader.file reader.offset

/-- Such a reader and what was found with it. -/
structure Slot.Stands (disk : Disk) (sources : List LogSource) (slot : Slot) : Prop where
  reader : slot.reader.Stands disk sources
  next : ∀ found, slot.next = some found →
    found.Stands slot.reader.source slot.reader.name slot.reader.file

/-- A cursor at an edge of a file of the disk. -/
def FileCursor.OnEdge (disk : Disk) (sources : List LogSource) (cursor : FileCursor) : Prop :=
  ∃ file, Opens disk sources cursor.rule cursor.file file ∧ cursor.offset ≤ file.length ∧
    Edge file cursor.offset

omit [Libraries] in
theorem FileCursor.OnEdge.opened {cursor : FileCursor} {reader : FileReader}
    (h : cursor.OnEdge disk sources) (hopen : openReader disk sources cursor = .ok reader) :
    reader.Stands disk sources := by
  obtain ⟨file, hopens, hwithin, hedge⟩ := h
  cases (hopens cursor.offset cursor.modified hwithin).symm.trans hopen
  exact ⟨hopens, hwithin, hedge⟩

theorem Slot.Stands.cursor {slot : Slot} (h : slot.Stands disk sources) :
    (cursorFile slot).OnEdge disk sources := by
  refine ⟨slot.reader.file, h.reader.opens, ?_⟩
  rw [cursorFile]
  cases hnext : slot.next with
  | none => exact ⟨h.reader.within, h.reader.edge⟩
  | some found => exact ⟨(h.next found hnext).within, (h.next found hnext).edge⟩

theorem nextEntry_stands {reader reader' : FileReader} {state state' : ScanState} {next : Option FoundEntry}
    (hreader : reader.Stands disk sources) (h : nextEntry reader query state = .ok (next, reader', state')) :
    Slot.Stands disk sources ⟨reader', next⟩ := by
  obtain ⟨stop, offset, rfl, hsearched⟩ := nextEntryFrom_searched hreader.within le_rfl h
  have hstop := hsearched.stop_le.trans hreader.within
  obtain ⟨hbefore, -⟩ := hsearched.before.edge hreader.edge hreader.within
  obtain ⟨hafter, hfound⟩ := hsearched.after.edge hbefore hstop
  refine ⟨⟨hreader.opens, hsearched.next_le.trans hstop, hafter⟩, fun found hnext => hfound found ?_⟩
  exact Option.mem_toList.mpr hnext

theorem nextEntries_stand {readers : List FileReader} {state state' : ScanState} {slots : List Slot}
    (hreaders : ∀ reader ∈ readers, reader.Stands disk sources)
    (h : nextEntries query readers state = .ok (slots, state')) : ∀ slot ∈ slots, slot.Stands disk sources := by
  induction readers generalizing state slots with
  | nil =>
    cases h
    exact fun _ hmem => nomatch hmem
  | cons reader readers ih =>
    obtain ⟨hreader, hothers⟩ := List.forall_mem_cons.mp hreaders
    obtain ⟨⟨next, reader', state₁⟩, hnext, h⟩ := Step.except_bind_ok.mp h
    obtain ⟨⟨slots', state₂⟩, hrest, h⟩ := Step.except_bind_ok.mp h
    cases h
    exact List.forall_mem_cons.mpr ⟨nextEntry_stands hreader hnext, ih hothers hrest⟩

/-- An item of a page: an entry of a file, with the reference that was sealed for it. -/
def LogEntry.Listed [CursorCodec] (disk : Disk) (sources : List LogSource) (item : LogEntry) : Prop :=
  ∃ found file, Opens disk sources found.rule found.file file ∧ found.Stands found.rule found.file file ∧
    entryCursor found = .ok item.id ∧ item = { found.entry with id := item.id }

variable [CursorCodec]

/-- A page under construction over a disk. -/
structure PageScan.Stands (disk : Disk) (sources : List LogSource) (scan : PageScan) : Prop where
  slots : ∀ slot ∈ scan.slots, slot.Stands disk sources
  entries : ∀ item ∈ scan.entries, item.Listed disk sources

theorem keep_stands {scan scan' : PageScan} {slot : Slot} {found : FoundEntry}
    (h : scan.Stands disk sources) (hslot : slot.Stands disk sources) (hfound : slot.next = some found)
    (hkeep : scan.keep found = .ok scan') : scan'.Stands disk sources := by
  rw [PageScan.keep] at hkeep
  split at hkeep
  · cases hkeep
    exact h
  · obtain ⟨id, hid, hscan⟩ := Step.except_bind_ok.mp hkeep
    cases hscan
    refine ⟨h.slots, List.forall_mem_append.mpr ⟨h.entries, List.forall_mem_singleton.mpr ?_⟩⟩
    have hstands := hslot.next found hfound
    refine ⟨found, slot.reader.file, ?_, ?_, hid, rfl⟩
    · rw [hstands.rule, hstands.name]
      exact hslot.reader.opens
    · rw [hstands.rule, hstands.name]
      exact hstands

theorem fillFrom_stands {limit fuel : ℕ} {scan scan' : PageScan} (hscan : scan.Stands disk sources)
    (h : PageScan.fillFrom query limit fuel scan = .ok scan') : scan'.Stands disk sources := by
  induction fuel generalizing scan with
  | zero =>
    cases h
    exact hscan
  | succ fuel ih =>
    rw [PageScan.fillFrom] at h
    split at h
    next =>
      cases hnewest : newestIndex scan.slots with
      | none =>
        rw [hnewest] at h
        cases h
        exact hscan
      | some index =>
        obtain ⟨slot, found, hslot, hfound⟩ := newestIndex_eq_some hnewest
        simp only [hnewest, hslot, hfound] at h
        obtain ⟨kept, hkept, h⟩ := Step.except_bind_ok.mp h
        obtain ⟨⟨next, reader, state⟩, hnext, h⟩ := Step.except_bind_ok.mp h
        have hstands := hscan.slots slot (List.mem_of_getElem? hslot)
        have hkeeps := keep_stands hscan hstands hfound hkept
        have hturn : PageScan.Stands disk sources
            { kept with slots := kept.slots.set index ⟨reader, next⟩, state } := by
          refine ⟨fun other hmem => ?_, hkeeps.entries⟩
          rcases List.mem_or_eq_of_mem_set hmem with hmem | rfl
          · exact hkeeps.slots other hmem
          · exact nextEntry_stands hstands.reader hnext
        dsimp only at h
        split at h
        · cases h
          exact hturn
        · exact ih hturn h
    next =>
      cases h
      exact hscan

/-- The items of a page are entries of the files, and its cursor begins at edges of their lines again. -/
theorem readPage_stands {limit : ℕ} {page : LogPage}
    (hcursors : ∀ files, cursorFiles disk sources query = .ok files → ∀ file ∈ files, file.OnEdge disk sources)
    (h : readPage disk sources query limit = .ok page) :
    (∀ item ∈ page.items, item.Listed disk sources) ∧ ∀ token, page.nextCursor = some token →
      ∃ files, CursorCodec.sealValue (.page ⟨1, query.filterKey, files⟩) = .ok token ∧
        ∀ file ∈ files, file.OnEdge disk sources := by
  rcases readPage_cases h with rfl | ⟨files, readers, slots, state, scan, hfiles, hreaders, hslots, hscan,
    hcursor, hitems, -⟩
  · exact ⟨fun _ hmem => (nomatch hmem), fun _ htoken => nomatch htoken⟩
  · have hopened : ∀ reader ∈ readers, reader.Stands disk sources := by
      intro reader hmem
      obtain ⟨file, hfile, hopen⟩ := Step.except_mapM_mem hreaders hmem
      exact (hcursors files hfiles file hfile).opened hopen
    have hfirst : PageScan.Stands disk sources ⟨slots, state, [], []⟩ :=
      ⟨nextEntries_stand hopened hslots, fun _ hmem => nomatch hmem⟩
    have hstands := fillFrom_stands hfirst hscan
    rw [hitems]
    refine ⟨hstands.entries, fun token htoken => ?_⟩
    rw [htoken] at hcursor
    refine ⟨_, (nextCursor_some hcursor).2, fun file hmem => ?_⟩
    obtain ⟨slot, hslot, rfl⟩ := List.mem_map.mp hmem
    exact (hstands.slots slot hslot).cursor

end

/-! ### Opening an entry's reference -/

section

variable {κ : Type} [Crypto κ] [Libraries] [CursorText] {disk : Disk} {sources : List LogSource}

/-- The cursors that pages hand out, from the first page on; each page may ask for something else and seal
    with other nonces. -/
inductive HandedOut (keys : CursorKeys κ) (disk : Disk) (sources : List LogSource) : Option String → Prop
  | first : HandedOut keys disk sources none
  | next {nonces : CursorValue → Option Nonce} {query : LogQuery} {limit : ℕ} {page : LogPage}
    {token : String} : HandedOut keys disk sources query.cursor →
    keys.readPage nonces disk sources query limit = .ok page → page.nextCursor = some token →
    HandedOut keys disk sources (some token)

omit [Libraries] [Crypto κ] [CursorText] in
theorem discoverFiles_onEdge [Libraries] {query : LogQuery} {files : List FileCursor}
    (hnames : (sources.map LogSource.name).Nodup) (h : discoverFiles disk sources query = .ok files) :
    ∀ file ∈ files, file.OnEdge disk sources := by
  obtain ⟨listed, hlisted, h⟩ := Step.except_bind_ok.mp h
  cases h
  intro file hmem
  obtain ⟨bytes, hopens, hoffset⟩ :=
    (listedFiles_ok hlisted hnames).2 file (List.mem_mergeSort.mp (List.mem_of_mem_take hmem))
  exact ⟨bytes, hopens, hoffset.le, .last hoffset.ge⟩

/-- Whatever cursor was handed out, the files begin at edges of their lines. -/
theorem HandedOut.onEdge {secrets : SecretRing} {cursor : Option String}
    (hlawful : (Crypto.cipher (κ := κ)).Lawful tagLength)
    (hfaithful : Crypto.cipher.Faithful (CursorKeys.new secrets : CursorKeys κ).active
      (CursorKeys.new secrets : CursorKeys κ).verification)
    (hread : ∀ value : CursorValue, CursorText.fromSlice value.toValue.toVec = some value)
    (hnames : (sources.map LogSource.name).Nodup)
    (h : HandedOut (CursorKeys.new secrets : CursorKeys κ) disk sources cursor) :
    ∀ query files, query.cursor = cursor →
      (CursorKeys.new secrets : CursorKeys κ).cursorFiles disk sources query = .ok files →
      ∀ file ∈ files, file.OnEdge disk sources := by
  induction h with
  | first =>
    intro query files hcursor hfiles
    unfold CursorKeys.cursorFiles cursorFiles at hfiles
    rw [hcursor] at hfiles
    exact discoverFiles_onEdge hnames hfiles
  | @next nonces previous limit page token _ hpage htoken ih =>
    intro query files hcursor hfiles
    let _ := (CursorKeys.new secrets : CursorKeys κ).codec nonces
    have hcursors : ∀ files, cursorFiles disk sources previous = .ok files →
        ∀ file ∈ files, file.OnEdge disk sources := fun files => ih previous files rfl
    have hpage : readPage disk sources previous limit = .ok page := hpage
    obtain ⟨-, hnext⟩ := readPage_stands hcursors hpage
    obtain ⟨resumed, hseal, hresumed⟩ := hnext token htoken
    unfold CursorKeys.cursorFiles cursorFiles at hfiles
    rw [hcursor] at hfiles
    obtain ⟨value, hopen, hfiles⟩ := Step.except_bind_ok.mp hfiles
    have hopened := CursorKeys.openToken_sealValue hlawful hfaithful (secrets.derivedActive_mem _)
      (hread _) hseal
    rw [show (CursorKeys.new secrets : CursorKeys κ).openToken token = .ok value from hopen] at hopened
    split at hopened
    next =>
      cases hopened
      dsimp only at hfiles
      split at hfiles
      · exact nomatch hfiles
      · cases hfiles
        exact hresumed
    next => exact nomatch hopened

/-- What the reference of an entry points at. -/
def FoundEntry.pointer (found : FoundEntry) : EntryCursor where
  version := 1
  filter := ""
  rule := found.rule
  file := found.file
  start := found.start
  digest := found.digest

omit [CursorText] in
theorem readPointer_eq {found : FoundEntry} {file : List UInt8} {token : String}
    (hopens : Opens disk sources found.rule found.file file)
    (hstands : found.Stands found.rule found.file file) :
    readPointer disk sources token (.entry found.pointer) =
      if (lineAt file found.start).length < maxLineBytes then .ok (some { found.entry with id := token })
      else .error .entryUnavailable := by
  have hopen : openReader disk sources ⟨found.pointer.rule, found.pointer.file, 0, 0⟩ =
      .ok ⟨found.rule, found.file, file, 0⟩ := hopens 0 0 (Nat.zero_le _)
  obtain ⟨line, hlined, hdigest, hparse⟩ := hstands.line
  rw [readPointer, if_neg (fun h => h rfl), hopen]
  simp only [bind, Except.bind]
  rw [show found.pointer.start = found.start from rfl, selectedLine_eq]
  by_cases hshort : (lineAt file found.start).length < maxLineBytes
  · have hline : lineAt file found.start = line := hlined.resolve_right (by omega)
    rw [if_pos hshort, if_pos hshort, hline]
    dsimp only
    rw [if_neg (fun h => h hdigest.symm), hparse]
  · rw [if_neg hshort, if_neg hshort]

variable {secrets : SecretRing}

/-- A sealed reference is read back as the entry, unless it or the line is too long. -/
theorem readSelected_eq {found : FoundEntry} {file : List UInt8} {nonce : Option Nonce} {token : String}
    (hlawful : (Crypto.cipher (κ := κ)).Lawful tagLength)
    (hfaithful : Crypto.cipher.Faithful (CursorKeys.new secrets : CursorKeys κ).active
      (CursorKeys.new secrets : CursorKeys κ).verification)
    (hread : ∀ value : CursorValue, CursorText.fromSlice value.toValue.toVec = some value)
    (hopens : Opens disk sources found.rule found.file file)
    (hstands : found.Stands found.rule found.file file)
    (hseal : (CursorKeys.new secrets : CursorKeys κ).sealValue nonce (.entry found.pointer) = .ok token) :
    (CursorKeys.new secrets : CursorKeys κ).readSelected disk sources token =
      if (CursorValue.entry found.pointer).toValue.size ≤ 12260 then
        if (lineAt file found.start).length < maxLineBytes then .ok (some { found.entry with id := token })
        else .error .entryUnavailable
      else .error .invalidCursor := by
  have hopen := CursorKeys.openToken_sealValue hlawful hfaithful (secrets.derivedActive_mem _) (hread _) hseal
  rw [CursorKeys.readSelected, hopen]
  split
  · exact readPointer_eq hopens hstands
  · rfl

/-- An entry of a page, read with whatever cursor a page has handed out, is opened again by its reference
    exactly when the line that begins where it begins, up to the next newline, is shorter than the limit of
    a line, and its reference is short enough to be taken back. -/
theorem listed_entry_reopens_iff (secrets : SecretRing)
    (hlawful : (Crypto.cipher (κ := κ)).Lawful tagLength)
    (hfaithful : Crypto.cipher.Faithful (CursorKeys.new secrets : CursorKeys κ).active
      (CursorKeys.new secrets : CursorKeys κ).verification)
    (hread : ∀ value : CursorValue, CursorText.fromSlice value.toValue.toVec = some value)
    (hnames : (sources.map LogSource.name).Nodup) {nonces : CursorValue → Option Nonce} {query : LogQuery}
    {limit : ℕ} {page : LogPage} {item : LogEntry}
    (hcursor : HandedOut (CursorKeys.new secrets : CursorKeys κ) disk sources query.cursor)
    (hpage : (CursorKeys.new secrets : CursorKeys κ).readPage nonces disk sources query limit = .ok page)
    (hitem : item ∈ page.items) :
    ∃ pointer file, (CursorKeys.new secrets : CursorKeys κ).sealValue (nonces (.entry pointer))
        (.entry pointer) = .ok item.id ∧ Opens disk sources pointer.rule pointer.file file ∧
      ((CursorKeys.new secrets : CursorKeys κ).readSelected disk sources item.id = .ok (some item) ↔
        (lineAt file pointer.start).length < maxLineBytes ∧
          (CursorValue.entry pointer).toValue.size ≤ 12260) := by
  let _ := (CursorKeys.new secrets : CursorKeys κ).codec nonces
  have hcursors : ∀ files, cursorFiles disk sources query = .ok files →
      ∀ file ∈ files, file.OnEdge disk sources :=
    fun files => hcursor.onEdge hlawful hfaithful hread hnames query files rfl
  obtain ⟨found, file, hopens, hstands, hseal, hentry⟩ := (readPage_stands hcursors hpage).1 item hitem
  refine ⟨found.pointer, file, hseal, hopens, ?_⟩
  rw [readSelected_eq hlawful hfaithful hread hopens hstands hseal, ← hentry]
  by_cases hsize : (CursorValue.entry found.pointer).toValue.size ≤ 12260
  · rw [if_pos hsize]
    by_cases hshort : (lineAt file found.start).length < maxLineBytes
    · rw [if_pos hshort]
      exact iff_of_true rfl ⟨hshort, hsize⟩
    · rw [if_neg hshort]
      exact iff_of_false (fun h => nomatch h) fun h => hshort h.1
  · rw [if_neg hsize]
    exact iff_of_false (fun h => nomatch h) fun h => hsize h.2

end

/-! ### One line -/

section

variable [Libraries] {line : List UInt8} {entry : LogEntry}

/-- The only line of a file, as it is found. -/
def lineFound (line : List UInt8) (entry : LogEntry) : FoundEntry where
  entry := { entry with id := "" }
  start := 0
  stop := line.length
  digest := Libraries.hash line
  rule := "APP"
  file := "APP.2026-08-04"

omit [Libraries] in
theorem opens_line (line : List UInt8) :
    Opens (eventDisk line) [eventSource] "APP" "APP.2026-08-04" line := by
  intro offset modified hoffset
  have hmatches : fileMatches eventSource "APP.2026-08-04" = true := by decide
  have hsource : [eventSource].find? (fun source => source.name = "APP") = some eventSource := rfl
  rw [openReader, hsource]
  show (if (!true || !fileMatches eventSource "APP.2026-08-04" || decide (offset > line.length)) = true then
    Except.error LogError.invalidCursor else _) = _
  rw [hmatches]
  exact if_neg (by simpa using hoffset)

omit [Libraries] in
theorem lineAt_line (hclean : newline ∉ line) : lineAt line 0 = line := by
  have hline := @lineAt_append [] line hclean []
  rwa [List.nil_append, List.append_nil, List.takeWhile_nil, List.append_nil] at hline

theorem lineFound_stands (hclean : newline ∉ line)
    (hparse : parseEntry "APP" line .default = .ok (some entry)) :
    (lineFound line entry).Stands "APP" "APP.2026-08-04" line := by
  refine ⟨rfl, rfl, ⟨line, .inl (lineAt_line hclean), rfl, ?_⟩, .last le_rfl, le_rfl⟩
  rw [hparse, lineFound, ← (parseEntry_default hparse).2]

theorem nextEntry_line (hclean : newline ∉ line) (hne : line ≠ []) (hsize : line.length ≤ maxLineBytes)
    (hparse : parseEntry "APP" line .default = .ok (some entry)) :
    ∃ left, nextEntry ⟨"APP", "APP.2026-08-04", line, line.length⟩ .default ⟨scanBytes, false⟩ =
      .ok (some (lineFound line entry), ⟨"APP", "APP.2026-08-04", line, 0⟩, ⟨left, false⟩) := by
  have hmax : maxLineBytes = 4 * blockBytes := rfl
  have hblock : 0 < blockBytes := by decide
  have hpos := List.length_pos_iff.mpr hne
  have hpiece : Piece line [] line [] := ⟨by simp, hclean, .inl rfl, .inl rfl⟩
  obtain ⟨cost, hread⟩ := hpiece.nextLine_short hpos (by rw [List.length_nil]; omega)
  simp only [List.length_nil, Nat.add_zero, Nat.zero_add, charge_start, if_neg (not_lt.mpr hsize)] at hread
  obtain ⟨-, -, hcost⟩ := nextLine_of_ne le_rfl hread (nomatch ·)
  have hbudget : lineCost ≤ scanBytes := by decide
  obtain ⟨fuel, hfuel⟩ := Nat.exists_eq_succ_of_ne_zero hpos.ne'
  rcases previousLine_cases ⟨"APP", "APP.2026-08-04", line, line.length⟩ le_rfl hread ⟨scanBytes, false⟩ with
    hline | ⟨hshort, -⟩
  · refine ⟨scanBytes - cost, ?_⟩
    rw [nextEntry]
    dsimp only
    rw [hfuel, nextEntryFrom, ← hfuel, hline]
    exact Step.except_bind_ok.mpr ⟨_, rfl, Step.except_bind_ok.mpr ⟨_, hparse, rfl⟩⟩
  · exact absurd hshort (by dsimp only; omega)

/-- The page of one line. -/
theorem readPage_line [CursorCodec] {id : String} (hclean : newline ∉ line) (hne : line ≠ [])
    (hsize : line.length ≤ maxLineBytes) (hparse : parseEntry "APP" line .default = .ok (some entry))
    (hid : entryCursor (lineFound line entry) = .ok id) :
    readPage (eventDisk line) [eventSource] .default 1 =
      .ok ⟨[{ entry with id }], ["APP"], none, false, true⟩ := by
  obtain ⟨left, hnext⟩ := nextEntry_line hclean hne hsize hparse
  have hfiles : discoverFiles (eventDisk line) [eventSource] .default =
      .ok [⟨"APP", "APP.2026-08-04", line.length, 0⟩] := by
    have hmatches : fileMatches eventSource "APP.2026-08-04" = true := by decide
    have hlisted : sourceFiles (eventDisk line) eventSource = [⟨"APP", "APP.2026-08-04", line.length, 0⟩] := by
      show List.filterMap (sourceFile eventSource) [⟨"APP.2026-08-04", true, line, 0⟩] = _
      rw [List.filterMap_cons, sourceFile, hmatches]
      rfl
    show Except.ok (([eventSource].flatMap (sourceFiles (eventDisk line))).mergeSort _ |>.take maxFiles) = _
    rw [List.flatMap_singleton, hlisted, List.mergeSort_singleton]
    rfl
  rw [readPage, if_neg (by decide)]
  refine Step.except_bind_ok.mpr ⟨_, hfiles, ?_⟩
  refine Step.except_bind_ok.mpr ⟨[⟨"APP", "APP.2026-08-04", line, line.length⟩], ?_, ?_⟩
  · rw [List.mapM_cons]
    exact Step.except_bind_ok.mpr ⟨_, opens_line line _ _ le_rfl, rfl⟩
  refine Step.except_bind_ok.mpr ⟨([⟨⟨"APP", "APP.2026-08-04", line, 0⟩, some (lineFound line entry)⟩],
    ⟨left, false⟩), ?_, ?_⟩
  · rw [nextEntries, hnext]
    rfl
  refine Step.except_bind_ok.mpr ⟨⟨[⟨⟨"APP", "APP.2026-08-04", line, 0⟩, none⟩], ⟨left, false⟩,
    [{ entry with id }], [Libraries.hash line]⟩, ?_, rfl⟩
  rw [PageScan.fill, PageScan.turns]
  exact Step.except_bind_ok.mpr ⟨_, Step.except_bind_ok.mpr ⟨_, hid, rfl⟩, rfl⟩

end

attribute [local instance] byteCrypto inverseText

attribute [local instance] eventLibraries in
/-- The entry of a short line is opened again. -/
theorem listed_entry_reopens_iff_one_line :
    ∃ (page : LogPage) (item : LogEntry),
      (CursorKeys.new oneSecret : CursorKeys UInt8).readPage zeroNonces (eventDisk eventLine) [eventSource]
        .default 1 = .ok page ∧ item ∈ page.items ∧
      (CursorKeys.new oneSecret : CursorKeys UInt8).readSelected (eventDisk eventLine) [eventSource] item.id =
        .ok (some item) := by
  let _ := (CursorKeys.new oneSecret : CursorKeys UInt8).codec zeroNonces
  let written : EntryCursor := ⟨1, "", "APP", "APP.2026-08-04", 0, (eventFound 0 36).digest⟩
  obtain ⟨id, hid⟩ := oneSecret_seals (.entry written)
  have hparse : parseEntry "APP" eventLine .default = .ok (some (eventFound 0 36).entry) := by decide +kernel
  have hpage := readPage_line (by decide) (by decide) (by decide) hparse hid
  have hnames : ([eventSource].map LogSource.name).Nodup := List.nodup_singleton _
  obtain ⟨pointer, file, hseal, hopens, hiff⟩ := listed_entry_reopens_iff oneSecret (Cipher.lawful_tagged tagLength)
    (Cipher.faithful_tagged tagLength _ _) fromSlice_toVec hnames .first hpage (List.mem_singleton_self _)
  have hsize : (CursorValue.entry written).toValue.size ≤ 12260 := by decide +kernel
  have hsame := CursorKeys.eq_of_token (Cipher.lawful_tagged tagLength) (Cipher.faithful_tagged tagLength _ _)
    (oneSecret.derivedActive_mem _) fromSlice_toVec hid hsize hseal
  obtain rfl : pointer = written := CursorValue.entry.inj hsame
  have hfile : file = eventLine := by
    have hreader := (hopens 0 0 (Nat.zero_le _)).symm.trans (opens_line eventLine 0 0 (Nat.zero_le _))
    exact congrArg FileReader.file (Except.ok.inj hreader)
  refine ⟨_, _, hpage, List.mem_singleton_self _, hiff.mpr ⟨?_, hsize⟩⟩
  rw [hfile]
  decide +kernel

/-- An event with blanks behind it, up to the limit of a line. -/
def longLine : List UInt8 := eventLine ++ List.replicate (maxLineBytes - 36) 32

theorem length_longLine : longLine.length = maxLineBytes := by
  have hevent : eventLine.length = 36 := by decide
  have hmax : 36 ≤ maxLineBytes := by decide
  rw [longLine, List.length_append, List.length_replicate, hevent]
  omega

theorem newline_notMem_longLine : newline ∉ longLine := by
  rw [longLine, List.mem_append, not_or]
  exact ⟨by decide, fun hmem => absurd (List.eq_of_mem_replicate hmem) (by decide)⟩

/-- The libraries on the long line; its digest is a text of 64 digits. -/
@[reducible] def longLibraries : Libraries where
  fromSlice line :=
    if line = longLine then some (.object [("timestamp", .string "2026-08-04T12:00:00Z")]) else none
  toText := eventLibraries.toText
  parseFromRfc3339 := eventLibraries.parseFromRfc3339
  parseFromStr _ := none
  hash _ := String.ofList (List.replicate 64 'd')
  toLowercase := String.toLower

attribute [local instance] longLibraries in
/-- A line of exactly the limit is listed but not opened. -/
theorem line_at_the_limit_is_not_reopened :
    longLine.length = maxLineBytes ∧ newline ∉ longLine ∧ ∃ (page : LogPage) (item : LogEntry),
      (CursorKeys.new oneSecret : CursorKeys UInt8).readPage zeroNonces (eventDisk longLine) [eventSource]
        .default 1 = .ok page ∧ item ∈ page.items ∧
      (CursorKeys.new oneSecret : CursorKeys UInt8).readSelected (eventDisk longLine) [eventSource] item.id =
        .error .entryUnavailable := by
  refine ⟨length_longLine, newline_notMem_longLine, ?_⟩
  let _ := (CursorKeys.new oneSecret : CursorKeys UInt8).codec zeroNonces
  have hlength := length_longLine
  have hclean := newline_notMem_longLine
  have hvalue : Libraries.fromSlice longLine =
      some (.object [("timestamp", .string "2026-08-04T12:00:00Z")]) := if_pos rfl
  have hparse : parseEntry "APP" longLine .default = .ok (some (eventFound 0 36).entry) := by
    rw [parseEntry, hvalue]
    decide +kernel
  obtain ⟨id, hid⟩ := oneSecret_seals (.entry (lineFound longLine (eventFound 0 36).entry).pointer)
  have hne : longLine ≠ [] := by
    rw [← List.length_pos_iff, hlength]
    decide
  have hpage := readPage_line hclean hne hlength.le hparse hid
  refine ⟨_, _, hpage, List.mem_singleton_self _, ?_⟩
  rw [readSelected_eq (Cipher.lawful_tagged tagLength) (Cipher.faithful_tagged tagLength _ _) fromSlice_toVec
    (opens_line longLine) (lineFound_stands hclean hparse) hid]
  have hsize : (CursorValue.entry (lineFound longLine (eventFound 0 36).entry).pointer).toValue.size ≤ 12260 := by
    show (CursorValue.entry ⟨1, "", "APP", "APP.2026-08-04", 0,
      String.ofList (List.replicate 64 'd')⟩).toValue.size ≤ 12260
    decide
  have hstart : (lineFound longLine (eventFound 0 36).entry).start = 0 := rfl
  rw [if_pos hsize, hstart, lineAt_line hclean, hlength, if_neg (Nat.lt_irrefl _)]

end Vyuh.Console.Logs
