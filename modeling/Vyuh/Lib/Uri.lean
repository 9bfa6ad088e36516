import Mathlib

/-! References to resources and how they are resolved against a base (RFC 3986): a text is taken apart as in its
    appendix B, and a reference is resolved as in its section 5.2. -/

namespace Lib.Uri

variable {segments out : List (List Char)} {segment path text : List Char} {query : Option (List Char)}

structure Reference where
  scheme : Option (List Char)
  authority : Option (List Char)
  path : List Char
  query : Option (List Char)
  fragment : Option (List Char)
  deriving DecidableEq, Repr

/-! ### The parts of a text -/

/-- The characters that end a scheme. -/
def schemeEnds (c : Char) : Bool := c = ':' || c = '/' || c = '?' || c = '#'

def splitScheme (text : List Char) : Option (List Char) × List Char :=
  match text.takeWhile (!schemeEnds ·), text.dropWhile (!schemeEnds ·) with
  | c :: name, ':' :: rest => (some (c :: name), rest)
  | _, _ => (none, text)

def splitAuthority : List Char → Option (List Char) × List Char
  | '/' :: '/' :: rest =>
    (some (rest.takeWhile fun c => !(c = '/' || c = '?' || c = '#')),
      rest.dropWhile fun c => !(c = '/' || c = '?' || c = '#'))
  | text => (none, text)

def splitPath (text : List Char) : List Char × List Char :=
  (text.takeWhile fun c => !(c = '?' || c = '#'), text.dropWhile fun c => !(c = '?' || c = '#'))

def splitQuery : List Char → Option (List Char) × List Char
  | '?' :: rest => (some (rest.takeWhile (· ≠ '#')), rest.dropWhile (· ≠ '#'))
  | text => (none, text)

def fragmentOf : List Char → Option (List Char)
  | '#' :: rest => some rest
  | _ => none

def parse (text : List Char) : Reference :=
  let scheme := splitScheme text
  let authority := splitAuthority scheme.2
  let path := splitPath authority.2
  let query := splitQuery path.2
  ⟨scheme.1, authority.1, path.1, query.1, fragmentOf query.2⟩

/-! ### Resolution -/

/-- The output without its last segment and the slash before it. -/
def dropSegment (out : List Char) : List Char := (out.rdropWhile (· ≠ '/')).dropLast

def Dot (segment : List Char) : Prop := segment = ['.'] ∨ segment = ['.', '.']

instance (segment : List Char) : Decidable (Dot segment) := inferInstanceAs (Decidable (_ ∨ _))

/-- What is left of the input when a `.` or `..` before it is removed. -/
def keepSlash (rest : List Char) : List Char := if rest = [] then ['/'] else rest

/-- The loop of section 5.2.4. It takes a segment off the input in each round. -/
def removeDots : ℕ → List Char → List Char → List Char
  | 0, _, out => out
  | _, [], out => out
  | rounds + 1, c :: input, out =>
    if c = '/' then
      let segment := input.takeWhile (· ≠ '/')
      let rest := input.dropWhile (· ≠ '/')
      if segment = ['.'] then removeDots rounds (keepSlash rest) out
      else if segment = ['.', '.'] then removeDots rounds (keepSlash rest) (dropSegment out)
      else removeDots rounds rest (out ++ '/' :: segment)
    else
      let segment := (c :: input).takeWhile (· ≠ '/')
      let rest := (c :: input).dropWhile (· ≠ '/')
      if Dot segment then removeDots rounds (rest.drop 1) out else removeDots rounds rest (out ++ segment)

def removeDotSegments (path : List Char) : List Char := removeDots path.length path []

/-- Section 5.2.3. -/
def mergePaths (base : Reference) (path : List Char) : List Char :=
  if base.authority ≠ none ∧ base.path = [] then '/' :: path else base.path.rdropWhile (· ≠ '/') ++ path

/-- Section 5.2.2. -/
def resolve (base ref : Reference) : Reference :=
  if ref.scheme ≠ none then { ref with path := removeDotSegments ref.path }
  else if ref.authority ≠ none then { ref with scheme := base.scheme, path := removeDotSegments ref.path }
  else if ref.path = [] then { base with query := ref.query.or base.query, fragment := ref.fragment }
  else
    { scheme := base.scheme
      authority := base.authority
      path := removeDotSegments (if ref.path.head? = some '/' then ref.path else mergePaths base ref.path)
      query := ref.query
      fragment := ref.fragment }

/-! ### Rooted paths by their segments -/

/-- The path of some segments. -/
def joined (segments : List (List Char)) : List Char := segments.flatMap fun segment => '/' :: segment

def Named (segments : List (List Char)) : Prop := ∀ segment ∈ segments, '/' ∉ segment

def DotFree (segments : List (List Char)) : Prop := ∀ segment ∈ segments, ¬Dot segment

/-- A segment read behind others. -/
def push (out : List (List Char)) (segment : List Char) : List (List Char) :=
  if segment = ['.'] then out else if segment = ['.', '.'] then out.dropLast else out ++ [segment]

/-- What `.` and `..` leave of the segments; at the end they leave a slash. -/
def settle (out : List (List Char)) : List (List Char) → List (List Char)
  | [] => out
  | [last] => push out last ++ (if Dot last then [[]] else [])
  | segment :: rest => settle (push out segment) rest

@[simp] theorem joined_nil : joined [] = [] := rfl

@[simp] theorem joined_cons (segment : List Char) (rest : List (List Char)) :
    joined (segment :: rest) = '/' :: (segment ++ joined rest) := rfl

@[simp] theorem joined_append (segments rest : List (List Char)) :
    joined (segments ++ rest) = joined segments ++ joined rest := List.flatMap_append

theorem joined_eq_nil_iff : joined segments = [] ↔ segments = [] := by
  cases segments <;> simp

/-- A rooted path has its segments. -/
theorem exists_joined (rest : List Char) : ∃ segment segments,
    Named (segment :: segments) ∧ '/' :: rest = joined (segment :: segments) := by
  induction rest with
  | nil => exact ⟨[], [], by simp [Named], rfl⟩
  | cons c rest ih =>
    obtain ⟨segment, segments, hnamed, heq⟩ := ih
    by_cases hc : c = '/'
    · refine ⟨[], segment :: segments, ?_, ?_⟩
      · intro other hmem
        rcases List.mem_cons.mp hmem with rfl | hmem
        · exact List.not_mem_nil
        · exact hnamed other hmem
      · rw [hc, heq]
        rfl
    · refine ⟨c :: segment, segments, ?_, ?_⟩
      · intro other hmem
        rcases List.mem_cons.mp hmem with rfl | hmem
        · intro hslash
          rcases List.mem_cons.mp hslash with rfl | hslash
          · exact hc rfl
          · exact hnamed segment List.mem_cons_self hslash
        · exact hnamed other (List.mem_cons_of_mem _ hmem)
      · rw [joined_cons, List.cons.injEq] at heq
        rw [joined_cons, heq.2, List.cons_append]

theorem splitOn_append_joined {front : List Char} (hfront : '/' ∉ front) (h : Named segments) :
    (front ++ joined segments).splitOn '/' = front :: segments := by
  induction segments generalizing front with
  | nil => rw [joined_nil, List.append_nil, List.splitOn_eq_singleton hfront]
  | cons segment rest ih =>
    rw [joined_cons, List.splitOn_append_cons_self_of_not_mem hfront, ih (h segment List.mem_cons_self)]
    intro other hmem
    exact h other (List.mem_cons_of_mem _ hmem)

theorem joined_inj {segments other : List (List Char)} (h : Named segments) (hother : Named other) :
    joined segments = joined other ↔ segments = other := by
  refine ⟨fun heq => ?_, fun heq => by rw [heq]⟩
  have hsplit := splitOn_append_joined List.not_mem_nil h
  rw [heq, splitOn_append_joined List.not_mem_nil hother] at hsplit
  exact (List.cons.inj hsplit).2.symm

/-- The text up to its last slash. -/
theorem rdropWhile_segment (front : List Char) (h : '/' ∉ segment) :
    (front ++ '/' :: segment).rdropWhile (· ≠ '/') = front ++ ['/'] := by
  induction segment using List.reverseRecOn with
  | nil => rw [List.rdropWhile_concat_neg _ _ _ (by simp)]
  | append_singleton segment c ih =>
    have hc : c ≠ '/' := by
      rintro rfl
      exact h (List.mem_append_right _ List.mem_cons_self)
    rw [← List.cons_append, ← List.append_assoc, List.rdropWhile_concat, if_pos (decide_eq_true hc)]
    exact ih fun hmem => h (List.mem_append_left _ hmem)

theorem dropSegment_joined (h : Named out) : dropSegment (joined out) = joined out.dropLast := by
  induction out using List.reverseRecOn with
  | nil => rfl
  | append_singleton out segment _ =>
    have hsegment : '/' ∉ segment := h segment (List.mem_append_right _ List.mem_cons_self)
    rw [dropSegment, joined_append, joined_cons, joined_nil, List.append_nil, rdropWhile_segment _ hsegment,
      List.dropLast_concat, List.dropLast_concat]

theorem takeWhile_segment (h : '/' ∉ segment) (rest : List (List Char)) :
    (segment ++ joined rest).takeWhile (· ≠ '/') = segment ∧
      (segment ++ joined rest).dropWhile (· ≠ '/') = joined rest := by
  have hall : ∀ c ∈ segment, decide (c ≠ '/') = true := by
    intro c hc
    exact decide_eq_true (ne_of_mem_of_not_mem hc h)
  rw [List.takeWhile_append_of_pos hall, List.dropWhile_append_of_pos hall]
  cases rest <;> simp

/-! ### What the loop leaves -/

theorem mem_push {segment other : List Char} (h : other ∈ push out segment) :
    other ∈ out ∨ other = segment ∧ ¬Dot segment := by
  rw [push] at h
  split_ifs at h with hdot hdots
  · exact .inl h
  · exact .inl (List.dropLast_subset _ h)
  · rcases List.mem_append.mp h with h | h
    · exact .inl h
    · exact .inr ⟨List.mem_singleton.mp h, not_or.mpr ⟨hdot, hdots⟩⟩

theorem push_of_not_dot (out : List (List Char)) (h : ¬Dot segment) :
    push out segment = out ++ [segment] := by
  rw [Dot, not_or] at h
  rw [push, if_neg h.1, if_neg h.2]

theorem mem_settle {out segments : List (List Char)} {other : List Char} (h : other ∈ settle out segments) :
    other ∈ out ∨ other ∈ segments ∧ ¬Dot other ∨ other = [] := by
  fun_induction settle out segments with
  | case1 out => exact .inl h
  | case2 out last =>
    rcases List.mem_append.mp h with h | h
    · rcases mem_push h with h | ⟨rfl, hdot⟩
      · exact .inl h
      · exact .inr (.inl ⟨List.mem_cons_self, hdot⟩)
    · split_ifs at h with hdot
      · exact .inr (.inr (List.mem_singleton.mp h))
      · exact absurd h List.not_mem_nil
  | case3 out segment rest hrest ih =>
    rcases ih h with h | ⟨h, hdot⟩ | h
    · rcases mem_push h with h | ⟨rfl, hdot⟩
      · exact .inl h
      · exact .inr (.inl ⟨List.mem_cons_self, hdot⟩)
    · exact .inr (.inl ⟨List.mem_cons_of_mem _ h, hdot⟩)
    · exact .inr (.inr h)

theorem named_settle {out segments : List (List Char)} (hout : Named out) (h : Named segments) :
    Named (settle out segments) := by
  intro other hmem
  rcases mem_settle hmem with hmem | ⟨hmem, -⟩ | rfl
  · exact hout other hmem
  · exact h other hmem
  · exact List.not_mem_nil

theorem dotFree_settle (hout : DotFree out) (segments : List (List Char)) :
    DotFree (settle out segments) := by
  intro other hmem
  rcases mem_settle hmem with hmem | ⟨-, hdot⟩ | rfl
  · exact hout other hmem
  · exact hdot
  · decide

theorem settle_append (out segments : List (List Char)) {rest : List (List Char)} (h : rest ≠ []) :
    settle out (segments ++ rest) = settle (segments.foldl push out) rest := by
  induction segments generalizing out with
  | nil => rfl
  | cons segment segments ih =>
    rw [List.cons_append, settle, List.foldl_cons, ih]
    intro hnil
    exact h (List.append_eq_nil_iff.mp hnil).2

theorem foldl_push (h : DotFree segments) (out : List (List Char)) :
    segments.foldl push out = out ++ segments := by
  induction segments generalizing out with
  | nil => simp
  | cons segment segments ih =>
    rw [List.foldl_cons, push_of_not_dot _ (h segment List.mem_cons_self), ih, List.append_assoc]
    · rfl
    · intro other hmem
      exact h other (List.mem_cons_of_mem _ hmem)

/-- Segments that are not dots all stay. -/
theorem settle_of_dotFree (h : DotFree segments) (out : List (List Char)) :
    settle out segments = out ++ segments := by
  induction segments using List.reverseRecOn with
  | nil => rw [settle, List.append_nil]
  | append_singleton segments last _ =>
    have hlast : ¬Dot last := h last (List.mem_append_right _ List.mem_cons_self)
    rw [settle_append _ _ (List.cons_ne_nil _ _), settle, push_of_not_dot _ hlast, if_neg hlast, List.append_nil,
      foldl_push, List.append_assoc]
    intro other hmem
    exact h other (List.mem_append_left _ hmem)

@[simp] theorem removeDots_nil (rounds : ℕ) (out : List Char) : removeDots rounds [] out = out := by
  cases rounds <;> rfl

/-- A round on a rooted path. -/
theorem removeDots_segment (rounds : ℕ) (h : '/' ∉ segment) (rest : List (List Char)) (hout : Named out) :
    removeDots (rounds + 1) (joined (segment :: rest)) (joined out) =
      removeDots rounds (if Dot segment then keepSlash (joined rest) else joined rest) (joined (push out segment)) := by
  obtain ⟨htake, hdrop⟩ := takeWhile_segment h rest
  rw [joined_cons, removeDots, if_pos rfl]
  dsimp only
  rw [htake, hdrop, push]
  by_cases hdot : segment = ['.']
  · have hone : Dot segment := .inl hdot
    rw [if_pos hdot, if_pos hone, if_pos hdot]
  · by_cases hdots : segment = ['.', '.']
    · have htwo : Dot segment := .inr hdots
      rw [if_neg hdot, if_pos hdots, if_pos htwo, if_neg hdot, if_pos hdots, dropSegment_joined hout]
    · have hnone : ¬Dot segment := not_or.mpr ⟨hdot, hdots⟩
      rw [if_neg hdot, if_neg hdots, if_neg hnone, if_neg hdot, if_neg hdots, joined_append, joined_cons, joined_nil,
        List.append_nil]

theorem named_push (hout : Named out) (h : '/' ∉ segment) :
    Named (push out segment) := by
  intro other hmem
  rcases mem_push hmem with hmem | ⟨rfl, -⟩
  · exact hout other hmem
  · exact h

/-- The loop reads a rooted path segment by segment. -/
theorem removeDots_joined {rounds : ℕ} {segments out : List (List Char)} (hne : segments ≠ []) (h : Named segments)
    (hout : Named out) (hrounds : (joined segments).length ≤ rounds) :
    removeDots rounds (joined segments) (joined out) = joined (settle out segments) := by
  induction segments generalizing rounds out with
  | nil => exact absurd rfl hne
  | cons segment rest ih =>
    have hsegment : '/' ∉ segment := h segment List.mem_cons_self
    have hpush : Named (push out segment) := named_push hout hsegment
    rw [joined_cons, List.length_cons, List.length_append] at hrounds
    obtain ⟨rounds, rfl⟩ := Nat.exists_eq_add_of_le' (Nat.le_of_add_left_le hrounds)
    rw [removeDots_segment rounds hsegment rest hout]
    cases rest with
    | nil =>
      rw [settle, joined_nil]
      split_ifs with hdot
      · -- The slash that the dot leaves takes one more round, which the dot itself pays for.
        have hlength : 0 < segment.length := by rcases hdot with rfl | rfl <;> decide
        obtain ⟨more, rfl⟩ : ∃ more, rounds = more + 1 := Nat.exists_eq_add_of_le' (by omega)
        have hempty := removeDots_segment more (List.not_mem_nil : '/' ∉ []) [] hpush
        rw [if_neg (by decide), joined_nil, removeDots_nil] at hempty
        exact hempty
      · rw [removeDots_nil, List.append_nil]
    | cons next rest =>
      have hkeep : (if Dot segment then keepSlash (joined (next :: rest)) else joined (next :: rest)) =
          joined (next :: rest) := by
        split_ifs
        · rfl
        · rfl
      rw [hkeep, settle]
      · exact ih (List.cons_ne_nil _ _) (fun other hmem => h other (List.mem_cons_of_mem _ hmem)) hpush (by omega)
      · exact List.cons_ne_nil _ _

/-! ### Dots in rooted paths -/

theorem removeDotSegments_joined (hne : segments ≠ []) (h : Named segments) :
    removeDotSegments (joined segments) = joined (settle [] segments) :=
  removeDots_joined hne h (List.forall_mem_nil _) le_rfl

theorem named_settle_nil (h : Named segments) : Named (settle [] segments) :=
  named_settle (by simp [Named]) h

/-- A path is left as it is just when none of its segments is a dot. -/
theorem removeDotSegments_eq_self_iff (hne : segments ≠ []) (h : Named segments) :
    removeDotSegments (joined segments) = joined segments ↔ DotFree segments := by
  rw [removeDotSegments_joined hne h, joined_inj (named_settle_nil h) h]
  constructor
  · intro heq
    rw [← heq]
    exact dotFree_settle (by simp [DotFree]) segments
  · intro hfree
    rw [settle_of_dotFree hfree, List.nil_append]

theorem dotFree_append {segments rest : List (List Char)} :
    DotFree (segments ++ rest) ↔ DotFree segments ∧ DotFree rest := List.forall_mem_append

theorem dotFree_nil_cons : DotFree ([] :: segments) ↔ DotFree segments := by
  rw [DotFree, List.forall_mem_cons, and_iff_right (by decide)]
  rfl

/-- The segments of a rooted path as it is written. -/
theorem removeDotSegments_rooted_iff (rest : List Char) :
    removeDotSegments ('/' :: rest) = '/' :: rest ↔ DotFree (('/' :: rest).splitOn '/') := by
  obtain ⟨segment, segments, hnamed, hjoined⟩ := exists_joined rest
  rw [hjoined, removeDotSegments_eq_self_iff (List.cons_ne_nil _ _) hnamed,
    ← List.nil_append (joined (segment :: segments)), splitOn_append_joined List.not_mem_nil hnamed, dotFree_nil_cons]

theorem push_eq_self_iff :
    push out segment = out ↔ segment = ['.'] ∨ segment = ['.', '.'] ∧ out = [] := by
  rw [push]
  split_ifs with hdot hdots
  · exact iff_of_true rfl (.inl hdot)
  · rw [or_iff_right hdot, and_iff_right hdots]
    cases out using List.reverseRecOn <;> simp
  · refine iff_of_false ?_ (not_or.mpr ⟨hdot, fun h => hdots h.1⟩)
    simp

/-- A name between two parts of a path is lost just when it is a dot, or leads out of the root. -/
theorem removeDotSegments_insert_iff {dirs rest : List (List Char)} {name : List Char} (hdirs : Named dirs)
    (hname : '/' ∉ name) (hrest : Named rest) (hne : rest ≠ []) :
    removeDotSegments (joined (dirs ++ name :: rest)) = joined (dirs ++ rest) ↔
      DotFree (dirs ++ rest) ∧ (name = ['.'] ∨ name = ['.', '.'] ∧ dirs = []) := by
  have hall : Named (dirs ++ name :: rest) := by
    intro other hmem
    rcases List.mem_append.mp hmem with hmem | hmem
    · exact hdirs other hmem
    · rcases List.mem_cons.mp hmem with rfl | hmem
      · exact hname
      · exact hrest other hmem
  have hboth : Named (dirs ++ rest) := by
    intro other hmem
    exact (List.mem_append.mp hmem).elim (hdirs other) (hrest other)
  rw [removeDotSegments_joined (by simp) hall, joined_inj (named_settle_nil hall) hboth]
  have hsettle (hfree : DotFree (dirs ++ rest)) : settle [] (dirs ++ name :: rest) = push dirs name ++ rest := by
    have hpush : (dirs ++ [name]).foldl push [] = push dirs name := by
      rw [List.foldl_append, foldl_push fun other hmem => hfree other (List.mem_append_left _ hmem)]
      rfl
    rw [List.append_cons, settle_append _ _ hne, hpush, settle_of_dotFree]
    intro other hmem
    exact hfree other (List.mem_append_right _ hmem)
  constructor
  · intro heq
    have hfree : DotFree (dirs ++ rest) := by
      rw [← heq]
      exact dotFree_settle (by simp [DotFree]) _
    rw [hsettle hfree, List.append_cancel_right_eq] at heq
    exact ⟨hfree, push_eq_self_iff.mp heq⟩
  · rintro ⟨hfree, hname⟩
    rw [hsettle hfree, push_eq_self_iff.mpr hname]

/-! ### References that are paths -/

/-- The text begins as a scheme does. -/
def SchemeLike (text : List Char) : Prop :=
  ∃ name rest, text = name ++ ':' :: rest ∧ name ≠ [] ∧ ∀ c ∈ name, schemeEnds c = false

/-- A text that is a path and perhaps a query. -/
structure PathAndQuery (path : List Char) (query : Option (List Char)) : Prop where
  noAuthority : ¬['/', '/'] <+: path
  noQuery : '?' ∉ path
  noFragment : '#' ∉ path
  queryNoFragment : ∀ text ∈ query, '#' ∉ text

/-- A path with a query behind it. -/
def withQuery (path : List Char) : Option (List Char) → List Char
  | some query => path ++ '?' :: query
  | none => path

theorem splitScheme_of_schemeLike (h : SchemeLike text) : ∃ name rest,
    text = name ++ ':' :: rest ∧ splitScheme text = (some name, rest) := by
  obtain ⟨name, rest, rfl, hne, hname⟩ := h
  obtain ⟨c, tail, rfl⟩ := List.exists_cons_of_ne_nil hne
  refine ⟨c :: tail, rest, rfl, ?_⟩
  have hall : ∀ d ∈ c :: tail, (!schemeEnds d) = true := by
    intro d hd
    rw [hname d hd]
    rfl
  rw [splitScheme, List.takeWhile_append_of_pos hall, List.dropWhile_append_of_pos hall]
  simp [schemeEnds]

theorem splitScheme_of_not_schemeLike (h : ¬SchemeLike text) :
    splitScheme text = (none, text) := by
  rw [splitScheme]
  split
  next c name rest htake hdrop =>
    refine absurd ⟨c :: name, rest, ?_, List.cons_ne_nil _ _, ?_⟩ h
    · rw [← htake, ← hdrop, List.takeWhile_append_dropWhile]
    · intro d hd
      rw [← htake] at hd
      simpa using List.mem_takeWhile_imp hd
  next => rfl

theorem splitAuthority_of_noHost (h : ¬['/', '/'] <+: text) :
    splitAuthority text = (none, text) := by
  rw [splitAuthority.eq_def]
  split
  next rest => exact absurd ⟨rest, rfl⟩ h
  next => rfl

theorem splitPath_withQuery (hquery : '?' ∉ path) (hfragment : '#' ∉ path) (query : Option (List Char)) :
    splitPath (withQuery path query) = (path, withQuery [] query) := by
  have hall : ∀ c ∈ path, (!(c = '?' || c = '#')) = true := by
    intro c hc
    simp [ne_of_mem_of_not_mem hc hquery, ne_of_mem_of_not_mem hc hfragment]
  cases query with
  | none => rw [withQuery, splitPath, List.takeWhile_eq_self_iff.mpr hall, List.dropWhile_eq_nil_iff.mpr hall]; rfl
  | some query =>
    rw [withQuery, splitPath, List.takeWhile_append_of_pos hall, List.dropWhile_append_of_pos hall]
    simp [withQuery]

theorem splitQuery_withQuery (h : ∀ text ∈ query, '#' ∉ text) :
    splitQuery (withQuery [] query) = (query, []) := by
  cases query with
  | none => rfl
  | some query =>
    have hall : ∀ c ∈ query, decide (c ≠ '#') = true := by
      intro c hc
      exact decide_eq_true (ne_of_mem_of_not_mem hc (h query rfl))
    show (some (query.takeWhile _), query.dropWhile _) = _
    rw [List.takeWhile_eq_self_iff.mpr hall, List.dropWhile_eq_nil_iff.mpr hall]

/-- A query puts no slash behind a path. -/
theorem slashes_prefix_withQuery :
    ['/', '/'] <+: withQuery path query ↔ ['/', '/'] <+: path := by
  cases query with
  | none => rfl
  | some query =>
    rcases path with _ | ⟨c, _ | ⟨d, rest⟩⟩ <;> simp [withQuery, List.cons_prefix_cons]

/-- What is rooted and does not begin with two slashes is read as a path and a query. -/
theorem parse_withQuery (h : PathAndQuery path query) (hscheme : ¬SchemeLike (withQuery path query)) :
    parse (withQuery path query) = ⟨none, none, path, query, none⟩ := by
  rw [parse, splitScheme_of_not_schemeLike hscheme]
  dsimp only
  rw [splitAuthority_of_noHost fun hstart => h.noAuthority (slashes_prefix_withQuery.mp hstart)]
  dsimp only
  rw [splitPath_withQuery h.noQuery h.noFragment]
  dsimp only
  rw [splitQuery_withQuery h.queryNoFragment]
  rfl

/-- A path that begins as a scheme does is read as a reference of that scheme, without an authority. -/
theorem parse_of_schemeLike (h : SchemeLike text) (hsingle : ¬['/', '/'] <:+: text) :
    (parse text).scheme ≠ none ∧ (parse text).authority = none := by
  obtain ⟨name, rest, rfl, hsplit⟩ := splitScheme_of_schemeLike h
  have hrest : ¬['/', '/'] <+: rest := by
    intro hstart
    exact hsingle (hstart.isInfix.trans ⟨name ++ [':'], [], by simp⟩)
  rw [parse, hsplit]
  dsimp only
  rw [splitAuthority_of_noHost hrest]
  simp

theorem not_schemeLike_slash (rest : List Char) : ¬SchemeLike ('/' :: rest) := by
  rintro ⟨name, more, heq, hne, hname⟩
  obtain ⟨c, tail, rfl⟩ := List.exists_cons_of_ne_nil hne
  rw [List.cons_append, List.cons.injEq] at heq
  have hc := hname c List.mem_cons_self
  rw [← heq.1] at hc
  exact absurd hc (by decide)

theorem not_schemeLike_withQuery (h : path.head? = some '/') (query : Option (List Char)) :
    ¬SchemeLike (withQuery path query) := by
  obtain ⟨rest, rfl⟩ := List.head?_eq_some_iff.mp h
  cases query with
  | none => exact not_schemeLike_slash rest
  | some query => exact not_schemeLike_slash (rest ++ '?' :: query)

/-- A rooted path is taken from the root. -/
theorem resolve_rooted (base : Reference) (rest : List Char) (query : Option (List Char)) :
    resolve base ⟨none, none, '/' :: rest, query, none⟩ =
      ⟨base.scheme, base.authority, removeDotSegments ('/' :: rest), query, none⟩ := rfl

/-- Any other path is taken from the directory of the base. -/
theorem resolve_relative {base : Reference} (hbase : base.path ≠ []) {c : Char} (hc : c ≠ '/') (rest : List Char) :
    resolve base ⟨none, none, c :: rest, none, none⟩ =
      ⟨base.scheme, base.authority, removeDotSegments (base.path.rdropWhile (· ≠ '/') ++ c :: rest), none, none⟩ := by
  have hhead : (c :: rest).head? ≠ some '/' := by simpa using hc
  rw [resolve, if_neg (by simp), if_neg (by simp), if_neg (List.cons_ne_nil _ _), if_neg hhead, mergePaths,
    if_neg fun h => hbase h.2]

theorem resolve_scheme {base ref : Reference} (h : ref.scheme ≠ none) :
    (resolve base ref).authority = ref.authority := by
  rw [resolve, if_pos h]

/-! ### References that name a host -/

theorem length_dropSegment_le (out : List Char) : (dropSegment out).length ≤ out.length := by
  rw [dropSegment, List.length_dropLast]
  exact (Nat.sub_le _ 1).trans (List.rdropWhile_prefix _ _).length_le

theorem length_keepSlash_le (rest : List Char) : (keepSlash rest).length ≤ rest.length + 1 := by
  rw [keepSlash]
  split_ifs with hrest
  · simp
  · exact Nat.le_succ _

/-- The loop makes no path longer. -/
theorem length_removeDots_le (rounds : ℕ) (input out : List Char) :
    (removeDots rounds input out).length ≤ out.length + input.length := by
  induction rounds generalizing input out with
  | zero => exact Nat.le_add_right _ _
  | succ rounds ih =>
    cases input with
    | nil => exact Nat.le_add_right _ _
    | cons c input =>
      have hsplit (text : List Char) :
          (text.takeWhile (· ≠ '/')).length + (text.dropWhile (· ≠ '/')).length = text.length := by
        rw [← List.length_append, List.takeWhile_append_dropWhile]
      rw [removeDots]
      split_ifs with hc
      · dsimp only
        have hinput := hsplit input
        have hkeep := length_keepSlash_le (input.dropWhile (· ≠ '/'))
        split_ifs with hdot hdots
        · have hnext := ih (keepSlash (input.dropWhile (· ≠ '/'))) out
          rw [hdot] at hinput
          simp only [List.length_cons, List.length_nil] at hinput ⊢
          omega
        · have hnext := ih (keepSlash (input.dropWhile (· ≠ '/'))) (dropSegment out)
          have hdrop := length_dropSegment_le out
          rw [hdots] at hinput
          simp only [List.length_cons, List.length_nil] at hinput ⊢
          omega
        · have hnext := ih (input.dropWhile (· ≠ '/')) (out ++ '/' :: input.takeWhile (· ≠ '/'))
          simp only [List.length_append, List.length_cons] at hnext ⊢
          omega
      · dsimp only
        have hinput := hsplit (c :: input)
        split_ifs
        · have hnext := ih (((c :: input).dropWhile (· ≠ '/')).drop 1) out
          rw [List.length_drop] at hnext
          omega
        · have hnext := ih ((c :: input).dropWhile (· ≠ '/')) (out ++ (c :: input).takeWhile (· ≠ '/'))
          rw [List.length_append] at hnext
          omega

theorem length_splitPath_le (rest : List Char) (query : Option (List Char)) :
    (splitPath (withQuery rest query)).1.length ≤ rest.length := by
  induction rest with
  | nil => cases query <;> simp [withQuery, splitPath]
  | cons c rest ih =>
    have hcons : withQuery (c :: rest) query = c :: withQuery rest query := by cases query <;> rfl
    rw [splitPath] at ih
    rw [hcons, splitPath, List.takeWhile_cons]
    split_ifs
    · exact Nat.succ_le_succ ih
    · exact Nat.zero_le _

theorem splitAuthority_slashes (rest : List Char) (query : Option (List Char)) :
    (splitAuthority ('/' :: '/' :: withQuery rest query)).1 ≠ none ∧
      (splitPath (splitAuthority ('/' :: '/' :: withQuery rest query)).2).1.length ≤ rest.length := by
  refine ⟨Option.some_ne_none _, ?_⟩
  rw [splitAuthority]
  induction rest with
  | nil => cases query <;> simp [withQuery, splitPath]
  | cons c rest ih =>
    have hcons : withQuery (c :: rest) query = c :: withQuery rest query := by cases query <;> rfl
    rw [hcons, List.dropWhile_cons]
    split_ifs
    · exact ih.trans (Nat.le_succ _)
    · rw [← hcons]
      exact length_splitPath_le _ _

/-- A path that begins with two slashes is read as a host and a shorter path. -/
theorem length_resolve_path_lt (h : ['/', '/'] <+: path) (base : Reference) :
    (resolve base (parse (withQuery path query))).path.length < path.length := by
  obtain ⟨rest, rfl⟩ := h
  have htext : withQuery (['/', '/'] ++ rest) query = '/' :: '/' :: withQuery rest query := by cases query <;> rfl
  obtain ⟨hauthority, hlength⟩ := splitAuthority_slashes rest query
  rw [htext, parse, splitScheme_of_not_schemeLike (not_schemeLike_slash _)]
  dsimp only
  rw [resolve, if_neg (by simp), if_pos hauthority]
  have hdots := length_removeDots_le
    (splitPath (splitAuthority ('/' :: '/' :: withQuery rest query)).2).1.length
    (splitPath (splitAuthority ('/' :: '/' :: withQuery rest query)).2).1 []
  show (removeDotSegments _).length < _
  rw [removeDotSegments]
  simp only [List.length_append, List.length_cons, List.length_nil] at hdots ⊢
  omega

end Lib.Uri
