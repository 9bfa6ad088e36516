import Mathlib

/-! Encodings that are read off the front of a text. `Readable stop enc` says that an encoded value and
    what follows it are determined by the text they make together, whenever what follows meets `stop`.
    Codes are built from codes: one after the other, counted, with a length in front, or in a list with
    separators. -/

namespace Lib

variable {α α' β : Type}

/-- Equal texts hold equal values and equal rests. -/
def Readable (stop : List β → Prop) (enc : α → List β) : Prop :=
  ∀ a a' r r', stop r → stop r' → enc a ++ r = enc a' ++ r' → a = a' ∧ r = r'

/-- Any rest. -/
abbrev Anything : List β → Prop := fun _ => True

/-- Rests that begin with nothing of the class. -/
def Outside (p : β → Bool) (rest : List β) : Prop := ∀ c ∈ rest.head?, p c = false

namespace Readable

variable {stop : List β → Prop} {enc : α → List β}

theorem injective (h : Readable stop enc) (hnil : stop []) : Function.Injective enc := fun a a' heq =>
  (h a a' [] [] hnil hnil (congrArg (· ++ []) heq)).1

/-- A code that needs no stop is no front part of another text of the code. -/
theorem of_prefix (h : Readable Anything enc) {a a' : α} {r : List β} (hp : enc a <+: enc a' ++ r) :
    a = a' := by
  obtain ⟨t, ht⟩ := hp
  exact (h a a' t r trivial trivial ht).1

/-- Two codes one after the other. -/
theorem append {stop' : List β → Prop} {enc' : α' → List β} (h : Readable stop enc)
    (h' : Readable stop' enc') (hstop : ∀ b r, stop' r → stop (enc' b ++ r)) :
    Readable stop' (fun pair : α × α' => enc pair.1 ++ enc' pair.2) := by
  rintro ⟨a, b⟩ ⟨a', b'⟩ r r' hr hr' heq
  simp only [List.append_assoc] at heq
  obtain ⟨rfl, hrest⟩ := h a a' _ _ (hstop b r hr) (hstop b' r' hr') heq
  obtain ⟨rfl, rfl⟩ := h' b b' r r' hr hr' hrest
  exact ⟨rfl, rfl⟩

/-- As many values, one after the other. -/
theorem flatMap (h : Readable Anything enc) : ∀ (as as' : List α) (r r' : List β),
    as.length = as'.length → as.flatMap enc ++ r = as'.flatMap enc ++ r' → as = as' ∧ r = r'
  | [], [], _, _, _, heq => ⟨rfl, heq⟩
  | [], _ :: _, _, _, hlen, _ => nomatch hlen
  | _ :: _, [], _, _, hlen, _ => nomatch hlen
  | a :: as, a' :: as', r, r', hlen, heq => by
    simp only [List.flatMap_cons, List.append_assoc] at heq
    obtain ⟨rfl, hrest⟩ := h a a' _ _ trivial trivial heq
    obtain ⟨rfl, rfl⟩ := flatMap h as as' r r' (Nat.succ.inj hlen) hrest
    exact ⟨rfl, rfl⟩

end Readable

/-- A text is cut at its last separator in one way. -/
theorem append_cons_inj_last {c : α} {a a' b b' : List α} (hb : c ∉ b) (hb' : c ∉ b')
    (h : a ++ c :: b = a' ++ c :: b') : a = a' ∧ b = b' := by
  rcases List.append_eq_append_iff.mp h with ⟨t, rfl, ht⟩ | ⟨t, rfl, ht⟩
  · cases t with
    | nil => exact ⟨(List.append_nil a).symm, (List.cons.inj ht).2⟩
    | cons d t => exact absurd ((List.cons.inj ht).2 ▸ List.mem_append_right t List.mem_cons_self) hb
  · cases t with
    | nil => exact ⟨List.append_nil a', (List.cons.inj ht).2.symm⟩
    | cons d t => exact absurd ((List.cons.inj ht).2 ▸ List.mem_append_right t List.mem_cons_self) hb'

/-- The bytes of a text are those of its characters. -/
theorem utf8ByteSize_ofList (text : List Char) :
    (String.ofList text).utf8ByteSize = (text.map Char.utf8Size).sum := by
  induction text with
  | nil => rfl
  | cons c text ih =>
    have happend : String.ofList (c :: text) = String.singleton c ++ String.ofList text := by
      rw [← String.toList_inj, String.toList_append, String.toList_ofList, String.toList_singleton,
        String.toList_ofList, List.singleton_append]
    rw [happend, String.utf8ByteSize_append, String.utf8ByteSize_singleton, ih, List.map_cons, List.sum_cons]

/-- The bytes of a text. -/
def utf8 (text : List Char) : List UInt8 := text.flatMap String.utf8EncodeChar

theorem length_utf8 (text : List Char) : (utf8 text).length = (text.map Char.utf8Size).sum := by
  simp only [utf8, List.length_flatMap, String.length_utf8EncodeChar]

/-- UTF-8 read back. -/
def fromUtf8 (bytes : List UInt8) : Option (List Char) := bytes.toByteArray.utf8Decode?.map Array.toList

@[simp] theorem fromUtf8_utf8 (text : List Char) : fromUtf8 (utf8 text) = some text := by
  show Option.map _ (List.utf8Encode text).utf8Decode? = _
  rw [List.utf8Decode?_utf8Encode]
  rfl

theorem utf8_injective : Function.Injective utf8 := fun text text' h =>
  Option.some.inj (by rw [← fromUtf8_utf8, h, fromUtf8_utf8])

theorem utf8_of_fromUtf8 {bytes : List UInt8} {text : List Char} (h : fromUtf8 bytes = some text) :
    utf8 text = bytes := by
  obtain ⟨chars, hchars, rfl⟩ := Option.map_eq_some_iff.mp h
  have hsome : bytes.toByteArray.utf8Decode?.isSome = true := Option.isSome_of_eq_some hchars
  have hencode := ByteArray.utf8Encode_get_utf8Decode? (h := hsome)
  rw [Option.get_of_eq_some hsome hchars] at hencode
  exact List.toByteArray_inj.mp hencode

theorem utf8_append (a b : List Char) : utf8 (a ++ b) = utf8 a ++ utf8 b := List.flatMap_append

theorem utf8EncodeChar_ascii {c : Char} (h : c.toNat < 128) :
    String.utf8EncodeChar c = [UInt8.ofNat c.toNat] := by
  rw [String.utf8EncodeChar]
  exact if_pos (Nat.le_of_lt_succ h)

/-- No byte of a longer character is ASCII. -/
theorem le_of_mem_utf8EncodeChar {c : Char} (h : 128 ≤ c.toNat) {byte : UInt8}
    (hmem : byte ∈ String.utf8EncodeChar c) : 128 ≤ byte.toNat := by
  have hmax : c.toNat < 0x110000 := by
    have := c.valid
    unfold UInt32.isValidChar Nat.isValidChar at this
    show c.val.toNat < _
    omega
  have hbyte : ∀ n : ℕ, 128 ≤ n % 256 → 128 ≤ (UInt8.ofNat n).toNat := fun n hn => by
    rwa [UInt8.toNat_ofNat']
  have hval : c.val.toNat = c.toNat := rfl
  rw [String.utf8EncodeChar] at hmem
  simp only [hval] at hmem
  rw [if_neg (by omega)] at hmem
  split at hmem
  · simp only [List.mem_cons, List.not_mem_nil, or_false] at hmem
    rcases hmem with rfl | rfl <;> exact hbyte _ (by omega)
  split at hmem
  · simp only [List.mem_cons, List.not_mem_nil, or_false] at hmem
    rcases hmem with rfl | rfl | rfl <;> exact hbyte _ (by omega)
  · simp only [List.mem_cons, List.not_mem_nil, or_false] at hmem
    rcases hmem with rfl | rfl | rfl | rfl <;> exact hbyte _ (by omega)

/-- An ASCII character is in a text when its byte is. -/
theorem mem_of_mem_utf8 {text : List Char} {c : Char} (hc : c.toNat < 128)
    (h : UInt8.ofNat c.toNat ∈ utf8 text) : c ∈ text := by
  rw [utf8, List.mem_flatMap] at h
  obtain ⟨d, hmem, hbyte⟩ := h
  have hone : (UInt8.ofNat c.toNat).toNat = c.toNat := by
    rw [UInt8.toNat_ofNat', Nat.mod_eq_of_lt (by omega)]
  by_cases hd : d.toNat < 128
  · rw [utf8EncodeChar_ascii hd, List.mem_singleton] at hbyte
    have hsame := congrArg UInt8.toNat hbyte
    rw [hone, UInt8.toNat_ofNat', Nat.mod_eq_of_lt (by omega)] at hsame
    rwa [Char.toNat_inj.mp hsame]
  · have := le_of_mem_utf8EncodeChar (by omega) hbyte
    omega

/-! ### Words over a class -/

theorem takeWhile_of_class {p : β → Bool} {word r : List β} (hword : ∀ c ∈ word, p c = true)
    (hr : Outside p r) : (word ++ r).takeWhile p = word := by
  rw [List.takeWhile_append_of_pos hword]
  cases r with
  | nil => exact List.append_nil word
  | cons c r =>
    rw [List.takeWhile_cons_of_neg, List.append_nil]
    rw [hr c rfl]
    exact Bool.false_ne_true

/-- Words over a class are read up to the first thing outside of it. -/
theorem readable_words {p : β → Bool} {enc : α → List β} (hinj : Function.Injective enc)
    (hclass : ∀ a, ∀ c ∈ enc a, p c = true) : Readable (Outside p) enc := by
  intro a a' r r' hr hr' heq
  have hword : enc a = enc a' := by
    rw [← takeWhile_of_class (hclass a) hr, heq, takeWhile_of_class (hclass a') hr']
  refine ⟨hinj hword, ?_⟩
  rw [hword] at heq
  exact List.append_cancel_left heq

/-- Decimal digits. -/
theorem readable_digits : Readable (Outside Char.isDigit) (Nat.toDigits 10) := by
  refine readable_words (fun m n heq => ?_) fun n c hc => Nat.isDigit_of_mem_toDigits (by decide) (by decide) hc
  rw [← Nat.ofDigitChars_toDigits (b := 10) (n := m) (by decide) (by decide), heq,
    Nat.ofDigitChars_toDigits (by decide) (by decide)]

/-! ### A length in front -/

/-- Two front parts of one text that weigh the same are the same. -/
theorem append_inj_of_weight {w : β → ℕ} (hw : ∀ c, 0 < w c) : ∀ {a a' r r' : List β},
    (a.map w).sum = (a'.map w).sum → a ++ r = a' ++ r' → a = a' ∧ r = r'
  | [], [], _, _, _, heq => ⟨rfl, heq⟩
  | [], c :: a', _, _, hsum, _ => by
    have hc := hw c
    rw [List.map_cons, List.sum_cons] at hsum
    simp only [List.map_nil, List.sum_nil] at hsum
    omega
  | c :: a, [], _, _, hsum, _ => by
    have hc := hw c
    rw [List.map_cons, List.sum_cons] at hsum
    simp only [List.map_nil, List.sum_nil] at hsum
    omega
  | c :: a, c' :: a', r, r', hsum, heq => by
    obtain ⟨rfl, hrest⟩ := List.cons_eq_cons.mp heq
    rw [List.map_cons, List.sum_cons, List.map_cons, List.sum_cons] at hsum
    obtain ⟨rfl, rfl⟩ := append_inj_of_weight hw (Nat.add_left_cancel hsum) hrest
    exact ⟨rfl, rfl⟩

/-- A text with its weight in front, and a separator after each. -/
def framed (w : Char → ℕ) (sep : Char) (text : List Char) : List Char :=
  Nat.toDigits 10 (text.map w).sum ++ sep :: (text ++ [sep])

theorem readable_framed {w : Char → ℕ} (hw : ∀ c, 0 < w c) {sep : Char} (hsep : sep.isDigit = false) :
    Readable Anything (framed w sep) := by
  intro a a' r r' _ _ heq
  have hstop : ∀ rest, Outside Char.isDigit (sep :: rest) := by
    intro rest c hc
    obtain rfl := Option.some.inj hc
    exact hsep
  simp only [framed, List.append_assoc, List.cons_append] at heq
  obtain ⟨hsize, hrest⟩ := readable_digits _ _ _ _ (hstop _) (hstop _) heq
  obtain ⟨rfl, hend⟩ := append_inj_of_weight hw hsize (List.cons.inj hrest).2
  exact ⟨rfl, (List.cons.inj hend).2⟩

/-! ### Lists of codes -/

/-- What `Readable` says of one value. -/
def ReadsAt (stop : List β → Prop) (enc : α → List β) (a : α) : Prop :=
  ∀ a' r r', stop r → stop r' → enc a ++ r = enc a' ++ r' → a = a' ∧ r = r'

theorem ne_mark {enc : α → List β} {close : β} (hfirst : ∀ a, ∃ c rest, enc a = c :: rest ∧ c ≠ close)
    (a : α) (rest r : List β) : enc a ++ rest ≠ close :: r := by
  intro heq
  obtain ⟨c, tail, ha, hne⟩ := hfirst a
  rw [ha, List.cons_append] at heq
  exact hne (List.cons.inj heq).1

/-- The codes of a list up to a closing mark. -/
def closed (enc : α → List β) (close : β) (as : List α) : List β := as.flatMap enc ++ [close]

/-- Codes that need no stop and do not begin with the mark are read up to it. -/
theorem readable_closed {enc : α → List β} {close : β} (h : Readable Anything enc)
    (hfirst : ∀ a, ∃ c rest, enc a = c :: rest ∧ c ≠ close) : Readable Anything (closed enc close) := by
  intro as
  induction as with
  | nil =>
    rintro as' r r' - - heq
    cases as' with
    | nil => exact ⟨rfl, (List.cons.inj heq).2⟩
    | cons a' as' =>
      simp only [closed, List.flatMap_cons, List.append_assoc] at heq
      exact absurd heq.symm (ne_mark hfirst a' _ r)
  | cons a as ih =>
    rintro as' r r' - - heq
    cases as' with
    | nil =>
      simp only [closed, List.flatMap_cons, List.append_assoc] at heq
      exact absurd heq (ne_mark hfirst a _ r')
    | cons a' as' =>
      simp only [closed, List.flatMap_cons, List.append_assoc] at heq
      obtain ⟨rfl, hrest⟩ := h a a' _ _ trivial trivial heq
      have hclosed : closed enc close as ++ r = closed enc close as' ++ r' := by
        simpa only [closed, List.append_assoc] using hrest
      obtain ⟨rfl, rfl⟩ := ih as' r r' trivial trivial hclosed
      exact ⟨rfl, rfl⟩

/-- The codes of a list with separators, up to a closing mark. -/
def listed (sep close : β) : List (List β) → List β
  | [] => [close]
  | code :: codes => code ++ if codes.isEmpty then [close] else sep :: listed sep close codes

/-- Codes that the separator and the mark stop are read up to the mark. -/
theorem reads_listed {stop : List β → Prop} {enc : α → List β} {sep close : β} (hmarks : sep ≠ close)
    (hsep : ∀ r, stop (sep :: r)) (hclose : ∀ r, stop (close :: r))
    (hfirst : ∀ a, ∃ c rest, enc a = c :: rest ∧ c ≠ close) :
    ∀ {as : List α}, (∀ a ∈ as, ReadsAt stop enc a) →
      ReadsAt Anything (fun as => listed sep close (as.map enc)) as := by
  intro as
  induction as with
  | nil =>
    rintro - as' r r' - - heq
    cases as' with
    | nil => exact ⟨rfl, (List.cons.inj heq).2⟩
    | cons a' as' =>
      simp only [List.map_cons, listed, List.append_assoc] at heq
      exact absurd heq.symm (ne_mark hfirst a' _ r)
  | cons a as ih =>
    rintro hreads as' r r' - - heq
    cases as' with
    | nil =>
      simp only [List.map_cons, listed, List.append_assoc] at heq
      exact absurd heq (ne_mark hfirst a _ r')
    | cons a' as' =>
      have hstop : ∀ (as : List α) (r : List β), stop ((if (as.map enc).isEmpty then [close] else
          sep :: listed sep close (as.map enc)) ++ r) := by
        intro as r
        split
        · exact hclose _
        · exact hsep _
      simp only [List.map_cons, listed, List.append_assoc] at heq
      obtain ⟨rfl, hrest⟩ := hreads a List.mem_cons_self a' _ _ (hstop as r) (hstop as' r') heq
      cases as with
      | nil =>
        cases as' with
        | nil => exact ⟨rfl, (List.cons.inj hrest).2⟩
        | cons b as' => exact absurd (List.cons.inj hrest).1.symm hmarks
      | cons b as =>
        cases as' with
        | nil => exact absurd (List.cons.inj hrest).1 hmarks
        | cons b' as' =>
          have htail := (List.cons.inj hrest).2
          obtain ⟨heq', rfl⟩ := ih (fun x hx => hreads x (List.mem_cons_of_mem a hx)) (b' :: as') r r'
            trivial trivial htail
          exact ⟨congrArg (a :: ·) heq', rfl⟩

end Lib
