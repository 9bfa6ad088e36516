import Mathlib
import Vyuh.Auth.Token
import Vyuh.Lib.Ascii
import Vyuh.Lib.Base64
import Vyuh.Lib.Coding
import Vyuh.Lib.Step

/-! Tokens in the format of Django's `signing.dumps` (`auth/codecs/django.rs`): payload, timestamp and
    signature, joined by a separator. The hashes, zlib and the JSON of a token are libraries'. -/

namespace Vyuh.Auth.Django

open Lib

def maxDecodedPayloadBytes : ℕ := 16 * 1024

/-- SHA-256, HMAC-SHA256, zlib and `serde_json`; `inflate` reads at most so many bytes. -/
class Libraries where
  digest : List UInt8 → List UInt8
  sign : List UInt8 → List UInt8 → List UInt8
  deflate : List UInt8 → Option (List UInt8)
  inflate : ℕ → List UInt8 → Option (List UInt8)
  toText : AuthToken → Option String
  fromSlice : List UInt8 → Option AuthToken

structure DjangoCodec where
  active : List UInt8
  verification : List (List UInt8)
  salt : String
  separator : Char
  compress : Bool

def validateSeparator (value : Char) : Except AuthError Unit :=
  if isAsciiAlphanumeric value || value = '-' || value = '_' then
    .error (.invalidProviderConfig "Django signing separator cannot be URL-safe base64")
  else .ok ()

/-! ### Timestamps -/

def base62 : List Char := "0123456789ABCDEFGHIJKLMNOPQRSTUVWXYZabcdefghijklmnopqrstuvwxyz".toList

def base62Char (position : ℕ) : Except AuthError Char := base62[position]?.elim (.error .invalidCredential) .ok

def base62Encode (value : ℤ) : Except AuthError (List Char) :=
  if value < 0 then .error .invalidCredential
  else if value = 0 then .ok ['0']
  else (Nat.digits 62 value.toNat).reverse.mapM base62Char

/-- A result that 64 bits hold. -/
def checked (n : ℕ) : Option ℕ := if n < 2 ^ 64 then some n else none

def pushDigit (output : ℕ) (c : Char) : Except AuthError ℕ :=
  match base62.idxOf? c with
  | none => .error .invalidCredential
  | some digit =>
    ((checked (output * 62)).bind fun current => checked (current + digit)).elim (.error .invalidCredential) .ok

def base62Decode (value : List Char) : Except AuthError ℤ := do
  let output ← value.foldlM pushDigit 0
  if output < 2 ^ 63 then .ok output else .error .invalidCredential

/-! ### The codec -/

section

variable [Libraries]

def signature (secret : List UInt8) (salt : String) (value : List Char) : List Char :=
  Base64.encode (Libraries.sign (Libraries.digest (utf8 salt.toList ++ utf8 "signer".toList ++ secret))
    (utf8 value))

def encodePayload (value : List UInt8) (compress : Bool) : Except AuthError (List Char) :=
  if !compress then .ok (Base64.encode value)
  else
    match Libraries.deflate value with
    | none => .error .invalidCredential
    | some compressed =>
      -- compression has to pay for its mark too
      if compressed.length + 1 < value.length then .ok ('.' :: Base64.encode compressed)
      else .ok (Base64.encode value)

/-- The payload without the mark of compression. -/
def stripMark : List Char → Bool × List Char
  | '.' :: encoded => (true, encoded)
  | encoded => (false, encoded)

def decodePayload (value : List Char) : Except AuthError (List UInt8) :=
  match Base64.decode (stripMark value).2 with
  | none => .error .invalidCredential
  | some bytes =>
    if bytes.length > maxDecodedPayloadBytes then .error .invalidCredential
    else if !(stripMark value).1 then .ok bytes
    else
      match Libraries.inflate (maxDecodedPayloadBytes + 1) bytes with
      | none => .error .invalidCredential
      | some output => if output.length > maxDecodedPayloadBytes then .error .invalidCredential else .ok output

/-- The JSON of a token, in ASCII. -/
def djangoJson (token : AuthToken) : Except AuthError (List Char) :=
  match Libraries.toText token with
  | none => .error .invalidCredential
  | some value => .ok (Ascii.escape value.toList)

/-- `rsplit_once`: what stands before and after the last separator. -/
def rsplitOnce (separator : Char) (value : List Char) : Option (List Char × List Char) :=
  match value.reverse.dropWhile (· ≠ separator) with
  | [] => none
  | _ :: before => some (before.reverse, (value.reverse.takeWhile (· ≠ separator)).reverse)

/-- `EncodedCredential::new` refuses an empty text. -/
def encodedCredential (value : List Char) : Except AuthError String :=
  if value.isEmpty then .error .invalidCredential else .ok (String.ofList value)

/-- The token of a payload that was signed at `seconds`. -/
def signedToken (seconds : ℤ) (bytes : List UInt8) : Except AuthError AuthToken :=
  match Libraries.fromSlice bytes with
  | none => .error .invalidCredential
  | some token => do
    let issuedAt ← timestamp token.issuedAt
    if unixSeconds issuedAt ≠ seconds then .error .invalidCredential else .ok token

namespace DjangoCodec

def encodeInner (codec : DjangoCodec) (token : AuthToken) : Except AuthError String := do
  let payload ← djangoJson token
  let payload ← encodePayload (utf8 payload) codec.compress
  let issuedAt ← timestamp token.issuedAt
  let seconds ← base62Encode (unixSeconds issuedAt)
  let value := payload ++ codec.separator :: seconds
  encodedCredential (value ++ codec.separator :: signature codec.active codec.salt value)

def decodeInner (codec : DjangoCodec) (value : String) : Except AuthError AuthToken :=
  match rsplitOnce codec.separator value.toList with
  | none => .error .invalidCredential
  | some (signed, supplied) =>
    if !codec.verification.any (fun key => decide (signature key codec.salt signed = supplied)) then
      .error .invalidCredential
    else
      match rsplitOnce codec.separator signed with
      | none => .error .invalidCredential
      | some (payload, seconds) => do
        let seconds ← base62Decode seconds
        let bytes ← decodePayload payload
        signedToken seconds bytes

end DjangoCodec

end

/-! ### Base 62 -/

theorem idxOf_base62 : ∀ position < 62, (base62[position]?.bind fun c => base62.idxOf? c) = some position := by
  decide

theorem base62Char_eq {position : ℕ} (h : position < 62) :
    ∃ c ∈ base62, base62Char position = .ok c ∧ base62.idxOf? c = some position := by
  obtain ⟨c, hc, hposition⟩ := Option.bind_eq_some_iff.mp (idxOf_base62 position h)
  refine ⟨c, List.mem_of_getElem? hc, ?_, hposition⟩
  rw [base62Char, hc]
  rfl

theorem pushDigit_eq {output digit : ℕ} {c : Char} (hc : base62.idxOf? c = some digit)
    (hbound : output * 62 + digit < 2 ^ 64) : pushDigit output c = .ok (output * 62 + digit) := by
  rw [pushDigit, hc]
  dsimp only
  rw [checked, if_pos (by omega), Option.bind_some, checked, if_pos hbound, Option.elim_some]

/-- Digits, the least first, are read back as their number. -/
theorem foldlM_digits {digits : List ℕ} (hdigits : ∀ digit ∈ digits, digit < 62)
    (hbound : Nat.ofDigits 62 digits < 2 ^ 64) :
    ∃ chars, digits.reverse.mapM base62Char = .ok chars ∧
      chars.foldlM pushDigit 0 = .ok (Nat.ofDigits 62 digits) ∧ ∀ c ∈ chars, c ∈ base62 := by
  induction digits with
  | nil => exact ⟨[], rfl, rfl, fun _ hmem => nomatch hmem⟩
  | cons digit digits ih =>
    obtain ⟨hdigit, hrest⟩ := List.forall_mem_cons.mp hdigits
    rw [Nat.ofDigits_cons] at hbound ⊢
    obtain ⟨chars, hchars, hfold, hmem⟩ := ih hrest (by omega)
    obtain ⟨c, hc, hchar, hposition⟩ := base62Char_eq hdigit
    refine ⟨chars ++ [c], ?_, ?_, ?_⟩
    · rw [List.reverse_cons, List.mapM_append, hchars]
      refine Step.except_bind_ok.mpr ⟨chars, rfl, Step.except_bind_ok.mpr ⟨[c], ?_, rfl⟩⟩
      rw [List.mapM_cons, hchar]
      rfl
    · rw [List.foldlM_append, hfold]
      refine Step.except_bind_ok.mpr ⟨_, rfl, ?_⟩
      rw [List.foldlM_cons, pushDigit_eq hposition (by omega), Nat.add_comm, Nat.mul_comm]
      rfl
    · intro other hother
      rcases List.mem_append.mp hother with hother | hother
      · exact hmem other hother
      · rw [List.mem_singleton.mp hother]
        exact hc

/-- A timestamp is read back from its digits, which are digits and letters. -/
theorem base62Decode_encode {value : ℤ} (hpos : 0 ≤ value) (hbound : value < 2 ^ 63) :
    ∃ chars, base62Encode value = .ok chars ∧ base62Decode chars = .ok value ∧ ∀ c ∈ chars, c ∈ base62 := by
  rw [base62Encode, if_neg (not_lt.mpr hpos)]
  by_cases hzero : value = 0
  · subst hzero
    exact ⟨['0'], rfl, by decide, List.forall_mem_singleton.mpr (by decide)⟩
  · have hvalue : Nat.ofDigits 62 (Nat.digits 62 value.toNat) = value.toNat := Nat.ofDigits_digits 62 _
    obtain ⟨chars, hchars, hfold, hmem⟩ := foldlM_digits
      (fun digit hdigit => Nat.digits_lt_base (by decide) hdigit) (hvalue.trans_lt (by omega))
    rw [if_neg hzero]
    refine ⟨chars, hchars, ?_, hmem⟩
    rw [base62Decode, hfold, hvalue]
    refine Step.except_bind_ok.mpr ⟨_, rfl, ?_⟩
    rw [if_pos (by omega), Int.toNat_of_nonneg hpos]

/-! ### The separator -/

theorem rsplitOnce_append {separator : Char} {before after : List Char} (h : separator ∉ after) :
    rsplitOnce separator (before ++ separator :: after) = some (before, after) := by
  have hafter : ∀ c ∈ after.reverse, decide (c ≠ separator) = true := by
    intro c hc
    refine decide_eq_true ?_
    rintro rfl
    exact h (List.mem_reverse.mp hc)
  have hback : (before ++ separator :: after).reverse = after.reverse ++ separator :: before.reverse := by
    rw [List.reverse_append, List.reverse_cons, List.append_assoc, List.singleton_append]
  rw [rsplitOnce, hback, List.dropWhile_append_of_pos hafter, List.takeWhile_append_of_pos hafter,
    List.dropWhile_cons_of_neg (by simp), List.takeWhile_cons_of_neg (by simp)]
  simp

section

variable {separator : Char}

/-- A separator is no digit or letter, and none of the other characters of Base64. -/
theorem validateSeparator_ok (h : validateSeparator separator = .ok ()) :
    separator ∉ base62 ∧ Base64.isAlphabet separator = false := by
  rw [validateSeparator] at h
  split at h
  next => exact nomatch h
  next hchecks =>
    simp only [Bool.or_eq_true, decide_eq_true_eq, not_or] at hchecks
    obtain ⟨⟨halphanumeric, hhyphen⟩, hunderscore⟩ := hchecks
    have hall : ∀ c ∈ base62, isAsciiAlphanumeric c = true := List.all_eq_true.mp (by decide)
    refine ⟨fun hmem => halphanumeric (hall _ hmem), ?_⟩
    simp only [isAsciiAlphanumeric, Bool.or_eq_true, Bool.and_eq_true, decide_eq_true_eq, not_or] at halphanumeric
    rw [Base64.isAlphabet, Base64.valueOf, if_neg (by omega), if_neg (by omega), if_neg (by omega),
      if_neg hhyphen, if_neg hunderscore]
    rfl

theorem notMem_encode (h : validateSeparator separator = .ok ()) (bytes : List UInt8) :
    separator ∉ Base64.encode bytes := by
  intro hmem
  exact nomatch (validateSeparator_ok h).2.symm.trans (Base64.isAlphabet_of_mem_encode bytes separator hmem)

end

/-! ### Round trips -/

section

variable [Libraries]

/-- What is inflated is what was deflated. -/
def ZlibRoundTrips : Prop :=
  ∀ bytes, ∃ compressed, Libraries.deflate bytes = some compressed ∧
    ∀ limit, Libraries.inflate limit compressed = some (bytes.take limit)

omit [Libraries] in
/-- A payload that is not compressed has no mark. -/
theorem stripMark_encode (bytes : List UInt8) :
    stripMark (Base64.encode bytes) = (false, Base64.encode bytes) := by
  have hmark : '.' ∉ Base64.encode bytes := notMem_encode (by decide) bytes
  cases hencoded : Base64.encode bytes with
  | nil => rfl
  | cons c rest =>
    rw [hencoded] at hmark
    rw [stripMark]
    rintro _ heq
    exact hmark ((List.cons.inj heq).1 ▸ List.mem_cons_self)

theorem decodePayload_plain (bytes : List UInt8) : decodePayload (Base64.encode bytes) =
    if bytes.length ≤ maxDecodedPayloadBytes then .ok bytes else .error .invalidCredential := by
  rw [decodePayload, stripMark_encode, Base64.decode_encode]
  dsimp only
  by_cases hlength : bytes.length ≤ maxDecodedPayloadBytes
  · rw [if_neg (not_lt.mpr hlength), if_pos hlength]
    rfl
  · rw [if_pos (not_le.mp hlength), if_neg hlength]

theorem decodePayload_compressed {bytes compressed : List UInt8}
    (hinflate : ∀ limit, Libraries.inflate limit compressed = some (bytes.take limit))
    (hless : compressed.length + 1 < bytes.length) : decodePayload ('.' :: Base64.encode compressed) =
      if bytes.length ≤ maxDecodedPayloadBytes then .ok bytes else .error .invalidCredential := by
  rw [decodePayload, stripMark, Base64.decode_encode]
  dsimp only
  rw [hinflate]
  dsimp only
  by_cases hlength : bytes.length ≤ maxDecodedPayloadBytes
  · rw [if_neg (by omega), if_neg (by simp), List.take_of_length_le (by omega), if_neg (not_lt.mpr hlength),
      if_pos hlength]
  · have htaken : (bytes.take (maxDecodedPayloadBytes + 1)).length > maxDecodedPayloadBytes := by
      rw [List.length_take]
      omega
    rw [if_neg hlength]
    by_cases hlong : compressed.length > maxDecodedPayloadBytes
    · rw [if_pos hlong]
    · rw [if_neg hlong, if_neg (by simp), if_pos htaken]

/-- A payload up to the limit is read back, compressed or not; a longer one is refused. -/
theorem decodePayload_encodePayload (hzlib : ZlibRoundTrips) (bytes : List UInt8) (compress : Bool) :
    ∃ payload, encodePayload bytes compress = .ok payload ∧ decodePayload payload =
      if bytes.length ≤ maxDecodedPayloadBytes then .ok bytes else .error .invalidCredential := by
  obtain ⟨compressed, hdeflate, hinflate⟩ := hzlib bytes
  rw [encodePayload]
  cases compress with
  | false => exact ⟨_, rfl, decodePayload_plain bytes⟩
  | true =>
    rw [if_neg (by decide), hdeflate]
    dsimp only
    by_cases hless : compressed.length + 1 < bytes.length
    · rw [if_pos hless]
      exact ⟨_, rfl, decodePayload_compressed hinflate hless⟩
    · rw [if_neg hless]
      exact ⟨_, rfl, decodePayload_plain bytes⟩

omit [Libraries] in
theorem timestamp_eq {seconds : ℤ} (hpos : 0 ≤ seconds) (hlatest : seconds * 1000000000 ≤ maxUtc) :
    timestamp seconds = .ok (seconds * 1000000000) ∧ unixSeconds (seconds * 1000000000) = seconds := by
  have hmin : (minUtc : ℤ) ≤ 0 := by decide
  constructor
  · rw [timestamp, if_pos ⟨hmin.trans (mul_nonneg hpos (by decide)), hlatest⟩]
  · rw [unixSeconds]
    omega

variable {codec : DjangoCodec} {token : AuthToken}

/-- What is encoded is decoded as far as its payload. -/
theorem decodeInner_encodeInner (hseparator : validateSeparator codec.separator = .ok ())
    (hactive : codec.active ∈ codec.verification) (hissued : 0 ≤ token.issuedAt)
    (hlatest : token.issuedAt * 1000000000 ≤ maxUtc) (hzlib : ZlibRoundTrips) {text : String}
    (htext : Libraries.toText token = some text) :
    ∃ value, codec.encodeInner token = .ok value ∧ codec.decodeInner value =
      if (utf8 (Ascii.escape text.toList)).length ≤ maxDecodedPayloadBytes then
        signedToken token.issuedAt (utf8 (Ascii.escape text.toList))
      else .error .invalidCredential := by
  obtain ⟨payload, hencode, hdecode⟩ :=
    decodePayload_encodePayload hzlib (utf8 (Ascii.escape text.toList)) codec.compress
  obtain ⟨htimestamp, hseconds⟩ := timestamp_eq hissued hlatest
  have hmax : (maxUtc : ℤ) < 2 ^ 63 * 1000000000 := by decide
  have hbound : token.issuedAt < 2 ^ 63 := lt_of_mul_lt_mul_right (hlatest.trans_lt hmax) (by decide)
  obtain ⟨seconds, hbase62, hread, hdigits⟩ := base62Decode_encode hissued hbound
  obtain ⟨hbase, -⟩ := validateSeparator_ok hseparator
  have hjson : djangoJson token = .ok (Ascii.escape text.toList) := by rw [djangoJson, htext]
  generalize hvalue : payload ++ codec.separator :: seconds = value
  generalize hsignature : signature codec.active codec.salt value = supplied
  have hsupplied : codec.separator ∉ supplied := by
    rw [← hsignature]
    exact notMem_encode hseparator _
  have hverified : (codec.verification.any fun key => decide (signature key codec.salt value = supplied)) = true :=
    List.any_eq_true.mpr ⟨codec.active, hactive, decide_eq_true hsignature⟩
  refine ⟨String.ofList (value ++ codec.separator :: supplied), ?_, ?_⟩
  · rw [DjangoCodec.encodeInner, hjson]
    refine Step.except_bind_ok.mpr ⟨_, rfl, Step.except_bind_ok.mpr ⟨payload, hencode, ?_⟩⟩
    refine Step.except_bind_ok.mpr ⟨_, htimestamp, ?_⟩
    rw [hseconds]
    refine Step.except_bind_ok.mpr ⟨seconds, hbase62, ?_⟩
    dsimp only
    rw [hvalue, hsignature, encodedCredential, if_neg (by simp)]
  · rw [DjangoCodec.decodeInner, String.toList_ofList, rsplitOnce_append hsupplied]
    dsimp only
    rw [hverified, if_neg (by decide), ← hvalue, rsplitOnce_append fun hmem => hbase (hdigits _ hmem)]
    dsimp only
    rw [hread, hdecode]
    split <;> rfl

/-- A token whose time of issue is out of `chrono`'s range is not encoded. -/
theorem encodeInner_late (hzlib : ZlibRoundTrips) {text : String} (htext : Libraries.toText token = some text)
    {err : AuthError} (hlate : timestamp token.issuedAt = .error err) :
    codec.encodeInner token = .error err := by
  obtain ⟨payload, hencode, -⟩ :=
    decodePayload_encodePayload hzlib (utf8 (Ascii.escape text.toList)) codec.compress
  have hjson : djangoJson token = .ok (Ascii.escape text.toList) := by rw [djangoJson, htext]
  rw [DjangoCodec.encodeInner, hjson, hlate]
  change (encodePayload _ codec.compress >>= _) = _
  rw [hencode]
  rfl

/-- `serde_json` writes a token as a text that it reads as the token again, however the characters outside
    ASCII are escaped in it. -/
structure SerdeRoundTrips (token : AuthToken) (text : String) : Prop where
  writes : Libraries.toText token = some text
  written : Ascii.Written text.toList
  reads : ∀ escaped, Ascii.Unescapes escaped text.toList → Libraries.fromSlice (utf8 escaped) = some token

/-- A token is read back from its encoding, with any separator and any keys, when its JSON in ASCII is within
    the limit and its time of issue is one that `chrono` represents. -/
theorem encoded_token_decodes (hseparator : validateSeparator codec.separator = .ok ())
    (hactive : codec.active ∈ codec.verification) (hissued : 0 ≤ token.issuedAt)
    (hlatest : token.issuedAt * 1000000000 ≤ maxUtc) (hzlib : ZlibRoundTrips) {text : String}
    (hserde : SerdeRoundTrips token text)
    (hsize : (utf8 (Ascii.escape text.toList)).length ≤ maxDecodedPayloadBytes) :
    ∃ value, codec.encodeInner token = .ok value ∧ codec.decodeInner value = .ok token := by
  obtain ⟨value, hencode, hdecode⟩ :=
    decodeInner_encodeInner hseparator hactive hissued hlatest hzlib hserde.writes
  obtain ⟨htimestamp, hseconds⟩ := timestamp_eq hissued hlatest
  refine ⟨value, hencode, ?_⟩
  rw [hdecode, if_pos hsize, signedToken, hserde.reads _ hserde.written.unescapes]
  refine Step.except_bind_ok.mpr ⟨_, htimestamp, ?_⟩
  rw [hseconds, if_neg fun h => h rfl]

end

/-! ### Three tokens -/

/-- A token of a given time and payload. -/
def someToken (issuedAt : ℤ) (payload : String) : AuthToken where
  version := 2
  provider := ⟨"main", validProviderId_main⟩
  kind := .access
  subject := "ada"
  scopes := []
  audiences := none
  issuedAt := issuedAt
  authTime := none
  authenticationMethods := []
  authenticationClass := none
  notBefore := none
  expiresAt := 1700003600
  tokenId := none
  familyId := none
  issuer := none
  legacyBinding := none
  payload := payload

/-- Its JSON, with the digits of the time. -/
def someText (issuedAt payload : String) : String :=
  "\x7b\"version\":2,\"prv\":\"main\",\"kind\":\"access\",\"sub\":\"ada\",\"iat\":" ++ issuedAt ++
    ",\"exp\":1700003600,\"payload\":" ++ payload ++ "\x7d"

open Classical in
/-- Libraries that know one token; nothing is compressed. -/
@[reducible] noncomputable def oneTokenLibraries (token : AuthToken) (text : String) : Libraries where
  digest bytes := bytes
  sign key value := key ++ value
  deflate bytes := some (0 :: bytes)
  inflate limit bytes := some ((bytes.drop 1).take limit)
  toText other := if other = token then some text else none
  fromSlice bytes :=
    if ∃ escaped, Ascii.Unescapes escaped text.toList ∧ utf8 escaped = bytes then some token else none

section

variable {token : AuthToken} {text : String}

theorem oneToken_zlib : @ZlibRoundTrips (oneTokenLibraries token text) :=
  fun bytes => ⟨0 :: bytes, rfl, fun _ => rfl⟩

theorem oneToken_serde (h : '\\' ∉ text.toList) :
    @SerdeRoundTrips (oneTokenLibraries token text) token text := by
  let _ := oneTokenLibraries token text
  have hplain : ∀ c ∈ text.toList, c ≠ '\\' := by
    rintro c hmem rfl
    exact h hmem
  exact ⟨if_pos rfl, .of_forall hplain, fun escaped hescaped => if_pos ⟨escaped, hescaped, rfl⟩⟩

end

/-- Two keys, of which the second is active, and the mark of compression as the separator. -/
def dotCodec : DjangoCodec := ⟨[2], [[1], [2]], "django.core.signing", '.', true⟩

theorem encoded_token_decodes_smile :
    let _ := oneTokenLibraries (someToken 1700000000 "\"😀\"") (someText "1700000000" "\"😀\"")
    ∃ value, dotCodec.encodeInner (someToken 1700000000 "\"😀\"") = .ok value ∧
      dotCodec.decodeInner value = .ok (someToken 1700000000 "\"😀\"") := by
  let _ := oneTokenLibraries (someToken 1700000000 "\"😀\"") (someText "1700000000" "\"😀\"")
  exact encoded_token_decodes (by decide) (by decide) (by decide) (by decide) oneToken_zlib
    (oneToken_serde (by decide +kernel)) (by decide +kernel)

/-- The JSON of such a token up to its payload. -/
def opening : List Char := (someText "1700000000" "\"").toList.dropLast

def accents (count : ℕ) : List Char := '"' :: List.replicate count 'é' ++ ['"']

/-- The JSON of a token whose payload is a text of accented letters. -/
def accentedText (count : ℕ) : List Char := opening ++ List.replicate count 'é' ++ ['"', '\x7d']

theorem sum_accented (f : Char → ℕ) (count : ℕ) : ((accentedText count).map f).sum =
    (opening.map f).sum + count * f 'é' + (['"', '\x7d'].map f).sum := by
  rw [accentedText]
  generalize opening = before
  generalize ['"', '\x7d'] = after
  rw [List.map_append, List.map_append, List.sum_append, List.sum_append, List.map_replicate,
    List.sum_replicate_nat]

theorem length_utf8_escape (text : List Char) :
    (utf8 (Ascii.escape text)).length = (text.map fun c => (utf8 (Ascii.escapeChar c)).length).sum := by
  rw [utf8, Ascii.escape, List.flatMap_assoc, List.length_flatMap]
  rfl

theorem accented_plain (count : ℕ) : '\\' ∉ accentedText count := by
  intro hmem
  rw [accentedText] at hmem
  rcases List.mem_append.mp hmem with hmem | hmem
  · rcases List.mem_append.mp hmem with hmem | hmem
    · exact absurd hmem (by decide +kernel)
    · exact absurd (List.eq_of_mem_replicate hmem) (by decide)
  · exact absurd hmem (by decide)

/-- The sizes of the JSON of an accented token, and of that in ASCII. -/
theorem length_accented (count : ℕ) : (utf8 (accentedText count)).length = 101 + 2 * count ∧
    (utf8 (Ascii.escape (accentedText count))).length = 101 + 6 * count := by
  constructor
  · have hopening : (opening.map Char.utf8Size).sum = 99 := by decide +kernel
    have hletter : 'é'.utf8Size = 2 := by decide
    have hclosing : (['"', '\x7d'].map Char.utf8Size).sum = 2 := by decide
    rw [length_utf8, sum_accented, hopening, hletter, hclosing]
    omega
  · have hopening : (opening.map fun c => (utf8 (Ascii.escapeChar c)).length).sum = 99 := by decide +kernel
    have hletter : (utf8 (Ascii.escapeChar 'é')).length = 6 := by decide
    have hclosing : (['"', '\x7d'].map fun c => (utf8 (Ascii.escapeChar c)).length).sum = 2 := by decide
    rw [length_utf8_escape, sum_accented, hopening, hletter, hclosing]
    omega

/-- A token whose JSON is within the limit, but not in ASCII, is encoded and then refused; one whose time of
    issue `chrono` does not represent is not encoded. -/
theorem accented_token_is_refused :
    (∃ (_ : Libraries) (token : AuthToken) (text value : String), 0 ≤ token.issuedAt ∧ ZlibRoundTrips ∧
      SerdeRoundTrips token text ∧ (utf8 text.toList).length ≤ maxDecodedPayloadBytes ∧
      validateSeparator dotCodec.separator = .ok () ∧ dotCodec.active ∈ dotCodec.verification ∧
      dotCodec.encodeInner token = .ok value ∧ dotCodec.decodeInner value = .error .invalidCredential) ∧
    ∃ (_ : Libraries) (token : AuthToken) (text : String), 0 ≤ token.issuedAt ∧ token.issuedAt < 2 ^ 63 ∧
      ZlibRoundTrips ∧ SerdeRoundTrips token text ∧
      (utf8 (Ascii.escape text.toList)).length ≤ maxDecodedPayloadBytes ∧
      dotCodec.encodeInner token = .error .invalidCredential := by
  constructor
  · generalize hcount : 3000 = count
    let _ := oneTokenLibraries (someToken 1700000000 (String.ofList (accents count)))
      (String.ofList (accentedText count))
    obtain ⟨hraw, hescaped⟩ := length_accented count
    have hserde : SerdeRoundTrips (someToken 1700000000 (String.ofList (accents count)))
        (String.ofList (accentedText count)) := by
      refine oneToken_serde ?_
      rw [String.toList_ofList]
      exact accented_plain count
    obtain ⟨value, hencode, hdecode⟩ := @decodeInner_encodeInner _ dotCodec _ (by decide) (by decide)
      (show 0 ≤ (someToken 1700000000 _).issuedAt by exact (by decide : (0 : ℤ) ≤ 1700000000))
      (show (someToken 1700000000 _).issuedAt * 1000000000 ≤ maxUtc by
        exact (by decide : (1700000000 * 1000000000 : ℤ) ≤ maxUtc)) oneToken_zlib _ hserde.writes
    rw [String.toList_ofList, if_neg (by rw [hescaped, maxDecodedPayloadBytes]; omega)] at hdecode
    refine ⟨_, _, _, value, (by decide : (0 : ℤ) ≤ 1700000000), oneToken_zlib, hserde, ?_, by decide, by decide,
      hencode, hdecode⟩
    rw [String.toList_ofList, hraw, maxDecodedPayloadBytes]
    omega
  · let _ := oneTokenLibraries (someToken 9223372036854775807 "1") (someText "9223372036854775807" "1")
    have hserde : SerdeRoundTrips (someToken 9223372036854775807 "1") (someText "9223372036854775807" "1") :=
      oneToken_serde (by decide +kernel)
    have hlate : timestamp (someToken 9223372036854775807 "1").issuedAt = .error .invalidCredential :=
      if_neg fun h => absurd h.2 (by decide)
    exact ⟨_, _, _, (by decide : (0 : ℤ) ≤ 9223372036854775807),
      (by decide : (9223372036854775807 : ℤ) < 2 ^ 63), oneToken_zlib, hserde, by decide +kernel,
      encodeInner_late oneToken_zlib hserde.writes hlate⟩

end Vyuh.Auth.Django
