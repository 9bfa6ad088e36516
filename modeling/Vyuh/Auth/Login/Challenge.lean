import Vyuh.Auth.Identity
import Vyuh.Auth.Secrets
import Vyuh.Json.Bytes
import Vyuh.Lib.Step

/-! Sealed login state and challenges (`auth/login/challenge.rs`, `auth/login/model.rs`). What a login
    has to remember between its two requests travels with the client, sealed; the codec bounds what it
    seals and what it opens. -/

namespace Vyuh.Auth

open Lib Json

def maxStatePayloadBytes : ℕ := 16 * 1024
def maxEncodedStateBytes : ℕ := 24 * 1024

/-- `LoginMethodId::new` refuses a value that is not valid. -/
def LoginMethodId := { value : String // validProviderId value = true }
  deriving DecidableEq

def LoginMethodId.asStr (id : LoginMethodId) : String := id.val

/-- The provider that will issue the credentials, and for whom. -/
structure LoginTarget where
  provider : ProviderId
  audiences : List AudienceId
  deriving DecidableEq

structure SealedLoginState where
  version : ℕ
  stateId : String
  method : String
  target : LoginTarget
  expiresAt : ℤ
  payload : Value ℤ

def LoginTarget.toValue (target : LoginTarget) : Value ℤ :=
  .object [("provider", .string target.provider.asStr),
    ("audiences", .array (target.audiences.map fun audience => .string audience.asStr))]

def SealedLoginState.toValue (state : SealedLoginState) : Value ℤ :=
  .object [("version", .number state.version), ("state_id", .string state.stateId),
    ("method", .string state.method), ("target", state.target.toValue),
    ("expires_at", .number state.expiresAt), ("payload", state.payload)]

/-- `serde_json::from_slice` of a login state. -/
class StateText where
  fromSlice : List UInt8 → Option SealedLoginState

/-! ### The codec -/

structure ChallengeCodec (κ : Type) where
  active : κ
  verification : List κ

/-- A password or a factor's answer. -/
abbrev PresentedSecret := String

def PresentedSecret.validate (secret : PresentedSecret) : Except AuthError Unit :=
  if secret.isEmpty || secret.utf8ByteSize > 4096 then .error .invalidCredential else .ok ()

namespace ChallengeCodec

variable {κ : Type} [Crypto κ]

def keyContext : String := "login-state-v1"

def new (secrets : SecretRing) : ChallengeCodec κ where
  active := secrets.derivedActive keyContext
  verification := secrets.derivedVerification keyContext

/-- Seals a state; there is no nonce when the generator of random numbers fails. -/
def sealState (codec : ChallengeCodec κ) (nonce : Option Nonce) (state : SealedLoginState) :
    Except AuthError String :=
  let payload := state.toValue.toVec
  if payload.length > maxStatePayloadBytes then .error .invalidLoginState
  else
    match nonce with
    | none => .error (.internal "login state randomness failed")
    | some nonce =>
      match Crypto.cipher.sealText codec.active nonce.val payload with
      | none => .error .invalidLoginState
      | some sealedText => .ok (String.ofList (sealedToken nonce.val sealedText))

/-- Opens a token with the first key that fits. -/
def openToken [StateText] (codec : ChallengeCodec κ) (token : String) :
    Except AuthError SealedLoginState :=
  if token.utf8ByteSize > maxEncodedStateBytes then .error .invalidLoginState
  else
    match splitToken nonceLength tagLength token.toList with
    | none => .error .invalidLoginState
    | some (nonce, sealedText) =>
      match Crypto.cipher.openWith codec.verification nonce sealedText with
      | none => .error .invalidLoginState
      | some opened =>
        if opened.length > maxStatePayloadBytes then .error .invalidLoginState
        else (StateText.fromSlice opened).elim (.error .invalidLoginState) .ok

variable {codec : ChallengeCodec κ} {nonce : Option Nonce} {state : SealedLoginState} {token : String}

theorem sealState_eq_ok : codec.sealState nonce state = .ok token ↔
    state.toValue.toVec.length ≤ maxStatePayloadBytes ∧ ∃ bytes sealedText, nonce = some bytes ∧
      Crypto.cipher.sealText codec.active bytes.val state.toValue.toVec = some sealedText ∧
      token = String.ofList (sealedToken bytes.val sealedText) := by
  simp only [sealState]
  split
  next hlong => exact ⟨fun h => (nomatch h), fun h => absurd h.1 (by omega)⟩
  next hshort =>
    cases nonce with
    | none => exact ⟨fun h => (nomatch h), fun ⟨_, _, _, h, _⟩ => nomatch h⟩
    | some bytes =>
      constructor
      · intro h
        dsimp only at h
        split at h
        · exact nomatch h
        next sealedText hsealed =>
          cases h
          exact ⟨by omega, bytes, sealedText, rfl, hsealed, rfl⟩
      · rintro ⟨-, _, sealedText, ⟨⟩, hsealed, rfl⟩
        dsimp only
        rw [hsealed]

/-- The token of a payload is a third longer than it, its nonce and its tag. -/
theorem byteSize_of_sealState (hlawful : (Crypto.cipher (κ := κ)).Lawful tagLength)
    (h : codec.sealState nonce state = .ok token) :
    token.utf8ByteSize = (4 * (state.toValue.toVec.length + 28) + 2) / 3 := by
  obtain ⟨-, bytes, sealedText, -, hsealed, rfl⟩ := sealState_eq_ok.mp h
  have hbytes : bytes.val.length = 12 := bytes.property
  rw [Cipher.utf8ByteSize_token hlawful hsealed, hbytes]
  simp only [tagLength]
  congr 1
  omega

/-- A sealed state opens again: the bound on tokens leaves room for every payload that was sealed. -/
theorem openToken_sealState [StateText] (hlawful : (Crypto.cipher (κ := κ)).Lawful tagLength)
    (hfaithful : Crypto.cipher.Faithful codec.active codec.verification)
    (hactive : codec.active ∈ codec.verification)
    (hread : StateText.fromSlice state.toValue.toVec = some state)
    (h : codec.sealState nonce state = .ok token) : codec.openToken token = .ok state := by
  have hsize := byteSize_of_sealState hlawful h
  obtain ⟨hshort, bytes, sealedText, -, hsealed, rfl⟩ := sealState_eq_ok.mp h
  obtain ⟨hsplit, hopen⟩ := Cipher.openWith_splitToken hlawful hfaithful hactive hsealed state.toValue.toVec_ne_nil
  rw [bytes.property] at hsplit
  rw [openToken, if_neg (by rw [hsize]; simp only [maxStatePayloadBytes, maxEncodedStateBytes] at *; omega),
    String.toList_ofList, hsplit]
  dsimp only
  rw [hopen]
  dsimp only
  rw [if_neg (by omega), hread, Option.elim_some]

end ChallengeCodec

/-! ### Challenges -/

/-- A generated code with the seconds it remains valid. -/
structure OtpDelivery where
  code : String
  expiresIn : ℤ
  deriving DecidableEq, Repr

/-- What a login that takes another step answers with. -/
inductive LoginChallenge
  | redirect (url : String) (expiresIn : ℤ)
  | factor (token : String) (methods : List String) (expiresIn : ℤ)
  | magicLink (url : Option String) (expiresIn : ℤ)
  | code (token channel : String) (expiresIn resendIn : ℤ) (delivery : Option OtpDelivery)
  deriving DecidableEq, Repr

namespace LoginChallenge

/-- What a challenge gives the handler to deliver: a link or a code. -/
def material : LoginChallenge → Option String
  | magicLink url _ => url
  | code _ _ _ _ delivery => delivery.map OtpDelivery.code
  | _ => none

end LoginChallenge

end Vyuh.Auth
