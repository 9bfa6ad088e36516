import Vyuh.Lib.Cipher
import Vyuh.Lib.Coding

/-! The site secrets (`auth/codec.rs`): the active one seals and signs, and it or a fallback opens and
    verifies. Keys are derived from them for each purpose; key derivation, the cipher and the signatures
    are a library's, with keys `κ`. -/

namespace Vyuh.Auth

open Lib

/-- HKDF-SHA256, AES-256-GCM and HMAC-SHA256; every derived key has their length. -/
class Crypto (κ : Type) where
  deriveKey : List UInt8 → String → κ
  cipher : Cipher κ
  sign : κ → List UInt8 → List UInt8

def nonceLength : ℕ := 12
def tagLength : ℕ := 16

/-- A library whose keys are bytes and whose cipher hides nothing. -/
@[reducible]
def byteCrypto : Crypto UInt8 where
  deriveKey material _ := UInt8.ofNat material.length
  cipher := Cipher.tagged tagLength
  sign key text := key :: text

/-- A number used once under a key. -/
abbrev Nonce := { bytes : List UInt8 // bytes.length = nonceLength }

theorem zeros_length : (List.replicate 12 (0 : UInt8)).length = nonceLength := rfl

structure SecretRing where
  active : String
  fallbacks : List String
  deriving DecidableEq, Repr

namespace SecretRing

variable {κ : Type} [Crypto κ]

/-- The material of the site secrets; the active one comes first. -/
def verification (ring : SecretRing) : List String := ring.active :: ring.fallbacks

def deriveKey (material context : String) : κ := Crypto.deriveKey (utf8 material.toList) context

def derivedActive (ring : SecretRing) (context : String) : κ := deriveKey ring.active context

def derivedVerification (ring : SecretRing) (context : String) : List κ :=
  ring.verification.map fun material => deriveKey material context

theorem derivedActive_mem (ring : SecretRing) (context : String) :
    ring.derivedActive context ∈ (ring.derivedVerification context : List κ) :=
  List.mem_map_of_mem List.mem_cons_self

end SecretRing

end Vyuh.Auth
