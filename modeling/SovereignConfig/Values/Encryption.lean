/-
`encryption.rs`: the envelope a secret is stored in, authenticated with the id and the
classification of the row. The AEAD is a structure that carries what is assumed of it, as the
engine of the base64 it is written in is.
-/
import SovereignConfig.Audit
import SovereignConfig.Lib.Base64
import SovereignConfig.Lib.Decimal

namespace SovereignConfig.Values

open Lib Text

structure Aead where
  encrypt : (nonce aad msg : List UInt8) → Option (List UInt8)
  decrypt : (nonce aad ciphertext : List UInt8) → Option (List UInt8)
  opens_sealed : ∀ nonce aad msg ciphertext,
    decrypt nonce aad ciphertext = some msg ↔ encrypt nonce aad msg = some ciphertext
  /-- What was sealed with one associated data is not accepted with another. -/
  bound : ∀ nonce aad aad' msg msg' ciphertext, encrypt nonce aad msg = some ciphertext →
    encrypt nonce aad' msg' = some ciphertext → aad = aad'
  tagged : ∀ nonce aad msg ciphertext, encrypt nonce aad msg = some ciphertext → ciphertext ≠ []

inductive DecryptError where
  | NotEncrypted
  | Malformed
  | Unauthenticated
  | NotUtf8
deriving DecidableEq

def ENVELOPE_PREFIX : Text := "enc:v1:".toList

def NONCE_LEN : ℕ := 24

abbrev XNonce : Type := Vector UInt8 NONCE_LEN

def classification_text : Classification → Text
  | .PLAIN => "plain".toList
  | .SECRET => "secret".toList

def associated_data (content_id : ℕ) (classification : Classification) : Text :=
  "sovereign-config:value:v1:".toList ++ format_int content_id ++ ':' ::
    classification_text classification

structure ValueCipher where
  cipher : Aead
  engine : Base64.Engine

namespace ValueCipher

def encrypt (self : ValueCipher) (nonce : Option XNonce) (content_id : ℕ)
    (classification : Classification) (plaintext : Text) : Option Text := do
  let nonce_bytes ← nonce
  let aad := associated_data content_id classification
  let ciphertext ← self.cipher.encrypt nonce_bytes.toList (as_bytes aad) (as_bytes plaintext)
  return ENVELOPE_PREFIX ++ self.engine.encode (nonce_bytes.toList ++ ciphertext)

def decrypt (self : ValueCipher) (content_id : ℕ) (classification : Classification)
    (stored : Text) : Except DecryptError Text := do
  let encoded ← (strip_prefix_of stored ENVELOPE_PREFIX).elim (.error .NotEncrypted) .ok
  let envelope ← (self.engine.decode encoded).elim (.error .Malformed) .ok
  if envelope.length ≤ NONCE_LEN then .error .Malformed
  else
    let nonce_bytes := envelope.take NONCE_LEN
    let ciphertext := envelope.drop NONCE_LEN
    let aad := associated_data content_id classification
    let plaintext ← (self.cipher.decrypt nonce_bytes (as_bytes aad) ciphertext).elim
      (.error .Unauthenticated) .ok
    (from_utf8 plaintext).elim (.error .NotUtf8) .ok

variable {self : ValueCipher} {nonce : Option XNonce} {id : ℕ}
  {classification : Classification} {plaintext envelope : Text}

theorem encrypt_eq_some (h : self.encrypt nonce id classification plaintext = some envelope) :
    ∃ nonce_bytes ciphertext, nonce_bytes.length = NONCE_LEN ∧
      self.cipher.encrypt nonce_bytes (as_bytes (associated_data id classification))
        (as_bytes plaintext) = some ciphertext ∧
      envelope = ENVELOPE_PREFIX ++ self.engine.encode (nonce_bytes ++ ciphertext) := by
  simp only [encrypt, Option.bind_eq_bind, Option.bind_eq_some_iff, Option.pure_def,
    Option.some.injEq] at h
  obtain ⟨bytes, _, ciphertext, hsea, rfl⟩ := h
  exact ⟨bytes.toList, ciphertext, Vector.length_toList, hsea, rfl⟩

theorem decrypt_envelope {nonce_bytes ciphertext : List UInt8} (content_id : ℕ)
    (classification : Classification) (hlen : nonce_bytes.length = NONCE_LEN)
    (hne : ciphertext ≠ []) :
    self.decrypt content_id classification
        (ENVELOPE_PREFIX ++ self.engine.encode (nonce_bytes ++ ciphertext)) =
      (self.cipher.decrypt nonce_bytes (as_bytes (associated_data content_id classification))
        ciphertext).elim (.error .Unauthenticated)
          fun plaintext => (from_utf8 plaintext).elim (.error .NotUtf8) .ok := by
  have hlon : ¬ (nonce_bytes ++ ciphertext).length ≤ NONCE_LEN := by
    have := List.length_pos_iff.mpr hne
    rw [List.length_append]
    omega
  rw [decrypt, strip_prefix_eq_some.mpr rfl]
  simp only [Option.elim_some, bind, Except.bind, self.engine.decode_encode, if_neg hlon,
    List.take_left' hlen, List.drop_left' hlen]
  cases self.cipher.decrypt nonce_bytes (as_bytes (associated_data content_id classification))
    ciphertext <;> rfl

theorem decrypt_encrypt (h : self.encrypt nonce id classification plaintext = some envelope) :
    self.decrypt id classification envelope = .ok plaintext := by
  obtain ⟨nonce_bytes, ciphertext, hlen, hsea, rfl⟩ := encrypt_eq_some h
  rw [decrypt_envelope _ _ hlen (self.cipher.tagged _ _ _ _ hsea),
    (self.cipher.opens_sealed _ _ _ _).mpr hsea, Option.elim_some, from_utf8_as_bytes]
  rfl

end ValueCipher

variable {classification classification' : Classification} {id id' : ℕ}

theorem associated_data_id
    (h : associated_data id classification = associated_data id' classification') : id = id' := by
  have hspl : ∀ (n : ℕ) (tail : Text),
      split_once ':' (format_int n ++ ':' :: tail) = some (format_int n, tail) := by
    intro n tail
    refine split_once_append tail (fun hmem => ?_)
    rcases mem_format_int hmem with hc | hc <;> exact absurd hc (by decide)
  unfold associated_data at h
  rw [List.append_assoc, List.append_assoc] at h
  have htai := congrArg (split_once ':') (List.append_cancel_left h)
  rw [hspl, hspl, Option.some.injEq, Prod.mk.injEq] at htai
  have hpar := congrArg parse_int htai.1
  rw [parse_format_int, parse_format_int, Option.some.injEq] at hpar
  exact_mod_cast hpar

theorem ValueCipher.decrypt_other {self : ValueCipher} {nonce : Option XNonce}
    {plaintext envelope : Text}
    (h : self.encrypt nonce id classification plaintext = some envelope) (hne : id' ≠ id) :
    self.decrypt id' classification' envelope = .error .Unauthenticated := by
  obtain ⟨nonce_bytes, ciphertext, hlen, hsea, rfl⟩ := self.encrypt_eq_some h
  rw [decrypt_envelope _ _ hlen (self.cipher.tagged _ _ _ _ hsea)]
  cases hope : self.cipher.decrypt nonce_bytes (as_bytes (associated_data id' classification'))
    ciphertext with
  | none => rfl
  | some msg =>
    have hres := (self.cipher.opens_sealed _ _ _ _).mp hope
    have hdat := as_bytes_injective (self.cipher.bound _ _ _ _ _ _ hres hsea)
    exact absurd (associated_data_id hdat) hne

end SovereignConfig.Values
