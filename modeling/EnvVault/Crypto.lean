import EnvVault.Schema

/-!
# Envelope encryption

The local KMS provider wraps data encryption keys under the master key, and the
crypto service encrypts values under a wrapped key. AES-GCM is a parameter.
-/
namespace EnvVault

/-- The AEAD of the library: decryption undoes encryption under the same key and
nonce, and a ciphertext carries a tag of 16 bytes. -/
structure Aesgcm where
  encrypt : Bytes → Bytes → Bytes → Bytes
  decrypt : Bytes → Bytes → Bytes → Option Bytes
  decrypt_encrypt : ∀ key nonce plain, decrypt key nonce (encrypt key nonce plain) = some plain
  length_encrypt : ∀ key nonce plain, (encrypt key nonce plain).length = plain.length + 16

/-- What `os.urandom(12)` returns. -/
abbrev Nonce : Type := {b : Bytes // b.length = 12}

/-- What `os.urandom(32)` returns. -/
abbrev Dek : Type := {b : Bytes // b.length = 32}

inductive CryptoError : Type
  | wrappedDekTooShort
  | keyLength
  | invalidTag
  | notUtf8
deriving DecidableEq

structure LocalKMSProvider where
  aesgcm : Aesgcm
  masterKey : Bytes

namespace LocalKMSProvider
variable (kms : LocalKMSProvider)

/-- `[12-byte nonce] + [ciphertext] + [16-byte tag]`. -/
def encryptDek (nonce : Nonce) (plainDek : Bytes) : Bytes :=
  nonce.1 ++ kms.aesgcm.encrypt kms.masterKey nonce.1 plainDek

def decryptDek (wrappedDek : Bytes) : Except CryptoError Bytes :=
  if wrappedDek.length < 28 then .error .wrappedDekTooShort
  else match kms.aesgcm.decrypt kms.masterKey (wrappedDek.take 12) (wrappedDek.drop 12) with
    | some plainDek => .ok plainDek
    | none => .error .invalidTag

theorem decryptDek_encryptDek (nonce : Nonce) (plainDek : Bytes) :
    kms.decryptDek (kms.encryptDek nonce plainDek) = .ok plainDek := by
  have hlen : ¬ (kms.encryptDek nonce plainDek).length < 28 := by
    simp only [encryptDek, List.length_append, nonce.2, kms.aesgcm.length_encrypt]
    omega
  have htake : (kms.encryptDek nonce plainDek).take 12 = nonce.1 := by
    rw [encryptDek, List.take_left' nonce.2]
  have hdrop : (kms.encryptDek nonce plainDek).drop 12 =
      kms.aesgcm.encrypt kms.masterKey nonce.1 plainDek := by
    rw [encryptDek, List.drop_left' nonce.2]
  rw [decryptDek, if_neg hlen, htake, hdrop, kms.aesgcm.decrypt_encrypt]

end LocalKMSProvider

def encodeUtf8 (s : String) : Bytes := s.toUTF8.data.toList

def decodeUtf8 (b : Bytes) : Option String := String.fromUTF8? ⟨b.toArray⟩

theorem decodeUtf8_encodeUtf8 (s : String) : decodeUtf8 (encodeUtf8 s) = some s := by
  have h : (⟨s.toUTF8.data.toList.toArray⟩ : ByteArray) = s.toUTF8 := rfl
  rw [decodeUtf8, encodeUtf8, h]
  simp only [String.fromUTF8?, String.toUTF8_eq_toByteArray, dif_pos s.isValidUTF8]
  rfl

namespace CryptoService
variable (kms : LocalKMSProvider)

def createWrappedDek (plainDek : Dek) (nonce : Nonce) : Bytes := kms.encryptDek nonce plainDek.1

/-- `AESGCM(key)` accepts keys of 128, 192 and 256 bits. -/
def aesgcmKey (plainDek : Bytes) : Except CryptoError Bytes :=
  if plainDek.length ∈ [16, 24, 32] then .ok plainDek else .error .keyLength

/-- The ciphertext and the nonce it was made with. -/
def encryptSecret (plainValue : String) (wrappedDek : Bytes) (iv : Nonce) :
    Except CryptoError (Bytes × Bytes) := do
  let plainDek ← kms.decryptDek wrappedDek
  let key ← aesgcmKey plainDek
  return (kms.aesgcm.encrypt key iv.1 (encodeUtf8 plainValue), iv.1)

def decryptSecret (encryptedValue iv wrappedDek : Bytes) : Except CryptoError String := do
  let plainDek ← kms.decryptDek wrappedDek
  let key ← aesgcmKey plainDek
  match kms.aesgcm.decrypt key iv encryptedValue with
  | none => throw .invalidTag
  | some plainBytes =>
    match decodeUtf8 plainBytes with
    | none => throw .notUtf8
    | some plainValue => return plainValue

/-- A data encryption key wrapped by this provider. -/
def Wrapped (wrappedDek : Bytes) : Prop :=
  ∃ plainDek nonce, wrappedDek = createWrappedDek kms plainDek nonce

variable {kms}

theorem Wrapped.decryptDek {wrappedDek : Bytes} (h : Wrapped kms wrappedDek) :
    ∃ plainDek : Dek, kms.decryptDek wrappedDek = .ok plainDek.1 := by
  obtain ⟨plainDek, nonce, rfl⟩ := h
  exact ⟨plainDek, kms.decryptDek_encryptDek nonce plainDek.1⟩

theorem aesgcmKey_dek (plainDek : Dek) : aesgcmKey plainDek.1 = .ok plainDek.1 := by
  simp [aesgcmKey, plainDek.2]

/-- Under a wrapped key every value can be encrypted, with the given nonce. -/
theorem Wrapped.encryptSecret {wrappedDek : Bytes} (h : Wrapped kms wrappedDek)
    (plainValue : String) (iv : Nonce) :
    ∃ encryptedValue, encryptSecret kms plainValue wrappedDek iv = .ok (encryptedValue, iv.1) := by
  obtain ⟨plainDek, hdek⟩ := h.decryptDek
  refine ⟨kms.aesgcm.encrypt plainDek.1 iv.1 (encodeUtf8 plainValue), ?_⟩
  rw [CryptoService.encryptSecret, hdek]
  simp only [bind, Except.bind, aesgcmKey_dek]
  rfl

/-- Decryption under the same wrapped key returns what was encrypted. -/
theorem decryptSecret_encryptSecret {plainValue : String} {wrappedDek encryptedValue iv : Bytes}
    {nonce : Nonce} (h : encryptSecret kms plainValue wrappedDek nonce = .ok (encryptedValue, iv)) :
    decryptSecret kms encryptedValue iv wrappedDek = .ok plainValue := by
  rw [CryptoService.encryptSecret] at h
  cases hdek : kms.decryptDek wrappedDek with
  | error e => rw [hdek] at h; cases h
  | ok plainDek =>
    rw [hdek] at h
    cases hkey : aesgcmKey plainDek with
    | error e => simp [bind, Except.bind, hkey] at h
    | ok key =>
      simp only [bind, Except.bind, hkey, pure, Except.pure, Except.ok.injEq, Prod.mk.injEq] at h
      obtain ⟨rfl, rfl⟩ := h
      rw [decryptSecret, hdek]
      simp only [bind, Except.bind, hkey, kms.aesgcm.decrypt_encrypt, decodeUtf8_encodeUtf8]
      rfl

end CryptoService

end EnvVault
