import EnvVault.Crypto

/-!
# The envelope format

Over an ideal AEAD the decoders of the local KMS provider and of the crypto service
accept exactly what the encoders can produce, byte for byte.
-/
namespace EnvVault

/-- Only what was encrypted under the same key and nonce decrypts to a plaintext. -/
def Aesgcm.Ideal (aesgcm : Aesgcm) : Prop :=
  ∀ key nonce cipher plain, aesgcm.decrypt key nonce cipher = some plain →
    cipher = aesgcm.encrypt key nonce plain

theorem Aesgcm.Ideal.decrypt_iff {aesgcm : Aesgcm} (h : aesgcm.Ideal)
    {key nonce cipher plain : Bytes} :
    aesgcm.decrypt key nonce cipher = some plain ↔ cipher = aesgcm.encrypt key nonce plain := by
  constructor
  · exact h key nonce cipher plain
  · rintro rfl
    exact aesgcm.decrypt_encrypt key nonce plain

theorem decodeUtf8_eq_some {b : Bytes} {s : String} : decodeUtf8 b = some s ↔ b = encodeUtf8 s := by
  constructor
  · intro h
    unfold decodeUtf8 String.fromUTF8? at h
    split at h
    · rw [Option.some.injEq] at h
      subst h
      rfl
    · cases h
  · rintro rfl
    exact decodeUtf8_encodeUtf8 s

section
variable {kms : LocalKMSProvider}

/-- The bytes that unwrap to a key are those that wrapping it can produce. -/
theorem LocalKMSProvider.decryptDek_eq_ok (h : kms.aesgcm.Ideal) {wrappedDek plainDek : Bytes} :
    kms.decryptDek wrappedDek = .ok plainDek ↔
      ∃ nonce, wrappedDek = kms.encryptDek nonce plainDek := by
  constructor
  · intro hdec
    rw [decryptDek] at hdec
    split at hdec
    · cases hdec
    · rename_i hlen
      have hnonce : (wrappedDek.take 12).length = 12 := by
        rw [List.length_take]
        omega
      split at hdec
      · rename_i plain hplain
        obtain rfl : plain = plainDek := Except.ok.inj hdec
        refine ⟨⟨wrappedDek.take 12, hnonce⟩, ?_⟩
        rw [encryptDek, ← h.decrypt_iff.mp hplain, List.take_append_drop]
      · cases hdec
  · rintro ⟨nonce, rfl⟩
    exact kms.decryptDek_encryptDek nonce plainDek

/-- All other bytes raise. -/
theorem LocalKMSProvider.decryptDek_eq_error (h : kms.aesgcm.Ideal) {wrappedDek : Bytes} :
    (∃ e, kms.decryptDek wrappedDek = .error e) ↔
      ∀ nonce plainDek, wrappedDek ≠ kms.encryptDek nonce plainDek := by
  cases hdec : kms.decryptDek wrappedDek with
  | error e =>
    refine iff_of_true ⟨e, rfl⟩ fun nonce plainDek hw => ?_
    rw [(decryptDek_eq_ok h).mpr ⟨nonce, hw⟩] at hdec
    cases hdec
  | ok plainDek =>
    refine iff_of_false (fun ⟨e, he⟩ => nomatch he) fun hall => ?_
    obtain ⟨nonce, hw⟩ := (decryptDek_eq_ok h).mp hdec
    exact hall nonce plainDek hw

/-- What the two methods of the crypto service compute under a key that unwraps. -/
theorem CryptoService.encryptSecret_eq {wrappedDek : Bytes} {plainDek : Dek}
    (hdek : kms.decryptDek wrappedDek = .ok plainDek.1) (plainValue : String) (iv : Nonce) :
    encryptSecret kms plainValue wrappedDek iv =
      .ok (kms.aesgcm.encrypt plainDek.1 iv.1 (encodeUtf8 plainValue), iv.1) := by
  rw [encryptSecret, hdek]
  simp only [bind, Except.bind, aesgcmKey_dek]
  rfl

theorem CryptoService.decryptSecret_eq_ok (h : kms.aesgcm.Ideal) {wrappedDek : Bytes}
    {plainDek : Dek} (hdek : kms.decryptDek wrappedDek = .ok plainDek.1)
    {encryptedValue iv : Bytes} {plainValue : String} :
    decryptSecret kms encryptedValue iv wrappedDek = .ok plainValue ↔
      encryptedValue = kms.aesgcm.encrypt plainDek.1 iv (encodeUtf8 plainValue) := by
  rw [decryptSecret, hdek]
  simp only [bind, Except.bind, aesgcmKey_dek]
  rw [← h.decrypt_iff]
  cases hdec : kms.aesgcm.decrypt plainDek.1 iv encryptedValue with
  | none => simp
  | some plainBytes =>
    rw [Option.some.injEq]
    dsimp only
    constructor
    · intro he
      cases hutf : decodeUtf8 plainBytes with
      | none =>
        rw [hutf] at he
        cases he
      | some value =>
        rw [hutf] at he
        rw [decodeUtf8_eq_some.mp hutf, Except.ok.inj he]
    · rintro rfl
      rw [decodeUtf8_encodeUtf8]
      rfl

end

/-- The decoders accept exactly the image of the encoders: `decrypt_dek` for any bytes,
`decrypt_secret` for any value and nonce under a wrapped key of 32 bytes. -/
theorem envelope_exact (kms : LocalKMSProvider) (h : kms.aesgcm.Ideal) :
    (∀ wrappedDek plainDek, kms.decryptDek wrappedDek = .ok plainDek ↔
      ∃ nonce : Nonce, wrappedDek = nonce.1 ++ kms.aesgcm.encrypt kms.masterKey nonce.1 plainDek) ∧
    (∀ wrappedDek, (∃ e, kms.decryptDek wrappedDek = .error e) ↔
      ∀ nonce plainDek, wrappedDek ≠ kms.encryptDek nonce plainDek) ∧
    ∀ (plainDek : Dek) (nonce : Nonce) (plainValue : String) (iv : Nonce) (encryptedValue : Bytes),
      CryptoService.decryptSecret kms encryptedValue iv.1 (kms.encryptDek nonce plainDek.1) =
          .ok plainValue ↔
        ∃ random : Nonce, CryptoService.encryptSecret kms plainValue
          (kms.encryptDek nonce plainDek.1) random = .ok (encryptedValue, iv.1) := by
  refine ⟨fun _ _ => LocalKMSProvider.decryptDek_eq_ok h,
    fun _ => LocalKMSProvider.decryptDek_eq_error h,
    fun plainDek nonce plainValue iv encryptedValue => ?_⟩
  have hdek := kms.decryptDek_encryptDek nonce plainDek.1
  rw [CryptoService.decryptSecret_eq_ok h hdek]
  constructor
  · rintro rfl
    exact ⟨iv, CryptoService.encryptSecret_eq hdek plainValue iv⟩
  · rintro ⟨random, henc⟩
    rw [CryptoService.encryptSecret_eq hdek, Except.ok.injEq, Prod.mk.injEq] at henc
    rw [← henc.2]
    exact henc.1.symm

/-- A byte that depends on all bytes of the key and of the nonce. -/
def keystreamByte (key nonce : Bytes) : UInt8 := (key ++ nonce).foldl (fun h b => 5 * h + b) 7

/-- An AEAD with one byte of key stream, which is its tag as well; the tag is checked. -/
def maskedAesgcm : Aesgcm where
  encrypt key nonce plain :=
    plain.map (· + keystreamByte key nonce) ++ List.replicate 16 (keystreamByte key nonce)
  decrypt key nonce cipher :=
    if cipher = cipher.take (cipher.length - 16) ++ List.replicate 16 (keystreamByte key nonce) then
      some ((cipher.take (cipher.length - 16)).map (· - keystreamByte key nonce)) else none
  decrypt_encrypt key nonce plain := by simp [Function.comp_def]
  length_encrypt key nonce plain := by simp

theorem maskedAesgcm_ideal : maskedAesgcm.Ideal := by
  intro key nonce cipher plain h
  simp only [maskedAesgcm] at h
  split at h
  · rename_i hc
    rw [Option.some.injEq] at h
    rw [maskedAesgcm, ← h]
    simpa [Function.comp_def] using hc
  · cases h

theorem maskedAesgcm_tag (key nonce plain : Bytes) :
    (maskedAesgcm.encrypt key nonce plain).getLast? = some (keystreamByte key nonce) := by
  simp [maskedAesgcm, List.getLast?_append]

/-- A deployment with this master key. -/
def maskedKms (byte : UInt8) : LocalKMSProvider := ⟨maskedAesgcm, List.replicate 32 byte⟩

def maskedDek : Dek := ⟨(List.range 32).map UInt8.ofNat, rfl⟩

def wrapNonce : Nonce := ⟨List.replicate 12 3, rfl⟩

def valueNonce (byte : UInt8) : Nonce := ⟨List.replicate 12 byte, rfl⟩

/-- A key that one deployment wrapped, and a value under this key: the other deployment refuses
the key, and the value is read with its own nonce only. -/
theorem envelope_exact_masked :
    (maskedKms 7).decryptDek ((maskedKms 7).encryptDek wrapNonce maskedDek.1) =
      .ok maskedDek.1 ∧
    (∃ e, (maskedKms 8).decryptDek ((maskedKms 7).encryptDek wrapNonce maskedDek.1) = .error e) ∧
    CryptoService.decryptSecret (maskedKms 7)
      (maskedAesgcm.encrypt maskedDek.1 (valueNonce 4).1 (encodeUtf8 "s3cret")) (valueNonce 4).1
      ((maskedKms 7).encryptDek wrapNonce maskedDek.1) = .ok "s3cret" ∧
    CryptoService.decryptSecret (maskedKms 7)
      (maskedAesgcm.encrypt maskedDek.1 (valueNonce 4).1 (encodeUtf8 "s3cret")) (valueNonce 5).1
      ((maskedKms 7).encryptDek wrapNonce maskedDek.1) ≠ .ok "s3cret" := by
  obtain ⟨hunwraps, -, hreads⟩ := envelope_exact (maskedKms 7) maskedAesgcm_ideal
  obtain ⟨-, hrefuses, -⟩ := envelope_exact (maskedKms 8) maskedAesgcm_ideal
  have hdek : (maskedKms 7).decryptDek ((maskedKms 7).encryptDek wrapNonce maskedDek.1) =
      .ok maskedDek.1 := (hunwraps _ _).mpr ⟨wrapNonce, rfl⟩
  have hencrypts := CryptoService.encryptSecret_eq hdek "s3cret"
  refine ⟨hdek, (hrefuses _).mpr fun nonce plainDek hw => ?_,
    (hreads _ _ _ _ _).mpr ⟨valueNonce 4, hencrypts (valueNonce 4)⟩, fun hread => ?_⟩
  · simp only [LocalKMSProvider.encryptDek] at hw
    have hnonce : wrapNonce.1 = nonce.1 := by
      have htake := congrArg (List.take 12) hw
      rwa [List.take_left' wrapNonce.2, List.take_left' nonce.2] at htake
    have htag := congrArg List.getLast? hw
    simp only [maskedKms, List.getLast?_append, maskedAesgcm_tag, ← hnonce, Option.some_or,
      Option.some.injEq] at htag
    exact absurd htag (by decide +kernel)
  · obtain ⟨random, hrandom⟩ := (hreads _ _ _ _ _).mp hread
    rw [hencrypts random, Except.ok.injEq, Prod.mk.injEq] at hrandom
    have htag := congrArg List.getLast? hrandom.1
    simp only [maskedKms, maskedAesgcm_tag, hrandom.2, Option.some.injEq] at htag
    exact absurd htag (by decide +kernel)

end EnvVault
