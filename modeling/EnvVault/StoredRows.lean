import EnvVault.OperationWrites
import EnvVault.Schemas

/-!
# What the tables hold

The rows that any number of requests leave behind, in whatever order their statements run:
columns that the schemas of the requests would accept, hashes where the client sent a
password or a refresh token, data encryption keys under the master key only, values as
ciphertexts only, and a trail that records reveals.
-/
namespace EnvVault
open EnvVault.Relational EnvVault.Transactions

/-- A row as the services of this deployment write it. -/
def WellFormed (d : Deployment) (emailStr : String → Option String) : RowPred
  | .users, r => (∃ raw, emailStr raw = some r.email) ∧
      UserCreate.fullName.acceptsOptional r.fullName = true ∧
      ∃ password, UserCreate.password.accepts password = true ∧
        r.passwordHash = some (d.security.hashPassword password)
  | .refreshTokens, r => ∃ raw, r.tokenHash = d.security.hashRefreshToken raw
  | .organizations, r =>
    OrganizationCreate.name.accepts r.name = true ∧ OrganizationCreate.slug.accepts r.slug = true
  | .memberships, _ => True
  | .projects, r => ProjectCreate.name.accepts r.name = true ∧
      ProjectCreate.slug.accepts r.slug = true ∧
      ProjectCreate.description.acceptsOptional r.description = true
  | .environments, r => EnvironmentCreate.name.accepts r.name = true
  | .encryptionKeys, r => CryptoService.Wrapped d.kms r.wrappedDek ∧ r.keyVersion = 1 ∧
      r.algorithm = "AES-256-GCM" ∧ r.isActive = true
  | .secrets, r => SecretCreate.keyName.accepts r.keyName = true ∧
      r.isDeleted = r.deletedAt.isSome
  | .secretVersions, r => 1 ≤ r.versionNumber ∧ r.versionNumber ≤ SecretService.maxInteger ∧
      r.iv.length = 12 ∧ ∃ (dek : Dek) (value : String), SecretCreate.value.accepts value = true ∧
        r.encryptedValue = d.kms.aesgcm.encrypt dek.1 r.iv (encodeUtf8 value)
  | .apiTokens, _ => True
  | .auditLogs, r => r.action = .reveal ∧ r.resourceType = .secret ∧ r.resourceId.isSome = true ∧
      ∃ (keyName : String) (versionId : UUID), SecretCreate.keyName.accepts keyName = true ∧
        r.metadata = some [("key_name", keyName), ("version_id", toString versionId)]

/-- The columns that have a pattern, in words. -/
structure Spelled (db : Db) : Prop where
  organizations : ∀ r ∈ db .organizations, IsSlug r.slug
  projects : ∀ r ∈ db .projects, IsSlug r.slug
  environments : ∀ r ∈ db .environments, IsSlug r.name
  secrets : ∀ r ∈ db .secrets, IsKeyName r.keyName

section
variable {d : Deployment} {emailStr : String → Option String} {op : Op}

theorem spelled_of_wellFormed {db : Db} (h : Stored (WellFormed d emailStr) db) : Spelled db where
  organizations r hr := accepts_slug_iff.mp (h .organizations r hr).2
  projects r hr := accepts_slug_iff.mp (h .projects r hr).2.1
  environments r hr := accepts_slug_iff.mp (h .environments r hr)
  secrets r hr := accepts_keyName_iff.mp (h .secrets r hr).1

theorem wellFormed_clearable : (WellFormed d emailStr).Clearable vaultSchema := by
  intro fk hfk _ clear hclear r hr
  simp only [vaultSchema, foreignKeyList, List.mem_cons, List.not_mem_nil, or_false] at hfk
  rcases hfk with rfl | rfl | rfl | rfl | rfl | rfl | rfl | rfl | rfl | rfl | rfl | rfl | rfl |
    rfl | rfl | rfl | rfl <;> cases hclear <;> exact hr

/-- A field of an update that is left out keeps what it had. -/
theorem accepts_changed {f : StringField} {old new : String} {given : Option String}
    (hold : f.accepts old = true) (hgiven : f.acceptsOptional given = true)
    (h : new = old ∨ given = some new) : f.accepts new = true := by
  rcases h with rfl | rfl
  · exact hold
  · exact hgiven

theorem acceptsOptional_changed {f : StringField} {old new given : Option String}
    (hold : f.acceptsOptional old = true) (hgiven : f.acceptsOptional given = true)
    (h : new = old ∨ given = new) : f.acceptsOptional new = true := by
  rcases h with rfl | rfl
  · exact hold
  · exact hgiven

theorem accepted_plainValue {plainValue : String} (h : op.Accepted emailStr)
    (hop : op.plainValue = some plainValue) : SecretCreate.value.accepts plainValue = true := by
  cases op <;> cases hop
  · exact h.2
  · exact h

/-- What the crypto service makes of a value under a wrapped key. -/
theorem encryptSecret_wrapped {kms : LocalKMSProvider} {wrappedDek : Bytes}
    (hkey : CryptoService.Wrapped kms wrappedDek) {plainValue : String} {nonce : Nonce}
    {encrypted : Bytes × Bytes}
    (h : CryptoService.encryptSecret kms plainValue wrappedDek nonce = .ok encrypted) :
    encrypted.2 = nonce.1 ∧
      ∃ dek : Dek, encrypted.1 = kms.aesgcm.encrypt dek.1 nonce.1 (encodeUtf8 plainValue) := by
  obtain ⟨dek, hdek⟩ := hkey.decryptDek
  rw [CryptoService.encryptSecret, hdek] at h
  simp only [bind, Except.bind, CryptoService.aesgcmKey_dek, pure, Except.pure,
    Except.ok.injEq] at h
  subst h
  exact ⟨rfl, dek, rfl⟩

/-- Called with accepted arguments on well-formed rows, an operation writes well-formed rows. -/
theorem Op.MayWrite.wellFormed {w : RowWrite} (hop : op.Accepted emailStr)
    (hw : op.MayWrite d (WellFormed d emailStr) w) : (WellFormed d emailStr).Admits w := by
  cases hw with
  | registered email password fullName id => exact ⟨hop.1, hop.2.2, password, hop.2.1, rfl⟩
  | issued op hissues id userId raw now => exact ⟨raw, rfl⟩
  | revoked op hrevokes r hr now => exact hr
  | organizationCreated name slug userId id => exact hop
  | ownerAdded name slug userId m huser hrole => trivial
  | organizationUpdated o u name slug r r' hr horg hid hname hslug =>
    exact ⟨accepts_changed hr.1 hop.1 hname, accepts_changed hr.2 hop.2 hslug⟩
  | invited o email role u hrole id userId now => trivial
  | roleUpdated o id role u r hr hin => trivial
  | projectCreated o name slug u description id => exact hop
  | projectUpdated p o u name slug description r r' hr hin hid horg hname hslug hdescription =>
    exact ⟨accepts_changed hr.1 hop.1 hname, accepts_changed hr.2.1 hop.2.1 hslug,
      acceptsOptional_changed hr.2.2 hop.2.2 hdescription⟩
  | environmentCreated p o name u id hin => exact hop
  | keyCreated p o name u id environmentId hin dek nonce => exact ⟨⟨dek, nonce, rfl⟩, rfl, rfl, rfl⟩
  | secretCreated e o keyName plainValue u id hin => exact ⟨hop.1, rfl⟩
  | versionStored op plainValue hvalue o ho id secretId hin key hkey nonce encrypted henc number
      hpos hmax =>
    obtain ⟨hiv, dek, hcipher⟩ := encryptSecret_wrapped hkey.1 henc
    refine ⟨hpos, hmax, ?_, dek, plainValue, accepted_plainValue hop hvalue, ?_⟩
    · show encrypted.2.length = 12
      rw [hiv]
      exact nonce.2
    · show encrypted.1 = d.kms.aesgcm.encrypt dek.1 encrypted.2 (encodeUtf8 plainValue)
      rw [hiv]
      exact hcipher
  | pointed op plainValue hvalue o ho r hr hin v hv hsecret => exact hr
  | secretDeleted s o u r hr hin now => exact ⟨hr.1, rfl⟩
  | revealRecorded s o u secret hs version hv id now =>
    exact ⟨rfl, rfl, rfl, secret.keyName, version.id, hs.1, rfl⟩
  | cascaded op hdeletes o ho t id hin w hw => exact hw.admits

end

section
variable {n : ℕ} {server : Server} {users : Fin n → UUID} {requests : Fin n → Request}

/-- Whatever the clients send and in whatever order the statements of their requests run,
every committed row is well formed. -/
theorem handling_stores_wellFormed (emailStr : String → Option String) {raw : Fin n → Request}
    (hvalid : ∀ i, (raw i).validate emailStr = some (requests i)) {W : VaultWorld n}
    (hlog : W.log = []) (hdb : Stored (WellFormed server.deployment emailStr) W.db)
    {as : Schedule n} {s : Sys n Input Db RowWrite Exn Response}
    (hr : (handling server users requests W).run vaultEngine as = some s) :
    Stored (WellFormed server.deployment emailStr) s.world.db ∧ Spelled s.world.db := by
  have hinit : (handling server users requests W).Attributed
      (Stored (WellFormed server.deployment emailStr))
      (WellFormed server.deployment emailStr).Admits
      (fun i => (requests i).MayWrite server (users i) (WellFormed server.deployment emailStr))
      fun i => (requests i).ShowsOwn (WellFormed server.deployment emailStr) :=
    .initial hdb hlog fun i => Request.writes_handle wellFormed_clearable server (users i) _
  have hstored := (hinit.run_of_imp (fun w db hw hdb => hdb.apply vaultSchema hw) hr
    fun i w hw => hw.wellFormed (Request.validate_accepted (hvalid i))).db
  exact ⟨hstored, spelled_of_wellFormed hstored⟩

end

theorem handling_stores_wellFormed_first :
    (∀ i, (firstRequests i).validate some = some (firstRequests i)) ∧
    ∃ s, (handling sampleServer (fun _ => 4) firstRequests ⟨fun _ => [], [], samplePast 1⟩).run
        vaultEngine firstSteps = some s ∧
      (s.world.db .organizations).map Organization.slug = ["acme-inc"] ∧
      Stored (WellFormed sampleDeployment some) s.world.db ∧ Spelled s.world.db := by
  have hvalid : ∀ i, (firstRequests i).validate some = some (firstRequests i) := by decide
  have hrun : ((handling sampleServer (fun _ => 4) firstRequests
      ⟨fun _ => [], [], samplePast 1⟩).run vaultEngine firstSteps).map
        (fun s => (s.world.db .organizations).map Organization.slug) = some ["acme-inc"] := by rfl
  obtain ⟨s, hs, hslugs⟩ := Option.map_eq_some_iff.mp hrun
  exact ⟨hvalid, s, hs, hslugs, handling_stores_wellFormed some hvalid rfl
    (fun t r hr => absurd hr List.not_mem_nil) hs⟩

end EnvVault
