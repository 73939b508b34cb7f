import EnvVault.ContainerCascade
import EnvVault.VaultRuns

/-!
# What the vault keeps

Each environment has one active key, the versions of a secret are numbered
without gaps and the secret points at the last one, every version is encrypted
under a key of its own environment, and the current version decrypts to what the
last storing call of the run was given. `SecretEffect` says what a commit may do
to the tables concerned, and each of its cases keeps all of this.
-/
namespace EnvVault
open EnvVault.Relational EnvVault.Transactions

/-- A version of the secret with this number exists. -/
def Numbered (db : Db) (secretId : UUID) (m : ℕ) : Prop :=
  ∃ v ∈ db .secretVersions, v.secretId = secretId ∧ v.versionNumber = m

/-- The version numbers of the secret are `1, …, n`. -/
def NumberedUpTo (db : Db) (secretId : UUID) (n : ℕ) : Prop :=
  ∀ m, Numbered db secretId m ↔ 1 ≤ m ∧ m ≤ n

/-- The secret points at this version, and it is the last one. -/
structure Current (db : Db) (s : Secret) (v : SecretVersion) : Prop where
  mem : v ∈ db .secretVersions
  pointer : s.currentVersionId = some v.id
  secret : v.secretId = s.id
  last : NumberedUpTo db s.id v.versionNumber

/-- Under its key the version decrypts to this value. -/
def Decrypts (kms : LocalKMSProvider) (db : Db) (v : SecretVersion) (plainValue : String) : Prop :=
  ∀ k ∈ db .encryptionKeys, k.id = v.encryptionKeyId →
    CryptoService.decryptSecret kms v.encryptedValue v.iv k.wrappedDek = .ok plainValue

/-- The only key of the environment is this one, active and wrapped by the KMS. -/
structure OnlyKey (kms : LocalKMSProvider) (db : Db) (environmentId : UUID) (k : EncryptionKey) :
    Prop where
  mem : k ∈ db .encryptionKeys
  environment : k.environmentId = environmentId
  active : k.isActive = true
  wrapped : CryptoService.Wrapped kms k.wrappedDek
  only : ∀ k' ∈ db .encryptionKeys, k'.environmentId = environmentId → k' = k

/-- The value that a storing call is given. -/
def Op.plainValue : Op → Option String
  | .createSecret _ _ _ plainValue _ => some plainValue
  | .addNewVersion _ _ plainValue _ => some plainValue
  | _ => none

/-- The versions of the secret that a commit inserts. -/
def versionsInserted (secretId : UUID) (ws : List RowWrite) : List SecretVersion :=
  ws.filterMap fun w => match w with
    | .insert .secretVersions v => if v.secretId = secretId then some v else none
    | _ => none

theorem mem_versionsInserted {x : UUID} {ws : List RowWrite} {v : SecretVersion} :
    v ∈ versionsInserted x ws ↔ .insert .secretVersions v ∈ ws ∧ v.secretId = x := by
  simp only [versionsInserted, List.mem_filterMap]
  constructor
  · rintro ⟨w, hw, h⟩
    split at h
    · split at h
      · rename_i hx
        obtain rfl := Option.some.inj h
        exact ⟨hw, hx⟩
      · cases h
    · cases h
  · rintro ⟨hw, hx⟩
    exact ⟨_, hw, if_pos hx⟩

theorem versionsInserted_eq_nil {x : UUID} {ws : List RowWrite}
    (h : ∀ v, .insert .secretVersions v ∈ ws → v.secretId ≠ x) : versionsInserted x ws = [] :=
  List.eq_nil_iff_forall_not_mem.mpr fun v hv =>
    h v (mem_versionsInserted.mp hv).1 (mem_versionsInserted.mp hv).2

section
variable {n : ℕ} (calls : Fin n → ServiceCall)

/-- What the committed calls have stored in a secret, oldest first: each version
with the value its call was given. -/
def stores (log : List (Fin n × List RowWrite)) (secretId : UUID) : List (UUID × String) :=
  log.flatMap fun e => match (calls e.1).op.plainValue with
    | none => []
    | some plainValue => (versionsInserted secretId e.2).map fun v => (v.id, plainValue)

variable {calls}

theorem stores_snoc (log : List (Fin n × List RowWrite)) (k : Fin n) (ws : List RowWrite)
    (x : UUID) : stores calls (log ++ [(k, ws)]) x = stores calls log x ++
      match (calls k).op.plainValue with
      | none => []
      | some plainValue => (versionsInserted x ws).map fun v => (v.id, plainValue) := by
  simp [stores]

theorem stores_quiet {log : List (Fin n × List RowWrite)} {k : Fin n} {ws : List RowWrite}
    {x : UUID} (h : ∀ v, .insert .secretVersions v ∈ ws → v.secretId ≠ x) :
    stores calls (log ++ [(k, ws)]) x = stores calls log x := by
  rw [stores_snoc, versionsInserted_eq_nil h]
  split <;> simp

theorem mem_stores_commit {W : VaultWorld n} {k : Fin n} {ws : List RowWrite} {x : UUID}
    {p : UUID × String} (h : p ∈ stores calls W.log x) :
    p ∈ stores calls (W.commit vaultEngine k ws).log x := by
  rw [World.commit_log, stores_snoc]
  exact List.mem_append_left _ h

end

/-- The tables that the vault speaks about. -/
def vaultTables : List Table := [.environments, .encryptionKeys, .secrets, .secretVersions]

def Secret.pointingTo (s : Secret) (versionId : UUID) : Secret :=
  { s with currentVersionId := some versionId }

def Secret.deletedFrom (s : Secret) (time : Timestamp) : Secret :=
  { s with isDeleted := true, deletedAt := some time }

/-- The next version of the secret, encrypted under a key of its environment. -/
structure NewVersion (d : Deployment) (op : Op) (db : Db) (s : Secret) (v : SecretVersion) :
    Prop where
  secret : v.secretId = s.id
  next : ∃ m, NumberedUpTo db s.id m ∧ v.versionNumber = m + 1
  encrypted : ∃ k ∈ db .encryptionKeys, k.id = v.encryptionKeyId ∧
    k.environmentId = s.environmentId ∧ ∃ plainValue, op.plainValue = some plainValue ∧
      CryptoService.decryptSecret d.kms v.encryptedValue v.iv k.wrappedDek = .ok plainValue

/-- Deletions that take no secret and no version, and a key only with its environment. -/
structure DeletesNoSecret (db : Db) (ws : List RowWrite) : Prop where
  deletes : ∀ w ∈ ws, ∃ t x, w = .delete t x
  secrets : ∀ x, .delete .secrets x ∉ ws
  versions : ∀ x, .delete .secretVersions x ∉ ws
  keys : ∀ k ∈ db .encryptionKeys, .delete .encryptionKeys k.id ∈ ws →
    .delete .environments k.environmentId ∈ ws

/-- What a commit does to the tables of the vault. -/
inductive SecretEffect (d : Deployment) (op : Op) (db : Db) : List RowWrite → Prop
  | elsewhere (ws : List RowWrite) (h : ∀ w ∈ ws, w.table ∉ vaultTables) :
      SecretEffect d op db ws
  | environmentCreated (e : Environment) (k : EncryptionKey) (hk : k.environmentId = e.id)
      (hactive : k.isActive = true) (hwrapped : CryptoService.Wrapped d.kms k.wrappedDek) :
      SecretEffect d op db [.insert .environments e, .insert .encryptionKeys k]
  | secretCreated (s : Secret) (v : SecretVersion) (h : NewVersion d op db s v) :
      SecretEffect d op db [.insert .secrets s, .insert .secretVersions v,
        .update .secrets (s.pointingTo v.id)]
  | versionAdded (s : Secret) (v : SecretVersion) (hs : s ∈ db .secrets)
      (h : NewVersion d op db s v) :
      SecretEffect d op db [.insert .secretVersions v, .update .secrets (s.pointingTo v.id)]
  | secretDeleted (s : Secret) (hs : s ∈ db .secrets) (time : Timestamp) :
      SecretEffect d op db [.update .secrets (s.deletedFrom time)]
  | containerDeleted (ws : List RowWrite) (h : DeletesNoSecret db ws) : SecretEffect d op db ws

namespace SecretEffect
variable {d : Deployment} {op : Op} {db : Db} {ws : List RowWrite}

/-- Environments, keys and versions are never changed, secrets and versions never
deleted. -/
theorem allowed (h : SecretEffect d op db ws) {w : RowWrite} (hw : w ∈ ws) : match w with
    | .update .environments _ => False
    | .update .encryptionKeys _ => False
    | .update .secretVersions _ => False
    | .delete .secrets _ => False
    | .delete .secretVersions _ => False
    | _ => True := by
  cases h with
  | elsewhere ws h =>
    have ht := h w hw
    split <;> first | trivial | exact ht (by simp [Write.table, vaultTables])
  | environmentCreated e k hk hactive hwrapped =>
    simp only [List.mem_cons, List.not_mem_nil, or_false] at hw
    rcases hw with rfl | rfl <;> trivial
  | secretCreated s v h =>
    simp only [List.mem_cons, List.not_mem_nil, or_false] at hw
    rcases hw with rfl | rfl | rfl <;> trivial
  | versionAdded s v hs h =>
    simp only [List.mem_cons, List.not_mem_nil, or_false] at hw
    rcases hw with rfl | rfl <;> trivial
  | secretDeleted s hs time =>
    obtain rfl := List.mem_singleton.mp hw
    trivial
  | containerDeleted ws h =>
    obtain ⟨t, x, rfl⟩ := h.deletes w hw
    cases t <;> first | trivial | exact h.secrets x hw | exact h.versions x hw

theorem no_update_environment (h : SecretEffect d op db ws) (e : Environment) :
    .update .environments e ∉ ws := fun hw => h.allowed hw

theorem no_update_key (h : SecretEffect d op db ws) (k : EncryptionKey) :
    .update .encryptionKeys k ∉ ws := fun hw => h.allowed hw

theorem no_update_version (h : SecretEffect d op db ws) (v : SecretVersion) :
    .update .secretVersions v ∉ ws := fun hw => h.allowed hw

theorem no_delete_version (h : SecretEffect d op db ws) (x : UUID) :
    .delete .secretVersions x ∉ ws := fun hw => h.allowed hw

/-- A secret of the database under these writes is an old one that no version is
added to, or the one that a version is stored in. -/
theorem secret_cases (h : SecretEffect d op db ws) {s' : Secret}
    (hs' : s' ∈ vaultSchema.view ws db .secrets) :
    (∃ s ∈ db .secrets, s'.id = s.id ∧ s'.environmentId = s.environmentId ∧
      s'.currentVersionId = s.currentVersionId ∧
      ∀ v, .insert .secretVersions v ∈ ws → v.secretId ≠ s.id) ∨
    ∃ s v, NewVersion d op db s v ∧ s' = s.pointingTo v.id ∧ versionsInserted s.id ws = [v] ∧
      (s ∈ db .secrets ∨ .insert .secrets s ∈ ws) := by
  have hsame (heq : vaultSchema.view ws db .secrets = db .secrets)
      (hins : ∀ v, .insert .secretVersions v ∉ ws) :
      ∃ s ∈ db .secrets, s'.id = s.id ∧ s'.environmentId = s.environmentId ∧
        s'.currentVersionId = s.currentVersionId ∧
        ∀ v, .insert .secretVersions v ∈ ws → v.secretId ≠ s.id :=
    ⟨s', heq ▸ hs', rfl, rfl, rfl, fun v hv => absurd hv (hins v)⟩
  cases h with
  | elsewhere ws h =>
    refine Or.inl (hsame (vaultSchema.view_untouched (fun w hw ht => ?_) db) fun v hv => ?_)
    · exact h w hw (by simp [ht, vaultTables])
    · exact h _ hv (by simp [Write.table, vaultTables])
  | environmentCreated e k hk hactive hwrapped => exact Or.inl (hsame rfl (by simp))
  | secretCreated s v h =>
    have hview : vaultSchema.view [.insert .secrets s, .insert .secretVersions v,
        .update .secrets (s.pointingTo v.id)] db .secrets =
          vaultSchema.apply (.update .secrets (s.pointingTo v.id))
            (vaultSchema.apply (.insert .secrets s) db) .secrets := rfl
    rw [hview] at hs'
    rcases Schema.mem_apply_update.mp hs' with ⟨rfl, -⟩ | ⟨hs', hne⟩
    · exact Or.inr ⟨s, v, h, rfl, by simp [versionsInserted, h.secret], Or.inr (by simp)⟩
    · rcases List.mem_append.mp hs' with hs' | hs'
      · refine Or.inl ⟨s', hs', rfl, rfl, rfl, fun v' hv' => ?_⟩
        obtain rfl : v' = v := by simpa using hv'
        rw [h.secret]
        exact Ne.symm hne
      · exact absurd (congrArg Secret.id (List.mem_singleton.mp hs')) hne
  | versionAdded s v hs h =>
    have hview : vaultSchema.view [.insert .secretVersions v,
        .update .secrets (s.pointingTo v.id)] db .secrets =
          vaultSchema.apply (.update .secrets (s.pointingTo v.id)) db .secrets := rfl
    rw [hview] at hs'
    rcases Schema.mem_apply_update.mp hs' with ⟨rfl, -⟩ | ⟨hs', hne⟩
    · exact Or.inr ⟨s, v, h, rfl, by simp [versionsInserted, h.secret], Or.inl hs⟩
    · refine Or.inl ⟨s', hs', rfl, rfl, rfl, fun v' hv' => ?_⟩
      obtain rfl : v' = v := by simpa using hv'
      rw [h.secret]
      exact Ne.symm hne
  | secretDeleted s hs time =>
    have hview : vaultSchema.view [.update .secrets (s.deletedFrom time)] db .secrets =
        vaultSchema.apply (.update .secrets (s.deletedFrom time)) db .secrets := rfl
    rw [hview] at hs'
    rcases Schema.mem_apply_update.mp hs' with ⟨rfl, -⟩ | ⟨hs', -⟩
    · exact Or.inl ⟨s, hs, rfl, rfl, rfl, by simp⟩
    · exact Or.inl ⟨s', hs', rfl, rfl, rfl, by simp⟩
  | containerDeleted ws h =>
    have hold := ((Schema.mem_view_of_deletes h.deletes).mp hs').1
    refine Or.inl ⟨s', hold, rfl, rfl, rfl, fun v hv => ?_⟩
    obtain ⟨_, _, heq⟩ := h.deletes _ hv
    cases heq

theorem no_delete_secret (h : SecretEffect d op db ws) (x : UUID) :
    .delete .secrets x ∉ ws := fun hw => h.allowed hw

/-- A version is inserted as the next one of its secret. -/
theorem of_version_inserted (h : SecretEffect d op db ws) {v : SecretVersion}
    (hv : .insert .secretVersions v ∈ ws) : ∃ s, NewVersion d op db s v := by
  cases h with
  | elsewhere ws h => exact absurd (by simp [Write.table, vaultTables]) (h _ hv)
  | environmentCreated e k hk hactive hwrapped => simp at hv
  | secretCreated s v' h =>
    obtain rfl : v = v' := by simpa using hv
    exact ⟨s, h⟩
  | versionAdded s v' hs h =>
    obtain rfl : v = v' := by simpa using hv
    exact ⟨s, h⟩
  | secretDeleted s hs time => simp at hv
  | containerDeleted ws h =>
    obtain ⟨_, _, heq⟩ := h.deletes _ hv
    cases heq

/-- A key goes only with a container. -/
theorem of_key_deleted (h : SecretEffect d op db ws) {x : UUID}
    (hd : .delete .encryptionKeys x ∈ ws) : DeletesNoSecret db ws := by
  cases h with
  | containerDeleted ws h => exact h
  | elsewhere ws h => exact absurd (by simp [Write.table, vaultTables]) (h _ hd)
  | environmentCreated e k hk hactive hwrapped => simp at hd
  | secretCreated s v h => simp at hd
  | versionAdded s v hs h => simp at hd
  | secretDeleted s hs time => simp at hd

/-- An environment and its key come together. -/
theorem of_inserted (h : SecretEffect d op db ws)
    (hins : (∃ e, .insert .environments e ∈ ws) ∨ ∃ k, .insert .encryptionKeys k ∈ ws) :
    ∃ (e : Environment) (k : EncryptionKey),
      ws = [.insert .environments e, .insert .encryptionKeys k] ∧
      k.environmentId = e.id ∧ k.isActive = true ∧ CryptoService.Wrapped d.kms k.wrappedDek := by
  cases h with
  | environmentCreated e k hk hactive hwrapped => exact ⟨e, k, rfl, hk, hactive, hwrapped⟩
  | elsewhere ws h =>
    rcases hins with ⟨e, hins⟩ | ⟨k, hins⟩
    · exact absurd (by simp [Write.table, vaultTables]) (h _ hins)
    · exact absurd (by simp [Write.table, vaultTables]) (h _ hins)
  | secretCreated s v h => simp at hins
  | versionAdded s v hs h => simp at hins
  | secretDeleted s hs time => simp at hins
  | containerDeleted ws h =>
    rcases hins with ⟨e, hins⟩ | ⟨k, hins⟩
    · obtain ⟨_, _, heq⟩ := h.deletes _ hins
      cases heq
    · obtain ⟨_, _, heq⟩ := h.deletes _ hins
      cases heq

theorem version_kept (h : SecretEffect d op db ws) {v : SecretVersion}
    (hv : v ∈ db .secretVersions) : v ∈ vaultSchema.view ws db .secretVersions :=
  Schema.mem_view_of_kept hv h.no_update_version (h.no_delete_version _)

theorem version_inserted (h : SecretEffect d op db ws) {v : SecretVersion}
    (hv : .insert .secretVersions v ∈ ws) : v ∈ vaultSchema.view ws db .secretVersions :=
  Schema.mem_view_of_insert hv h.no_update_version (h.no_delete_version _)

theorem key_kept (h : SecretEffect d op db ws) {k : EncryptionKey} (hk : k ∈ db .encryptionKeys)
    (hd : .delete .encryptionKeys k.id ∉ ws) : k ∈ vaultSchema.view ws db .encryptionKeys :=
  Schema.mem_view_of_kept hk h.no_update_key hd

section
variable (hn : vaultSchema.NewKeys ws db)
include hn

theorem version_origin (h : SecretEffect d op db ws) {v : SecretVersion}
    (hv : v ∈ vaultSchema.view ws db .secretVersions) :
    v ∈ db .secretVersions ∨ .insert .secretVersions v ∈ ws :=
  Schema.mem_view_origin hn hv h.no_update_version

theorem key_origin (h : SecretEffect d op db ws) {k : EncryptionKey}
    (hk : k ∈ vaultSchema.view ws db .encryptionKeys) :
    k ∈ db .encryptionKeys ∨ .insert .encryptionKeys k ∈ ws :=
  Schema.mem_view_origin hn hk h.no_update_key

/-- A key that is there under the identifier of an old one is the old one. -/
theorem key_unchanged (h : SecretEffect d op db ws) (hv : vaultSchema.Valid db)
    {k k' : EncryptionKey} (hk : k ∈ db .encryptionKeys)
    (hk' : k' ∈ vaultSchema.view ws db .encryptionKeys) (hid : k'.id = k.id) : k' = k := by
  rcases h.key_origin hn hk' with hold | hnew
  · exact hv.eq_of_id (t := .encryptionKeys) hold hk hid
  · exact absurd (List.mem_map_of_mem hk)
      (hn.2 .encryptionKeys k.id (vaultSchema.mem_inserted.mpr ⟨k', hnew, hid⟩))

/-- A secret stays in its environment. -/
theorem environment_kept (h : SecretEffect d op db ws) (hv : vaultSchema.Valid db) {s s' : Secret}
    (hs : s ∈ db .secrets) (hs' : s' ∈ vaultSchema.view ws db .secrets) (hid : s'.id = s.id) :
    s'.environmentId = s.environmentId := by
  rcases h.secret_cases hs' with ⟨s₀, hs₀, hid₀, henv, -⟩ | ⟨s₀, v, -, rfl, -, hs₀ | hins⟩
  · obtain rfl : s₀ = s := hv.eq_of_id (t := .secrets) hs₀ hs (hid₀.symm.trans hid)
    exact henv
  · obtain rfl : s₀ = s := hv.eq_of_id (t := .secrets) hs₀ hs hid
    rfl
  · exact absurd (List.mem_map_of_mem hs)
      (hn.2 .secrets s.id (vaultSchema.mem_inserted.mpr ⟨s₀, hins, hid⟩))

/-- No environment loses its only key or gets a second one. -/
theorem onlyKey (h : SecretEffect d op db ws) (hv : vaultSchema.Valid db)
    (hone : ∀ e ∈ db .environments, ∃ k, OnlyKey d.kms db e.id k) {e : Environment}
    (he : e ∈ vaultSchema.view ws db .environments) :
    ∃ k, OnlyKey d.kms (vaultSchema.view ws db) e.id k := by
  rcases Schema.mem_view_origin hn he h.no_update_environment with hold | hins
  · obtain ⟨k, hk⟩ := hone e hold
    refine ⟨k, h.key_kept hk.mem fun hd => ?_, hk.environment, hk.active, hk.wrapped,
      fun k' hk' hke => ?_⟩
    · have hdel := h.of_key_deleted hd
      have hgone := hdel.keys k hk.mem hd
      rw [hk.environment] at hgone
      exact ((Schema.mem_view_of_deletes hdel.deletes).mp he).2 hgone
    · rcases h.key_origin hn hk' with hk' | hins
      · exact hk.only k' hk' hke
      · obtain ⟨e₀, k₀, rfl, hk₀, -, -⟩ := h.of_inserted (Or.inr ⟨k', hins⟩)
        obtain rfl : k' = k₀ := by simpa using hins
        exact absurd (List.mem_map_of_mem hold)
          (hn.2 .environments e.id (by simp [← hke, hk₀, rowId]))
  · obtain ⟨e₀, k, rfl, hk, hactive, hwrapped⟩ := h.of_inserted (Or.inl ⟨e, hins⟩)
    obtain rfl : e = e₀ := by simpa using hins
    refine ⟨k, List.mem_append_right _ (List.mem_singleton.mpr rfl), hk, hactive, hwrapped,
      fun k' hk' hke => ?_⟩
    rcases h.key_origin hn hk' with hk' | hins'
    · obtain ⟨e', he', hid⟩ := parent_exists hv hk' (by simp [referencesOf] :
        (.environments, some k'.environmentId) ∈ referencesOf .encryptionKeys k')
      exact absurd (List.mem_map.mpr ⟨e', he', hid.trans hke⟩)
        (hn.2 .environments e.id (by simp [rowId]))
    · simpa using hins'

/-- Every version stays encrypted under a key of its own environment. -/
theorem keysOwn (h : SecretEffect d op db ws) (hv : vaultSchema.Valid db)
    (hafter : vaultSchema.Valid (vaultSchema.view ws db)) (hown : KeysOwn db) :
    KeysOwn (vaultSchema.view ws db) := by
  intro v hvm s' hs' hid
  obtain ⟨k', hk', hkv⟩ := parent_exists hafter hvm (by simp [referencesOf] :
    (.encryptionKeys, some v.encryptionKeyId) ∈ referencesOf .secretVersions v)
  -- the key is the one the version was encrypted under
  have hkey : ∀ k ∈ db .encryptionKeys, k.id = v.encryptionKeyId → k' = k :=
    fun k hk hkid => h.key_unchanged hn hv hk hk' (Eq.trans hkv hkid.symm)
  refine ⟨k', hk', hkv, ?_⟩
  rcases h.version_origin hn hvm with hold | hins
  · obtain ⟨s, hs, hsv⟩ := parent_exists hv hold (by simp [referencesOf] :
      (.secrets, some v.secretId) ∈ referencesOf .secretVersions v)
    obtain ⟨k, hk, hkid, hke⟩ := hown v hold s hs hsv
    rw [hkey k hk hkid, hke]
    exact (h.environment_kept hn hv hs hs' (hid.trans (Eq.symm hsv))).symm
  · rcases h.secret_cases hs' with ⟨s, -, hid', -, -, hnot⟩ | ⟨s, v', hnew, rfl, hlist, -⟩
    · exact absurd (hid.symm.trans hid') (hnot v hins)
    · obtain rfl : v = v' := by
        have hmem : v ∈ versionsInserted s.id ws := mem_versionsInserted.mpr ⟨hins, hid.symm⟩
        rw [hlist] at hmem
        exact List.mem_singleton.mp hmem
      obtain ⟨k, hk, hkid, hke, -⟩ := hnew.encrypted
      rw [hkey k hk hkid]
      exact hke

end

end SecretEffect

theorem NumberedUpTo.congr {db db' : Db} {x : UUID} {m : ℕ}
    (h : ∀ v, v.secretId = x → (v ∈ db' .secretVersions ↔ v ∈ db .secretVersions))
    (hn : NumberedUpTo db x m) : NumberedUpTo db' x m := by
  intro j
  rw [← hn j]
  refine exists_congr fun v => ?_
  by_cases hv : v.secretId = x
  · rw [h v hv]
  · simp [hv]

section
variable {n : ℕ} (d : Deployment) (calls : Fin n → ServiceCall) (base : Table × UUID → Prop)

/-- The invariant of every run of service calls. -/
structure VaultInv (W : VaultWorld n) : Prop where
  valid : vaultSchema.Valid W.db
  used : ∀ t, ∀ r ∈ W.db t, vaultSchema.Ever base W (t, rowId t r)
  onlyKey : ∀ e ∈ W.db .environments, ∃ k, OnlyKey d.kms W.db e.id k
  keysOwn : KeysOwn W.db
  current : ∀ s ∈ W.db .secrets, ∃ v plainValue, Current W.db s v ∧
    Decrypts d.kms W.db v plainValue ∧
    (stores calls W.log s.id).getLast? = some (v.id, plainValue)

variable {d calls base} {W : VaultWorld n} {k : Fin n} {ws : List RowWrite}

/-- A secret that no version is added to keeps its current version. -/
theorem VaultInv.current_kept (h : VaultInv d calls base W)
    (hn : vaultSchema.NewKeys ws W.db) (hg : SecretEffect d (calls k).op W.db ws) {s s' : Secret}
    (hs : s ∈ W.db .secrets) (hid : s'.id = s.id)
    (hpointer : s'.currentVersionId = s.currentVersionId)
    (hins : ∀ v, .insert .secretVersions v ∈ ws → v.secretId ≠ s.id) :
    ∃ v plainValue, Current (vaultSchema.view ws W.db) s' v ∧
      Decrypts d.kms (vaultSchema.view ws W.db) v plainValue ∧
      (stores calls (W.log ++ [(k, ws)]) s'.id).getLast? = some (v.id, plainValue) := by
  obtain ⟨v, plainValue, hv, hplain, hlast⟩ := h.current s hs
  refine ⟨v, plainValue, ⟨hg.version_kept hv.mem, hpointer.trans hv.pointer,
    hv.secret.trans hid.symm, ?_⟩, ?_, ?_⟩
  · rw [hid]
    refine hv.last.congr fun v' hv' => ⟨fun hm => ?_, hg.version_kept⟩
    exact (hg.version_origin hn hm).resolve_right fun hm => hins v' hm hv'
  · intro key hkey hkid
    obtain ⟨key', hkey', hkid'⟩ := parent_exists h.valid hv.mem (by simp [referencesOf] :
      (.encryptionKeys, some v.encryptionKeyId) ∈ referencesOf .secretVersions v)
    obtain rfl : key = key' := hg.key_unchanged hn h.valid hkey' hkey (hkid.trans (Eq.symm hkid'))
    exact hplain key hkey' hkid
  · rw [hid, stores_quiet hins]
    exact hlast

/-- A secret that a version is stored in has it as its current version. -/
theorem VaultInv.current_stored (h : VaultInv d calls base W)
    (hn : vaultSchema.NewKeys ws W.db) (hg : SecretEffect d (calls k).op W.db ws) {s : Secret}
    {v : SecretVersion} (hnew : NewVersion d (calls k).op W.db s v)
    (hlist : versionsInserted s.id ws = [v]) :
    ∃ v' plainValue, Current (vaultSchema.view ws W.db) (s.pointingTo v.id) v' ∧
      Decrypts d.kms (vaultSchema.view ws W.db) v' plainValue ∧
      (stores calls (W.log ++ [(k, ws)]) s.id).getLast? = some (v'.id, plainValue) := by
  obtain ⟨key, hkey, hkid, -, plainValue, hop, hplain⟩ := hnew.encrypted
  obtain ⟨m, hm, hnumber⟩ := hnew.next
  have hmem : v ∈ vaultSchema.view ws W.db .secretVersions :=
    hg.version_inserted (mem_versionsInserted.mp (hlist ▸ List.mem_singleton.mpr rfl)).1
  refine ⟨v, plainValue, ⟨hmem, rfl, hnew.secret, fun j => ?_⟩, fun key' hkey' hkid' => ?_, ?_⟩
  · have hview : Numbered (vaultSchema.view ws W.db) s.id j ↔ Numbered W.db s.id j ∨ j = m + 1 := by
      constructor
      · rintro ⟨v', hv', hsv, rfl⟩
        rcases hg.version_origin hn hv' with hold | hins
        · exact Or.inl ⟨v', hold, hsv, rfl⟩
        · have hin : v' ∈ versionsInserted s.id ws :=
            List.mem_filterMap.mpr ⟨_, hins, if_pos hsv⟩
          rw [hlist] at hin
          exact Or.inr (List.mem_singleton.mp hin ▸ hnumber)
      · rintro (⟨v', hv', hsv, rfl⟩ | rfl)
        · exact ⟨v', hg.version_kept hv', hsv, rfl⟩
        · exact ⟨v, hmem, hnew.secret, hnumber⟩
    rw [show (s.pointingTo v.id).id = s.id from rfl, hview, hm j, hnumber]
    omega
  · obtain rfl : key' = key := hg.key_unchanged hn h.valid hkey hkey' (hkid'.trans hkid.symm)
    exact hplain
  · rw [stores_snoc, hop, hlist]
    simp

/-- Every commit that does no more than its effect keeps the invariant. -/
theorem VaultInv.commit (h : VaultInv d calls base W) (hl : vaultSchema.LawfulCommit base W ws)
    (hg : SecretEffect d (calls k).op W.db ws) :
    VaultInv d calls base (W.commit vaultEngine k ws) := by
  have hn : vaultSchema.NewKeys ws W.db := hl.newKeys h.used
  refine ⟨hl.after, Schema.used_commit h.used k ws, fun e he => hg.onlyKey hn h.valid h.onlyKey he,
    hg.keysOwn hn h.valid hl.after h.keysOwn, fun s' hs' => ?_⟩
  rcases hg.secret_cases hs' with ⟨s, hs, hid, -, hpointer, hins⟩ | ⟨s, v, hnew, rfl, hlist, -⟩
  · exact h.current_kept hn hg hs hid hpointer hins
  · exact h.current_stored hn hg hnew hlist

end

end EnvVault
