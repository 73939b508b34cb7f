import EnvVault.SecretRules

/-!
# The version chain under every interleaving

The next version number comes from an unlocked read, and only the uniqueness
constraint on the number stands between two racing rotations. A rotation that
commits has inserted the number after the last one: the constraint refuses a
smaller number at the INSERT, and while the INSERT is open nobody else can
commit a version of that secret.
-/
namespace EnvVault
open EnvVault.Relational EnvVault.Transactions

section
variable {n : ℕ} {d : Deployment} {calls : Fin n → ServiceCall} {base : Table × UUID → Prop}
  {i : Fin n}

section
variable {uow : UnitOfWork} {W : VaultWorld n}

/-- A secret that no key refers to yet has no version. -/
theorem VaultInv.numberedUpTo_zero (h : VaultInv d calls base W) {x : UUID}
    (hx : ¬ vaultSchema.Ever base W (.secrets, x)) : NumberedUpTo W.db x 0 := by
  intro m
  constructor
  · rintro ⟨v, hv, rfl, -⟩
    obtain ⟨s, hs, hid⟩ := parent_exists h.valid hv (by simp [referencesOf] :
      (.secrets, some v.secretId) ∈ referencesOf .secretVersions v)
    exact absurd (hid ▸ h.used .secrets s hs) hx
  · omega

/-- If the number after `m` is free, no version of the secret has a greater one. -/
theorem VaultInv.le_of_not_numbered (h : VaultInv d calls base W) {s : Secret}
    (hs : s ∈ W.db .secrets) {x : UUID} (hx : s.id = x) {m : ℕ}
    (hfree : ¬ Numbered W.db x (m + 1)) :
    ∀ v ∈ W.db .secretVersions, v.secretId = x → v.versionNumber ≤ m := by
  obtain ⟨v₀, -, hv₀, -⟩ := h.current s hs
  intro v hv hvx
  have hle := ((hv₀.last v.versionNumber).mp ⟨v, hv, hvx.trans hx.symm, rfl⟩).2
  rw [← hx, hv₀.last (m + 1)] at hfree
  omega

/-- The greatest number of the secret is the number of its versions. -/
theorem VaultInv.numberedUpTo_of_last (h : VaultInv d calls base W) {s : Secret}
    (hs : s ∈ W.db .secrets) {m : ℕ}
    (hlast : ∀ v ∈ W.db .secretVersions, v.secretId = s.id → v.versionNumber ≤ m)
    (hm : m = 0 ∨ Numbered W.db s.id m) : NumberedUpTo W.db s.id m := by
  obtain ⟨v, -, hv, -⟩ := h.current s hs
  have hle : v.versionNumber ≤ m := hlast v hv.mem hv.secret
  have hge : m ≤ v.versionNumber := by
    rcases hm with rfl | hm
    · exact Nat.zero_le _
    · exact ((hv.last m).mp hm).2
  exact le_antisymm hle hge ▸ hv.last

theorem createSecret_meets (environment org : UUID) (keyName plainValue : String) (actor : UUID)
    (hop : (calls i).op = .createSecret environment org keyName plainValue actor) :
    wlp (secretContract d calls base) i
      (SecretService.createSecret d.kms uow environment org keyName plainValue actor)
      (fun _ _ _ => True) (fun _ _ _ => True) ⟨[], []⟩ W := by
  have hX : ∀ (e : Exn) (l : Local Db RowWrite) (V : VaultWorld n), True := fun _ _ _ => trivial
  refine wlp_reads_bind (reads_requireOrgRole _ _ _) hX stable_true trivial fun _ _ V _ _ _ => ?_
  refine wlp_reads_bind (SecretService.reads_resolveEnvironmentOrg _ _) hX stable_true trivial
    fun _ _ V _ _ _ => ?_
  refine wlp_reads_bind (reads_selectOne _ _) hX stable_true trivial fun _ _ V _ _ _ => ?_
  refine wlp_reads_bind (reads_raiseIf _ _ _) hX stable_true trivial fun _ _ V _ _ _ => ?_
  refine wlp_activeKey_bind hX (A := fun _ => True) rfl stable_true trivial
    fun key _ V hknown henv _ => ?_
  refine wlp_reads_bind (reads_encryptSecret _ _) hX (stable_keyKnown key) hknown
    fun encrypted _ V hplain _ hknown => ?_
  refine wlp_insertFlushed_bind hX (stable_keyKnown key) hknown fun V inp hknown _ _ => ?_
  refine wlp_insertFlushed_bind (W := V.consume inp) hX (stable_keyKnown key) hknown
    fun V inp' hknown _ hadm => ?_
  -- the foreign-key check has found the key
  have hkey : key ∈ V.db .encryptionKeys := by
    obtain ⟨k, hk, hid⟩ := vaultSchema_referencesHold.mp (Schema.admitsInsert_iff.mp hadm).2.2
      (.encryptionKeys, some key.id) (by simp [referencesOf]) key.id rfl
    exact hknown.2 k hk hid ▸ hk
  refine wlp_bind (wlp_commitPointer hX (fun _ _ _ => fun _ _ => trivial)
    (A := fun db => key ∈ db .encryptionKeys)
    (fun vs => stable_referencedKey (List.mem_append_left _ (List.mem_append_right _
      (List.mem_singleton.mpr rfl))) rfl) hkey fun V r hkey hi hl hr hid => ?_)
  have hunused := hl.unused (.secrets, inp.uuid) (by simp [rowId])
  rcases List.mem_append.mp hr with hold | hnew
  · have hrid : rowId .secrets r = inp.uuid := hid
    exact absurd (hrid ▸ hi.used .secrets r hold) hunused
  · obtain rfl := List.mem_singleton.mp hnew
    exact .secretCreated _ _ ⟨rfl, ⟨0, hi.numberedUpTo_zero hunused, rfl⟩, key, hkey, rfl, henv,
      plainValue, by rw [hop]; rfl, hplain⟩

/-- A rotation that commits has inserted the number after the last one. -/
theorem addNewVersion_meets (secretId org : UUID) (plainValue : String) (actor : UUID)
    (hop : (calls i).op = .addNewVersion secretId org plainValue actor) :
    wlp (secretContract d calls base) i
      (SecretService.addNewVersion d.kms uow secretId org plainValue actor)
      (fun _ _ _ => True) (fun _ _ _ => True) ⟨[], []⟩ W := by
  have hX : ∀ (e : Exn) (l : Local Db RowWrite) (V : VaultWorld n), True := fun _ _ _ => trivial
  refine wlp_reads_bind (reads_requireOrgRole _ _ _) hX stable_true trivial fun _ _ V _ _ _ => ?_
  refine wlp_getOwnedSecret_bind hX rfl (fun s => stable_secret s.id s.environmentId)
    (fun V _ s _ hs => ⟨s, hs, rfl, rfl⟩) fun s seen V _ _ _ hs => ?_
  refine wlp_activeKey_bind hX (A := fun db => ∃ s' ∈ db .secrets, s'.id = s.id ∧
    s'.environmentId = s.environmentId) rfl (stable_secret _ _) hs fun key _ V hknown henv hs => ?_
  refine wlp_reads_bind (reads_encryptSecret _ _) hX ((stable_keyKnown key).and (stable_secret _ _))
    ⟨hknown, hs⟩ fun encrypted _ V hplain _ hA => ?_
  refine wlp_getLatestForSecret_bind hX rfl ((stable_keyKnown key).and (stable_secret _ _)) hA
    fun latest _ V m hm hnumber hA => ?_
  rw [hnumber]
  refine wlp_reads_bind (reads_raiseIf _ _ _) hX (((stable_keyKnown key).and
    (stable_secret _ _)).and (stable_numbered s.id m)) ⟨hA, hm⟩ fun _ _ V _ _ hA => ?_
  refine wlp_insertFlushed_bind hX (((stable_keyKnown key).and
    (stable_secret _ _)).and (stable_numbered s.id m)) hA fun V inp hA hi hadm => ?_
  obtain ⟨⟨hknown, hs⟩, hm⟩ := hA
  obtain ⟨hnew, huniq, hrefs⟩ := Schema.admitsInsert_iff.mp hadm
  -- the foreign-key check has found the key
  have hkey : key ∈ V.db .encryptionKeys := by
    obtain ⟨k, hk, hid⟩ := vaultSchema_referencesHold.mp hrefs
      (.encryptionKeys, some key.id) (by simp [referencesOf]) key.id rfl
    exact hknown.2 k hk hid ▸ hk
  -- the uniqueness check has found no version with the number
  have hfree : ¬ Numbered V.db s.id (m + 1) := by
    rintro ⟨v, hv, hsv, hnum⟩
    have hclash := (Schema.uniqueAmong_iff.mp huniq v hv (hnew v hv)
      (fun a b => a.secretId == b.secretId && a.versionNumber == b.versionNumber)
      (by simp [vaultSchema, uniqueOf])).1
    simp [hsv, hnum] at hclash
  have hlast : ∀ v ∈ V.db .secretVersions, v.secretId = s.id → v.versionNumber ≤ m := by
    obtain ⟨s', hs', hid, -⟩ := hs
    exact hi.le_of_not_numbered hs' hid hfree
  have hpending : (.insert .secretVersions ⟨inp.uuid, s.id, key.id, encrypted.1, encrypted.2, m + 1,
      some actor⟩ : RowWrite) ∈ ([] : List RowWrite) ++ [.insert .secretVersions ⟨inp.uuid, s.id,
        key.id, encrypted.1, encrypted.2, m + 1, some actor⟩] := by
    simp
  refine wlp_bind (wlp_commitPointer hX (fun _ _ _ => fun _ _ => trivial)
    (A := fun db => (key ∈ db .encryptionKeys ∧
      ∀ v ∈ db .secretVersions, v.secretId = s.id → v.versionNumber ≤ m) ∧
      (∃ s' ∈ db .secrets, s'.id = s.id ∧ s'.environmentId = s.environmentId) ∧
      (m = 0 ∨ Numbered db s.id m))
    (fun vs => ((stable_referencedKey (List.mem_append_left _ hpending) rfl).and
      (stable_lastNumber (List.mem_append_left _ hpending) rfl)).and
        ((stable_secret _ _).and (stable_numbered _ _)))
    ⟨⟨hkey, hlast⟩, hs, hm⟩ fun V r hA hi hl hr hid => ?_)
  obtain ⟨⟨hkey, hlast⟩, ⟨s', hs', hid', henv'⟩, hm⟩ := hA
  have hr : r ∈ V.db .secrets := hr
  obtain rfl : r = s' := hi.valid.eq_of_id (t := .secrets) hr hs' (hid.trans hid'.symm)
  exact .versionAdded r _ hr ⟨hid.symm, ⟨m, hid ▸ hi.numberedUpTo_of_last hr (hid ▸ hlast)
    (hid ▸ hm), rfl⟩, key, hkey, rfl, henv.trans henv'.symm, plainValue, by rw [hop]; rfl, hplain⟩

theorem deleteSecret_meets (secretId org actor : UUID) :
    wlp (secretContract d calls base) i (SecretService.deleteSecret uow secretId org actor)
      (fun _ _ _ => True) (fun _ _ _ => True) ⟨[], []⟩ W := by
  have hX : ∀ (e : Exn) (l : Local Db RowWrite) (V : VaultWorld n), True := fun _ _ _ => trivial
  refine wlp_reads_bind (reads_requireOrgRole _ _ _) hX stable_true trivial fun _ _ V _ _ _ => ?_
  refine wlp_getOwnedSecret_bind hX rfl (fun _ => stable_true) (fun _ _ _ _ _ => trivial)
    fun s seen V _ _ _ _ => ?_
  refine wlp_bind (wlp_updateById_bind hX stable_true trivial (fun V inp _ _ _ => fun U hU => ?_)
    fun V inp s _ _ hs _ _ => fun U hU => ?_)
  · exact wlp_commit_end hX stable_true trivial (fun _ _ _ _ => .elsewhere _ (by simp))
      fun _ _ => trivial
  · have hown : Stable (secretContract d calls base) i [.update .secrets (s.deletedFrom inp.now)]
        fun W => s ∈ vaultSchema.view [] W.db .secrets :=
      stable_ownView ⟨_, List.mem_singleton.mpr rfl, rfl⟩
    exact wlp_commit_end hX hown (hown _ _ hU hs) (fun V hs _ _ => .secretDeleted s hs inp.now)
      fun _ _ => trivial

theorem createEnvironment_meets (project org : UUID) (name : String) (actor : UUID) :
    wlp (secretContract d calls base) i
      (EnvironmentService.create d.kms uow project org name actor)
      (fun _ _ _ => True) (fun _ _ _ => True) ⟨[], []⟩ W := by
  have hX : ∀ (e : Exn) (l : Local Db RowWrite) (V : VaultWorld n), True := fun _ _ _ => trivial
  refine wlp_reads_bind (reads_requireOrgRole _ _ _) hX stable_true trivial fun _ _ V _ _ _ => ?_
  refine wlp_reads_bind (ProjectService.reads_lookup _ _) hX stable_true trivial
    fun _ _ V _ _ _ => ?_
  refine wlp_reads_bind (reads_selectOne _ _) hX stable_true trivial fun _ _ V _ _ _ => ?_
  refine wlp_reads_bind (reads_raiseIf _ _ _) hX stable_true trivial fun _ _ V _ _ _ => ?_
  refine wlp_insertFlushed_bind hX stable_true trivial fun V inp _ _ _ => ?_
  refine wlp_reads_bind reads_readInput hX stable_true trivial fun random _ V _ _ _ => ?_
  refine wlp_conflict hX (wlp_insertFlushed_bind hX stable_true trivial fun V inp' _ _ _ => ?_)
  exact wlp_commit_last hX stable_true trivial
    (fun V _ _ _ => .environmentCreated _ _ rfl rfl ⟨_, _, rfl⟩) fun _ _ => trivial

/-- A container whose deletion succeeds has no version below it. -/
theorem VaultInv.deletesNoSecret (h : VaultInv d calls base W) (c : Container) {ws : List RowWrite}
    (hws : vaultSchema.deleteRow c.table c.id W.db = .ok ws) : DeletesNoSecret W.db ws := by
  by_cases hx : c.Exists W.db
  · have ha : ¬ c.HasAudit W.db := by
      rintro ⟨a, ham, o, rfl, hao⟩
      exact absurd (hws.symm.trans (Container.deleteRow_rejected h.valid hx ⟨a, ham, hao⟩))
        (by simp)
    have hno : ¬ c.HasVersion W.db := by
      intro hv
      exact absurd (hws.symm.trans (Container.deleteRow_violated h.valid h.keysOwn hx hv ha))
        (by simp)
    obtain ⟨ws', hws', hrem⟩ := Container.deleteRow_ok h.valid h.keysOwn hx hno ha
    obtain rfl : ws = ws' := Except.ok.inj (hws.symm.trans hws')
    refine ⟨hrem.deletes, fun x hd => ?_, fun x hd => ?_, fun k hk hd => ?_⟩
    · obtain ⟨s, hs, -, hsub⟩ := (hrem.mem .secrets x).mp hd
      obtain ⟨v, -, hv, -⟩ := h.current s hs
      exact hno ⟨v, hv.mem, s, hs, hv.secret.symm, hsub⟩
    · obtain ⟨v, hv, -, hsub⟩ := (hrem.mem .secretVersions x).mp hd
      exact hno ⟨v, hv, hsub⟩
    · obtain ⟨k', hk', hid, hsub⟩ := (hrem.mem .encryptionKeys k.id).mp hd
      obtain rfl : k' = k := h.valid.eq_of_id (t := .encryptionKeys) hk' hk hid
      obtain ⟨e, he, heid⟩ := parent_exists h.valid hk (by simp [referencesOf] :
        (.environments, some k'.environmentId) ∈ referencesOf .encryptionKeys k')
      have henv : c.HasEnvironment W.db e.id := by
        rw [show e.id = k'.environmentId from heid]
        exact hsub
      exact (hrem.mem .environments k'.environmentId).mpr ⟨e, he, heid, henv⟩
  · simp only [Container.Exists, not_exists, not_and] at hx
    have hnil : vaultSchema.deleteRow c.table c.id W.db = .ok [] :=
      if_pos (List.all_eq_true.mpr fun r hr => decide_eq_true (hx r hr))
    obtain rfl : ws = [] := Except.ok.inj (hws.symm.trans hnil)
    exact ⟨by simp, by simp, by simp, by simp⟩

/-- The DELETE of a container and its COMMIT. -/
theorem wlp_deleteContainer (c : Container) {l : Local Db RowWrite} (hl : l.pending = []) :
    wlp (secretContract d calls base) i ((uow.delete c.table c.id).bind fun _ => UnitOfWork.commit)
      (fun _ _ _ => True) (fun _ _ _ => True) l W := by
  have hX : ∀ (e : Exn) (l : Local Db RowWrite) (V : VaultWorld n), True := fun _ _ _ => trivial
  obtain ⟨pending, seen⟩ := l
  obtain rfl : pending = [] := hl
  refine wlp_delete_bind hX stable_true trivial (fun V inp _ _ => ?_) fun V inp ws _ hi hws => ?_
  · exact wlp_commit_end hX stable_true trivial (fun _ _ _ _ => .elsewhere _ (by simp))
      fun _ _ => trivial
  · have hdel : DeletesNoSecret (V.consume inp).db ws := hi.deletesNoSecret c hws
    exact wlp_commit_end hX stable_deletesNoSecret hdel (fun V hV _ _ => .containerDeleted _ hV)
      fun _ _ => trivial

theorem deleteEnvironment_meets (id org actor : UUID) :
    wlp (secretContract d calls base) i (EnvironmentService.delete uow id org actor)
      (fun _ _ _ => True) (fun _ _ _ => True) ⟨[], []⟩ W := by
  have hX : ∀ (e : Exn) (l : Local Db RowWrite) (V : VaultWorld n), True := fun _ _ _ => trivial
  refine wlp_reads_bind (reads_requireOrgRole _ _ _) hX stable_true trivial fun _ _ V _ _ _ => ?_
  refine wlp_reads_bind (reads_requireOrgRoleAgain _ _ _ _) hX stable_true trivial
    fun _ _ V _ _ _ => ?_
  refine wlp_reads_bind (EnvironmentService.reads_getIn _ _) hX stable_true trivial
    fun e _ V _ _ _ => ?_
  exact wlp_deleteContainer (.environment e.id) rfl

theorem deleteProject_meets (id org actor : UUID) :
    wlp (secretContract d calls base) i (ProjectService.delete uow id org actor)
      (fun _ _ _ => True) (fun _ _ _ => True) ⟨[], []⟩ W := by
  have hX : ∀ (e : Exn) (l : Local Db RowWrite) (V : VaultWorld n), True := fun _ _ _ => trivial
  refine wlp_reads_bind (reads_requireOrgRole _ _ _) hX stable_true trivial fun _ _ V _ _ _ => ?_
  refine wlp_reads_bind (reads_requireOrgRoleAgain _ _ _ _) hX stable_true trivial
    fun _ _ V _ _ _ => ?_
  refine wlp_reads_bind (ProjectService.reads_lookup _ _) hX stable_true trivial
    fun p _ V _ _ _ => ?_
  exact wlp_deleteContainer (.project p.id) rfl

theorem deleteOrganization_meets (org actor : UUID) :
    wlp (secretContract d calls base) i (OrganizationService.delete uow org actor)
      (fun _ _ _ => True) (fun _ _ _ => True) ⟨[], []⟩ W := by
  have hX : ∀ (e : Exn) (l : Local Db RowWrite) (V : VaultWorld n), True := fun _ _ _ => trivial
  refine wlp_reads_bind (reads_requireOrgRole _ _ _) hX stable_true trivial fun _ _ V _ _ _ => ?_
  refine wlp_reads_bind (OrganizationService.reads_getOrganization _) hX stable_true trivial
    fun o _ V _ _ _ => ?_
  exact wlp_deleteContainer (.organization o.id) rfl

/-- The secret points at this version, which decrypts under this key to a value that
a call has stored. -/
structure Readable (d : Deployment) (calls : Fin n → ServiceCall) (db : Db)
    (log : List (Fin n × List RowWrite)) (s : Secret) (v : SecretVersion) (key : EncryptionKey)
    (plainValue : String) : Prop where
  pointer : s.currentVersionId = some v.id
  version : v ∈ db .secretVersions
  ofKey : key ∈ db .encryptionKeys
  reference : key.id = v.encryptionKeyId
  plain : CryptoService.decryptSecret d.kms v.encryptedValue v.iv key.wrappedDek = .ok plainValue
  stored : (v.id, plainValue) ∈ stores calls log s.id

theorem VaultInv.readable (h : VaultInv d calls base W) {s : Secret} (hs : s ∈ W.db .secrets) :
    ∃ v key plainValue, Readable d calls W.db W.log s v key plainValue := by
  obtain ⟨v, plainValue, hv, hplain, hlast⟩ := h.current s hs
  obtain ⟨key, hkey, hid⟩ := parent_exists h.valid hv.mem (by simp [referencesOf] :
    (.encryptionKeys, some v.encryptionKeyId) ∈ referencesOf .secretVersions v)
  exact ⟨v, key, plainValue, hv.pointer, hv.mem, hkey, hid, hplain key hkey hid,
    List.mem_of_getLast? hlast⟩

/-- A version keeps its key: neither is ever changed, and the key cannot go alone. -/
theorem stable_readable {ws : List RowWrite} (s : Secret) (v : SecretVersion) (key : EncryptionKey)
    (plainValue : String) : Stable (secretContract d calls base) i ws fun W =>
      Readable d calls W.db W.log s v key plainValue := by
  refine .of_steps (fun _ _ _ _ hA => hA) fun W c vs hi ha hg _ _ hA => ?_
  have hversion := hg.version_kept hA.version
  obtain ⟨key', hkey', hid⟩ := parent_exists ha.after hversion (by simp [referencesOf] :
    (.encryptionKeys, some v.encryptionKeyId) ∈ referencesOf .secretVersions v)
  obtain rfl : key' = key := hg.key_unchanged (ha.newKeys hi.used) hi.valid hA.ofKey hkey'
    (Eq.trans hid hA.reference.symm)
  exact ⟨hA.pointer, hversion, hkey', hA.reference, hA.plain, mem_stores_commit hA.stored⟩

/-- In one of these databases the secret was live, and its current version was one
that a committed call had stored with this value. -/
def Revealed (calls : Fin n → ServiceCall) (log : List (Fin n × List RowWrite)) (seen : List Db)
    (secretId : UUID) (plainValue : String) : Prop :=
  ∃ db ∈ seen, ∃ s ∈ db .secrets, s.id = secretId ∧ s.isDeleted = false ∧
    ∃ versionId, s.currentVersionId = some versionId ∧
      (versionId, plainValue) ∈ stores calls log secretId

theorem Revealed.commit {seen : List Db} {x : UUID} {plainValue : String}
    (h : Revealed calls W.log seen x plainValue) (k : Fin n) (ws : List RowWrite) :
    Revealed calls (W.commit vaultEngine k ws).log seen x plainValue := by
  obtain ⟨db, hdb, s, hs, hid, hlive, versionId, hpointer, hstored⟩ := h
  exact ⟨db, hdb, s, hs, hid, hlive, versionId, hpointer, mem_stores_commit hstored⟩

theorem stable_revealed {ws : List RowWrite} (seen : List Db) (x : UUID) (plainValue : String) :
    Stable (secretContract d calls base) i ws fun W => Revealed calls W.log seen x plainValue :=
  .of_steps (fun _ _ _ _ hA => hA) fun _ k vs _ _ _ _ _ hA => hA.commit k vs

theorem getDecryptedValue_meets (secretId org actor : UUID) :
    wlp (secretContract d calls base) i
      (SecretService.getDecryptedValue d.kms uow secretId org actor)
      (fun plainValue l V => l.pending = [] ∧ Revealed calls V.log l.seen secretId plainValue)
      (fun _ _ _ => True) ⟨[], []⟩ W := by
  have hX : ∀ (e : Exn) (l : Local Db RowWrite) (V : VaultWorld n), True := fun _ _ _ => trivial
  refine wlp_reads_bind (reads_requireOrgRole _ _ _) hX stable_true trivial fun _ _ V _ _ _ => ?_
  refine wlp_getOwnedSecret_bind hX rfl
    (A := fun s W => ∃ v key plainValue, Readable d calls W.db W.log s v key plainValue)
    (fun s => .exists fun v => .exists fun key => .exists fun plainValue =>
      stable_readable s v key plainValue)
    (fun V inp s hi hs => hi.readable hs) fun s seen V hseen hid hlive hA => ?_
  obtain ⟨v, key, plainValue, hA⟩ := hA
  rw [hA.pointer]
  refine wlp_get_bind hX (stable_readable s v key plainValue) hA (fun V _ => wlp_throw hX)
    fun V inp v' hA hi hv' hid' => ?_
  obtain rfl : v' = v := hi.valid.eq_of_id (t := .secretVersions) hv' hA.version hid'
  refine wlp_get_bind (W := V.consume inp) hX (stable_readable s v' key plainValue) hA
    (fun V _ => wlp_throw hX) fun V inp key' hA hi hkey' hid' => ?_
  obtain rfl : key' = key := hi.valid.eq_of_id (t := .encryptionKeys) hkey' hA.ofKey
    (Eq.trans hid' hA.reference.symm)
  refine wlp_reads_bind (W := V.consume inp) (reads_liftCrypto _) hX
    (stable_readable s v' key' plainValue) hA fun plainValue' seen' V hplain hseen' hA => ?_
  obtain rfl : plainValue' = plainValue := Except.ok.inj (hplain.symm.trans hA.plain)
  refine wlp_bind (wlp_insertFlushed_bind hX (stable_readable s v' key' plainValue') hA
    fun V inp hA _ _ => fun U hU => ?_)
  have hA := stable_readable s v' key' plainValue' _ _ hU hA
  refine wlp_commit_reads (P := fun a => a = plainValue') hX
    (stable_readable s v' key' plainValue') hA rfl
    (fun _ _ _ _ => .elsewhere _ (by simp [Write.table, vaultTables])) ?_
  rintro V _ seen₂ hA _ _ _ rfl hseen₂ U hU
  refine ⟨rfl, ?_⟩
  obtain ⟨db, hdb, hs⟩ := hseen
  refine ⟨db, ?_, s, hs, hid, hlive, v'.id, hA.pointer, ?_⟩
  · exact hseen₂.subset (List.mem_cons_of_mem _ (hseen'.subset (List.mem_cons_of_mem _
      (List.mem_cons_of_mem _ hdb))))
  · exact hid ▸ stable_stores s.id _ _ _ hU (mem_stores_commit hA.stored)

end

/-- What a call has to show for its result: a reveal, that it returned the value of
the secret. -/
def RevealsStored (calls : Fin n → ServiceCall) (i : Fin n) (a : Reply) (seen : List Db)
    (W : VaultWorld n) : Prop :=
  ∀ secretId org actor plainValue, (calls i).op = .getDecryptedValue secretId org actor →
    a = .value plainValue → Revealed calls W.log seen secretId plainValue

theorem lasting_revealsStored : Lasting (E := vaultEngine) (RevealsStored calls) where
  consume _ _ _ _ _ h := h
  commit _ _ _ _ k ws h secretId org actor plainValue hop ha :=
    (h secretId org actor plainValue hop ha).commit k ws

theorem revealsStored_of_ne {a : Reply} {seen : List Db}
    (h : ∀ s o u, (calls i).op ≠ .getDecryptedValue s o u) (W : VaultWorld n) :
    RevealsStored calls i a seen W :=
  fun s o u _ hop => absurd hop (h s o u)

/-- A call that writes none of the tables of the vault and reveals nothing. -/
theorem elsewhere_meets (htables : ∀ t ∈ (calls i).op.tables, t ∉ vaultTables)
    (hop : ∀ s o u, (calls i).op ≠ .getDecryptedValue s o u) {W : VaultWorld n} :
    wlp (secretContract d calls base) i ((calls i).program d)
      (fun a l V => RevealsStored calls i a l.seen V) (fun _ _ _ => True) ⟨[], []⟩ W :=
  wlp_comprises (P := fun w => w.table ∉ vaultTables)
    ((calls i).op.comprises.mono fun _ hw inp v w hmem => htables _ ((hw inp v).2 w hmem))
    (fun _ _ V => revealsStored_of_ne hop V) (fun _ _ _ => trivial)
    (fun _ ws _ _ h => .elsewhere ws h) (by simp)

theorem secret_meets : (secretContract d calls base).Meets (fun i => (calls i).program d)
    (RevealsStored calls) := by
  intro i W _
  by_cases htables : ∀ t ∈ (calls i).op.tables, t ∉ vaultTables
  · by_cases hop : ∀ s o u, (calls i).op ≠ .getDecryptedValue s o u
    · exact elsewhere_meets htables hop
    · simp only [ne_eq, not_forall, not_not] at hop
      obtain ⟨secretId, org, actor, hop⟩ := hop
      change wlp _ i ((calls i).op.program d (calls i).uow) _ _ _ _
      rw [hop]
      refine wlp_bind (wlp_mono (fun plainValue l V h => fun U hU => ?_) (fun _ _ _ h => h)
        (getDecryptedValue_meets secretId org actor))
      rintro x o u p hop' ⟨⟩
      obtain ⟨rfl, -, -⟩ := Op.getDecryptedValue.inj (hop.symm.trans hop')
      exact stable_revealed _ _ _ _ _ hU h.2
  · have hQ (h : ∀ s o u, (calls i).op ≠ .getDecryptedValue s o u) (b : Reply)
        (l : Local Db RowWrite) (V : VaultWorld n) : RevealsStored calls i b l.seen V :=
      revealsStored_of_ne h V
    change wlp _ i ((calls i).op.program d (calls i).uow) _ _ _ _
    cases h : (calls i).op with
    | createEnvironment project org name actor =>
      exact wlp_map (hQ (by simp [h])) (createEnvironment_meets _ _ _ _)
    | createSecret environment org keyName plainValue actor =>
      exact wlp_map (hQ (by simp [h])) (createSecret_meets _ _ _ _ _ h)
    | addNewVersion secretId org plainValue actor =>
      exact wlp_map (hQ (by simp [h])) (addNewVersion_meets _ _ _ _ h)
    | deleteSecret secretId org actor =>
      exact wlp_map (hQ (by simp [h])) (deleteSecret_meets _ _ _)
    | deleteEnvironment id org actor =>
      exact wlp_map (hQ (by simp [h])) (deleteEnvironment_meets _ _ _)
    | deleteProject id org actor => exact wlp_map (hQ (by simp [h])) (deleteProject_meets _ _ _)
    | deleteOrganization org actor =>
      exact wlp_map (hQ (by simp [h])) (deleteOrganization_meets _ _)
    | _ => simp [h, Op.tables, vaultTables] at htables

end

/-- A run begins with nothing in the vault: users, organizations, memberships and
projects may be there. -/
structure Opens {n : ℕ} (W : VaultWorld n) : Prop extends Begins W where
  environments : W.db .environments = []
  secrets : W.db .secrets = []

/-- The state of the whole vault in every state of a run. -/
theorem Opens.ok {n : ℕ} {d : Deployment} {calls : Fin n → ServiceCall} {W : VaultWorld n}
    (ho : Opens W) {as : Schedule n} {s : VaultSys n}
    (hr : (waiting d calls W).run vaultEngine as = some s) :
    s.Ok (secretContract d calls (baseKeys W.db)) (fun i => (calls i).program d)
      (RevealsStored calls) := by
  have hinit : VaultInv d calls (baseKeys W.db) W := by
    refine ⟨ho.valid, fun t r hr => Or.inl (List.mem_map_of_mem hr), by simp [ho.environments],
      fun v hv s hs => ?_, by simp [ho.secrets]⟩
    rw [ho.secrets] at hs
    cases hs
  exact Sys.Ok.run secret_meets lasting_revealsStored
    (.initial (hinit : (secretContract d calls _).inv W))
    (fun pre a t hpre ht k ws hc => ⟨ho.each_lawful pre a t hpre ht k ws hc,
      fun _ _ _ => trivial⟩) hr

theorem Opens.vaultInv {n : ℕ} {d : Deployment} {calls : Fin n → ServiceCall} {W : VaultWorld n}
    (ho : Opens W) {as : Schedule n} {s : VaultSys n}
    (hr : (waiting d calls W).run vaultEngine as = some s) :
    VaultInv d calls (baseKeys W.db) s.world :=
  (ho.ok hr).inv

/-- The keys of an environment. -/
def keysOf (db : Db) (environmentId : UUID) : List EncryptionKey :=
  (db .encryptionKeys).filter fun k => k.environmentId == environmentId

/-- The version numbers of a secret. -/
def versionNumbers (db : Db) (secretId : UUID) : List ℕ :=
  ((db .secretVersions).filter fun v => v.secretId == secretId).map SecretVersion.versionNumber

/-- One active key for each environment, versions `1, …, n` for each secret with the
pointer at version `n`, and every version under a key of its own environment. -/
structure ChainOk (db : Db) : Prop where
  oneKey : ∀ e ∈ db .environments, ∃ k, keysOf db e.id = [k] ∧ k.isActive = true
  numbers : ∀ s ∈ db .secrets, ∃ m, 1 ≤ m ∧ (versionNumbers db s.id).Perm (List.range' 1 m) ∧
    ∃ v ∈ db .secretVersions, s.currentVersionId = some v.id ∧ v.secretId = s.id ∧
      v.versionNumber = m
  keysOwn : ∀ v ∈ db .secretVersions, ∃ s ∈ db .secrets, s.id = v.secretId ∧
    ∃ k ∈ db .encryptionKeys, k.id = v.encryptionKeyId ∧ k.environmentId = s.environmentId

section
variable {n : ℕ} {d : Deployment} {calls : Fin n → ServiceCall} {base : Table × UUID → Prop}
  {W : VaultWorld n}

theorem keysOf_eq {db : Db} (hv : vaultSchema.Valid db) {e : UUID} {k : EncryptionKey}
    (hk : OnlyKey d.kms db e k) : keysOf db e = [k] := by
  have hnodup : (keysOf db e).Nodup := (List.Nodup.of_map _ (hv.keys .encryptionKeys)).filter _
  refine List.perm_singleton.mp ((List.perm_ext_iff_of_nodup hnodup (List.nodup_singleton k)).mpr
    fun k' => ?_)
  simp only [keysOf, List.mem_filter, beq_iff_eq, List.mem_singleton]
  constructor
  · exact fun ⟨hk', he⟩ => hk.only k' hk' he
  · rintro rfl
    exact ⟨hk.mem, hk.environment⟩

theorem nodup_versionNumbers {db : Db} (hv : vaultSchema.Valid db) (x : UUID) :
    (versionNumbers db x).Nodup := by
  refine List.Nodup.map_on (fun a ha b hb hab => ?_)
    ((List.Nodup.of_map _ (hv.keys .secretVersions)).filter _)
  simp only [List.mem_filter, beq_iff_eq] at ha hb
  by_contra hne
  have hclash := hv.unique .secretVersions
    (fun a b => a.secretId == b.secretId && a.versionNumber == b.versionNumber)
    (by simp [vaultSchema, uniqueOf]) a ha.1 b hb.1
    (fun hid => hne (hv.eq_of_id (t := .secretVersions) ha.1 hb.1 hid))
  simp [ha.2, hb.2, hab] at hclash

theorem VaultInv.chainOk (h : VaultInv d calls base W) : ChainOk W.db where
  oneKey e he := by
    obtain ⟨k, hk⟩ := h.onlyKey e he
    exact ⟨k, keysOf_eq h.valid hk, hk.active⟩
  numbers s hs := by
    obtain ⟨v, -, hv, -⟩ := h.current s hs
    refine ⟨v.versionNumber, ((hv.last _).mp ⟨v, hv.mem, hv.secret, rfl⟩).1, ?_, v, hv.mem,
      hv.pointer, hv.secret, rfl⟩
    refine (List.perm_ext_iff_of_nodup (nodup_versionNumbers h.valid s.id) List.nodup_range').mpr
      fun m => ?_
    have hmem : m ∈ versionNumbers W.db s.id ↔ Numbered W.db s.id m := by
      simp [versionNumbers, Numbered, and_assoc]
    rw [hmem, hv.last m, List.mem_range'_1]
    omega
  keysOwn v hv := by
    obtain ⟨s, hs, hid⟩ := parent_exists h.valid hv (by simp [referencesOf] :
      (.secrets, some v.secretId) ∈ referencesOf .secretVersions v)
    exact ⟨s, hs, hid, h.keysOwn v hv s hs hid⟩

end

/-- In every state that any calls of the services reach, in any order of their
statements and with any of them failing, the chain is in order. -/
theorem version_chain_ok {n : ℕ} (d : Deployment) (calls : Fin n → ServiceCall) (W : VaultWorld n)
    (ho : Opens W) (as : Schedule n) (s : VaultSys n)
    (hr : (waiting d calls W).run vaultEngine as = some s) : ChainOk s.world.db :=
  (ho.vaultInv hr).chainOk

/-- Organization 10 with its owner 1 and project 12. -/
def acmeDb : Db
  | .users => [⟨1, "ana@example.com", some "h", none, true⟩]
  | .organizations => [⟨10, "acme", "acme"⟩]
  | .memberships => [⟨11, 1, 10, .owner, none, 0⟩]
  | .projects => [⟨12, 10, "billing", "billing", none, some 1⟩]
  | _ => []

theorem opens_acme {n : ℕ} : Opens (⟨acmeDb, [], samplePast 10⟩ : VaultWorld n) where
  toBegins :=
    begins_sample (.of_checks mem_allTables (by decide) (by decide +kernel)) 10 (by decide)
  environments := rfl
  secrets := rfl

/-- An environment, a secret in it, a rotation and a reveal. -/
def acmeCalls : Fin 4 → ServiceCall
  | 0 => ⟨.createEnvironment 12 10 "prod" 1, sampleUow 1 10⟩
  | 1 => ⟨.createSecret 26 10 "KEY" "one" 1, sampleUow 1 10⟩
  | 2 => ⟨.addNewVersion 50 10 "two" 1, sampleUow 1 10⟩
  | 3 => ⟨.getDecryptedValue 50 10 1, sampleUow 1 10⟩

/-- One call after the other. -/
def acmeSteps : Schedule 4 :=
  sampleSteps 10 (List.replicate 9 0 ++ List.replicate 13 1 ++ List.replicate 13 2 ++
    List.replicate 10 3)

theorem version_chain_ok_acme : ∃ s, (waiting sampleDeployment acmeCalls
    ⟨acmeDb, [], samplePast 10⟩).run vaultEngine acmeSteps = some s ∧
      versionNumbers s.world.db 50 = [1, 2] ∧ ChainOk s.world.db := by
  have hrun : ((waiting sampleDeployment acmeCalls ⟨acmeDb, [], samplePast 10⟩).run vaultEngine
      acmeSteps).map (fun s => versionNumbers s.world.db 50) = some [1, 2] := by rfl
  obtain ⟨s, hs, hnumbers⟩ := Option.map_eq_some_iff.mp hrun
  exact ⟨s, hs, hnumbers, version_chain_ok sampleDeployment acmeCalls _ opens_acme acmeSteps s hs⟩

end EnvVault
