import EnvVault.SerialCalls
import EnvVault.VersionChain

/-!
# The names of secrets

`create_secret` looks for a secret of the name that is not deleted, and the
uniqueness constraint counts the deleted ones too.
-/
namespace EnvVault
open EnvVault.Relational EnvVault.Transactions

/-- `create_secret` works exactly when `list_secrets` shows no secret of the name;
otherwise it raises `SecretAlreadyExistsError` and changes nothing. -/
def FreeWhenUnlisted (d : Deployment) (inputs : ℕ → Input) (uow : UnitOfWork)
    (environmentId organizationId : UUID) (keyName plainValue : String) (actorUserId : UUID)
    (db : Db) : Prop :=
  ∃ listed, (alone inputs (SecretService.listSecrets uow environmentId organizationId actorUserId)
      db).1 = .ok listed ∧
    ((∃ secret, (alone inputs (SecretService.createSecret d.kms uow environmentId organizationId
      keyName plainValue actorUserId) db).1 = .ok secret) ↔ ∀ s ∈ listed, s.keyName ≠ keyName) ∧
    ((∃ s ∈ listed, s.keyName = keyName) →
      (∃ detail, (alone inputs (SecretService.createSecret d.kms uow environmentId organizationId
        keyName plainValue actorUserId) db).1 = .error ⟨.secretAlreadyExistsError, detail⟩) ∧
      (alone inputs (SecretService.createSecret d.kms uow environmentId organizationId keyName
        plainValue actorUserId) db).2.db = db)

/-- A secret of this name in the environment. -/
def Named (db : Db) (environmentId : UUID) (keyName : String) (s : Secret) : Prop :=
  s ∈ db .secrets ∧ s.environmentId = environmentId ∧ s.keyName = keyName

section
variable {n : ℕ} {d : Deployment} {calls : Fin n → ServiceCall} {base : Table × UUID → Prop}
  {W : VaultWorld n} {uow : UnitOfWork} {m : Membership} {inputs : ℕ → Input} {e : UUID}
  {keyName plainValue : String}

/-- The constraint leaves one secret of a name. -/
theorem named_unique {db : Db} (hdb : vaultSchema.Valid db) {s s' : Secret}
    (hs : Named db e keyName s) (hs' : Named db e keyName s') : s' = s := by
  obtain ⟨hs, rfl, rfl⟩ := hs
  obtain ⟨hs', henv, hname⟩ := hs'
  by_contra hne
  have hclash := hdb.unique .secrets
    (fun a b => a.environmentId == b.environmentId && a.keyName == b.keyName)
    (by simp [vaultSchema, uniqueOf]) s' hs' s hs
    (fun hid => hne (hdb.eq_of_id (t := .secrets) hs' hs hid))
  simp [henv, hname] at hclash

theorem VaultInv.activeKey (h : VaultInv d calls base W) {o : UUID} (he : EnvironmentIn W.db o e) :
    ∃ key, OnlyKey d.kms W.db e key := by
  obtain ⟨env, henv, rfl, -⟩ := he
  exact h.onlyKey env henv

/-- A name that no secret of the environment has passes the constraints. -/
theorem admitsInsert_secret {db : Db} {s : Secret} (hid : ∀ r ∈ db .secrets, r.id ≠ s.id)
    (hfree : ∀ r, ¬ Named db s.environmentId s.keyName r)
    (henv : ∃ env ∈ db .environments, env.id = s.environmentId) :
    vaultSchema.admitsInsert .secrets s db = true := by
  refine Schema.admitsInsert_iff.mpr ⟨hid, Schema.uniqueAmong_iff.mpr fun x hx _ u hu => ?_, ?_⟩
  · obtain rfl : u = fun a b : Secret => a.environmentId == b.environmentId &&
        a.keyName == b.keyName := by simpa [vaultSchema, uniqueOf] using hu
    have hne : ¬ (x.environmentId = s.environmentId ∧ x.keyName = s.keyName) :=
      fun heq => hfree x ⟨hx, heq⟩
    have hne' : ¬ (s.environmentId = x.environmentId ∧ s.keyName = x.keyName) :=
      fun heq => hne ⟨heq.1.symm, heq.2.symm⟩
    exact ⟨by simpa using hne, by simpa using hne'⟩
  · simpa [vaultSchema_referencesHold, referencesOf, rowId] using henv

/-- So does a version with a new number and a new nonce. -/
theorem admitsInsert_version {db : Db} {v : SecretVersion}
    (hid : ∀ r ∈ db .secretVersions, r.id ≠ v.id)
    (hnumber : ∀ r ∈ db .secretVersions, r.secretId = v.secretId →
      r.versionNumber ≠ v.versionNumber)
    (hnonce : ∀ r ∈ db .secretVersions, r.iv ≠ v.iv)
    (hkey : ∃ k ∈ db .encryptionKeys, k.id = v.encryptionKeyId)
    (hs : ∃ s ∈ db .secrets, s.id = v.secretId)
    (hu : ∀ u, v.createdBy = some u → ∃ x ∈ db .users, x.id = u) :
    vaultSchema.admitsInsert .secretVersions v db = true := by
  refine Schema.admitsInsert_iff.mpr ⟨hid, Schema.uniqueAmong_iff.mpr fun x hx _ u hu => ?_, ?_⟩
  · have hcases : u = (fun a b : SecretVersion => a.encryptionKeyId == b.encryptionKeyId &&
        a.iv == b.iv) ∨ u = fun a b : SecretVersion => a.secretId == b.secretId &&
          a.versionNumber == b.versionNumber := by
      simpa [vaultSchema, uniqueOf] using hu
    rcases hcases with rfl | rfl
    · simp [hnonce x hx, Ne.symm (hnonce x hx)]
    · have hne : ¬ (x.secretId = v.secretId ∧ x.versionNumber = v.versionNumber) :=
        fun h => hnumber x hx h.1 h.2
      have hne' : ¬ (v.secretId = x.secretId ∧ v.versionNumber = x.versionNumber) :=
        fun h => hne ⟨h.1.symm, h.2.symm⟩
      exact ⟨by simpa using hne, by simpa using hne'⟩
  · simpa [vaultSchema_referencesHold, referencesOf, rowId] using ⟨hu, hkey, hs⟩

variable (h : VaultInv d calls base W) (hacts : Acts uow W.db m)
  (hrole : roleRank .member ≤ roleRank m.role) (he : EnvironmentIn W.db m.organizationId e)
include h hacts he

/-- The listing shows the secrets of the environment that are not deleted. -/
theorem VaultInv.ends_listSecrets (inputs : ℕ → Input) : ∃ listed : List Secret,
    (∀ s, s ∈ listed ↔ s ∈ W.db .secrets ∧ s.environmentId = e ∧ s.isDeleted = false) ∧
    (SecretService.listSecrets uow e m.organizationId m.userId).Answers vaultEngine inputs [] W.db
      listed := by
  refine ⟨_, fun s => ?_, (hacts.answers_requireOrgRole h.valid (Nat.zero_le _)).bind
    ((hacts.answers_resolveEnvironmentOrg h.valid he).bind
      ((answers_select _).bind Prog.answers_ret))⟩
  simp only [List.mem_mergeSort, UnitOfWork.found, List.mem_filter, Bool.and_eq_true, beq_iff_eq,
    Bool.not_eq_true']
  constructor
  · rintro ⟨hs, -, henv, hlive⟩
    exact ⟨hs, henv, hlive⟩
  · exact fun ⟨hs, henv, hlive⟩ => ⟨hs, hacts.may_tenant (t := .secrets) (by decide)
      (by rwa [InOrganization, henv]), henv, hlive⟩

include hrole

/-- A live secret of the name makes the pre-check fail. -/
theorem VaultInv.refuses_createSecret (inputs : ℕ → Input) (plainValue : String) {s : Secret}
    (hs : Named W.db e keyName s)
    (hlive : s.isDeleted = false) :
    (SecretService.createSecret d.kms uow e m.organizationId keyName plainValue m.userId).Refuses
      vaultEngine inputs [] W.db ⟨.secretAlreadyExistsError,
        "Secret '" ++ keyName ++ "' already exists in this environment."⟩ := by
  refine (hacts.answers_requireOrgRole h.valid hrole).refuses
    ((hacts.answers_resolveEnvironmentOrg h.valid he).refuses ?_)
  have hexisting : (SecretRepository.getByEnvironmentAndName uow e keyName).Answers vaultEngine
      inputs [] W.db (some s) := by
    refine answers_selectOne_some (t := .secrets) h.valid hs.1 (hacts.may_tenant (by decide) ?_)
      (by simp [hs.2.1, hs.2.2, hlive]) fun s' hs' hc => ?_
    · rwa [InOrganization, hs.2.1]
    · simp only [Bool.and_eq_true, beq_iff_eq] at hc
      exact named_unique h.valid hs ⟨hs', hc.1.1, hc.1.2⟩
  exact hexisting.refuses (refuses_raiseIf rfl).bind

/-- Without a live secret of the name the method goes on to the first INSERT. -/
theorem VaultInv.ends_createSecret_insert {post : Except Exn Secret → Solo Db RowWrite → Prop}
    {key : EncryptionKey} (hkey : OnlyKey d.kms W.db e key)
    (hlive : ∀ s, Named W.db e keyName s → s.isDeleted = true)
    (hk : ∀ j encryptedValue, ((uow.insertFlushed .secrets fun inp =>
      (⟨inp.uuid, e, keyName, none, false, none⟩ : Secret)).bind fun secret =>
        (uow.insertFlushed .secretVersions fun inp =>
          (⟨inp.uuid, secret.id, key.id, encryptedValue, (inputs j).nonce.1, 1, some m.userId⟩ :
            SecretVersion)).bind fun version =>
          (SecretService.commitPointer uow secret.id version.id).bind fun _ =>
            .ret { secret with currentVersionId := some version.id }).Ends vaultEngine inputs []
              W.db post) :
    (SecretService.createSecret d.kms uow e m.organizationId keyName plainValue m.userId).Ends
      vaultEngine inputs [] W.db post := by
  refine (hacts.answers_requireOrgRole h.valid hrole).ends
    ((hacts.answers_resolveEnvironmentOrg h.valid he).ends ?_)
  have hexisting : (SecretRepository.getByEnvironmentAndName uow e keyName).Answers vaultEngine
      inputs [] W.db none := by
    refine answers_selectOne_none (t := .secrets) fun s hs => ?_
    rw [Bool.eq_false_iff]
    intro hc
    simp only [Bool.and_eq_true, beq_iff_eq, Bool.not_eq_true'] at hc
    rw [hlive s ⟨hs, hc.1.1, hc.1.2⟩] at hc
    exact absurd hc.2 (by decide)
  refine hexisting.ends ((answers_raiseIf rfl).ends
    ((hacts.answers_activeKey h.valid hkey he).ends ?_))
  exact ends_encryptSecret_bind hkey.wrapped hk

/-- A deleted secret of the name makes the first INSERT fail. -/
theorem VaultInv.refuses_deletedName (inputs : ℕ → Input) (plainValue : String) {s : Secret}
    (hs : Named W.db e keyName s)
    (hdeleted : s.isDeleted = true) :
    (SecretService.createSecret d.kms uow e m.organizationId keyName plainValue m.userId).Ends
      vaultEngine inputs [] W.db fun result _ => result = .error (integrityViolation .secrets) := by
  obtain ⟨key, hkey⟩ := h.activeKey he
  refine h.ends_createSecret_insert hacts hrole he hkey (fun s' hs' =>
    named_unique h.valid hs hs' ▸ hdeleted) fun j encryptedValue => ?_
  have hrefused : (uow.insertFlushed .secrets fun inp =>
      (⟨inp.uuid, e, keyName, none, false, none⟩ : Secret)).Refuses vaultEngine inputs [] W.db
        (integrityViolation .secrets) := by
    refine hacts.refuses_insertFlushed (v := W.db) rfl (by decide) fun inp => ⟨he, ?_⟩
    rw [Bool.eq_false_iff]
    intro hadm
    obtain ⟨hnew, huniq, -⟩ := Schema.admitsInsert_iff.mp hadm
    have hclash := (Schema.uniqueAmong_iff.mp huniq s hs.1 (hnew s hs.1)
      (fun a b => a.environmentId == b.environmentId && a.keyName == b.keyName)
      (by simp [vaultSchema, uniqueOf])).1
    simp [hs.2.1, hs.2.2] at hclash
  exact hrefused.bind.ends fun _ => rfl

/-- A name that no secret has, deleted or not, is accepted. -/
theorem VaultInv.ends_freeName (hfree : ∀ s, ¬ Named W.db e keyName s)
    (hfresh : ∀ k t, ∀ r ∈ W.db t, rowId t r ≠ (inputs k).uuid)
    (hnonce : ∀ k, ∀ v ∈ W.db .secretVersions, v.iv ≠ (inputs k).nonce.1) :
    (SecretService.createSecret d.kms uow e m.organizationId keyName plainValue m.userId).Ends
      vaultEngine inputs [] W.db fun result _ => ∃ secret, result = .ok secret := by
  obtain ⟨key, hkey⟩ := h.activeKey he
  have henv : ∃ env ∈ W.db .environments, env.id = e := by
    obtain ⟨env, henv, hid, -⟩ := he
    exact ⟨env, henv, hid⟩
  refine h.ends_createSecret_insert hacts hrole he hkey (fun s hs => absurd hs (hfree s))
    fun j encryptedValue => ?_
  refine hacts.ends_insertFlushed_bind (t := .secrets) rfl (by decide) fun j₁ => ?_
  have hadm := admitsInsert_secret (s := ⟨(inputs j₁).uuid, e, keyName, none, false, none⟩)
    (hfresh j₁ .secrets) hfree henv
  refine ⟨he, hadm, Acts.ends_insertFlushed_bind (t := .secretVersions) (m := m) rfl
    (hacts.congr rfl) (by decide) fun j₂ => ?_⟩
  have hnew : (⟨(inputs j₁).uuid, e, keyName, none, false, none⟩ : Secret) ∈ vaultSchema.apply
      (.insert .secrets ⟨(inputs j₁).uuid, e, keyName, none, false, none⟩) W.db .secrets := by
    rw [vaultSchema.apply_insert_self]
    exact List.mem_append_right _ (List.mem_singleton.mpr rfl)
  have hsecret : ∀ r ∈ W.db .secretVersions, r.secretId ≠ (inputs j₁).uuid := by
    intro r hr heq
    obtain ⟨s, hs, hid⟩ := parent_exists h.valid hr (by simp [referencesOf] :
      (.secrets, some r.secretId) ∈ referencesOf .secretVersions r)
    exact hfresh j₁ .secrets s hs (hid.trans heq)
  have huser := parent_exists h.valid hacts.mem (by simp [referencesOf] :
    (.users, some m.userId) ∈ referencesOf .memberships m)
  have hadm' : vaultSchema.admitsInsert .secretVersions (⟨(inputs j₂).uuid, (inputs j₁).uuid,
      key.id, encryptedValue, (inputs j).nonce.1, 1, some m.userId⟩ : SecretVersion)
      (vaultSchema.apply
        (.insert .secrets ⟨(inputs j₁).uuid, e, keyName, none, false, none⟩) W.db) = true :=
    admitsInsert_version (hfresh j₂ .secretVersions)
      (fun r hr heq => absurd heq (hsecret r hr)) (hnonce j) ⟨key, hkey.mem, rfl⟩
      ⟨_, hnew, rfl⟩ fun u hu => Option.some.inj hu ▸ huser
  · refine ⟨⟨_, hnew, rfl, he⟩, hadm', ?_⟩
    refine Acts.ends_commitPointer_bind (m := m) ?_ ?_ ((h.valid.insert hadm).insert hadm') hnew he
      ?_ rfl fun _ => ⟨_, rfl⟩
    · rfl
    · exact hacts.congr rfl
    · exact List.mem_append_right _ (List.mem_singleton.mpr rfl)

end

/-- In every state that service calls reach, and with keys and nonces that are not in
use, a name is free exactly when the listing does not show it, if and only if no deleted
secret of the environment has it. -/
theorem name_free_iff {n : ℕ} (d : Deployment) (calls : Fin n → ServiceCall) (W : VaultWorld n)
    (ho : Opens W) (as : Schedule n) (s : VaultSys n)
    (hr : (waiting d calls W).run vaultEngine as = some s) (uow : UnitOfWork) (m : Membership)
    (hacts : Acts uow s.world.db m) (hrole : roleRank .member ≤ roleRank m.role)
    (environmentId : UUID) (he : EnvironmentIn s.world.db m.organizationId environmentId)
    (inputs : ℕ → Input) (hf : FreshStream vaultEngine inputs s.world.past)
    (hnonce : ∀ k, ∀ v ∈ s.world.db .secretVersions, v.iv ≠ (inputs k).nonce.1)
    (keyName plainValue : String) :
    FreeWhenUnlisted d inputs uow environmentId m.organizationId keyName plainValue m.userId
        s.world.db ↔
      ∀ secret ∈ s.world.db .secrets, secret.environmentId = environmentId →
        secret.keyName = keyName → secret.isDeleted = false := by
  have hi := ho.vaultInv hr
  obtain ⟨listed, hlisted, hanswers⟩ := hi.ends_listSecrets hacts he inputs
  have hlist : (alone inputs (SecretService.listSecrets uow environmentId m.organizationId m.userId)
      s.world.db).1 = .ok listed := by
    obtain ⟨k, hk⟩ := hanswers 0
    rw [alone, hk]
  constructor
  · rintro ⟨listed', hlist', hiff, -⟩ secret hs henv hname
    obtain rfl : listed' = listed := Except.ok.inj (hlist'.symm.trans hlist)
    by_contra hdeleted
    have hnamed : Named s.world.db environmentId keyName secret := ⟨hs, henv, hname⟩
    have herr := hi.refuses_deletedName hacts hrole he inputs plainValue hnamed
      (by simpa using hdeleted) 0
    obtain ⟨created, hcreated⟩ := hiff.mpr fun s' hs' hname' => by
      obtain ⟨hs', henv', hlive⟩ := (hlisted s').mp hs'
      exact hdeleted (named_unique hi.valid hnamed ⟨hs', henv', hname'⟩ ▸ hlive)
    exact absurd (herr.symm.trans hcreated) (by simp)
  · intro hlive
    refine ⟨listed, hlist, ?_⟩
    by_cases hnamed : ∃ secret, Named s.world.db environmentId keyName secret
    · obtain ⟨secret, hs, henv, hname⟩ := hnamed
      have hshown : secret ∈ listed := (hlisted secret).mpr ⟨hs, henv, hlive secret hs henv hname⟩
      obtain ⟨k, hk⟩ := hi.refuses_createSecret hacts hrole he inputs plainValue
        ⟨hs, henv, hname⟩ (hlive secret hs henv hname) 0
      rw [alone, hk]
      refine ⟨iff_of_false ?_ fun hnone => hnone secret hshown hname, fun _ => ⟨⟨_, rfl⟩, rfl⟩⟩
      rintro ⟨created, hcreated⟩
      cases hcreated
    · have hfree : ∀ secret, ¬ Named s.world.db environmentId keyName secret :=
        fun secret h => hnamed ⟨secret, h⟩
      have hunlisted : ∀ secret ∈ listed, secret.keyName ≠ keyName := fun secret hs hname =>
        hfree secret ⟨((hlisted secret).mp hs).1, ((hlisted secret).mp hs).2.1, hname⟩
      refine ⟨iff_of_true ?_ hunlisted,
        fun ⟨secret, hs, hname⟩ => absurd hname (hunlisted secret hs)⟩
      exact hi.ends_freeName hacts hrole he hfree (fun k t => ho.uuid_unused hr hf k t) hnonce 0

theorem name_free_iff_emptyEnvironment : ∃ s, (waiting sampleDeployment acmeCalls
    ⟨acmeDb, [], samplePast 10⟩).run vaultEngine (sampleSteps 10 (List.replicate 9 0)) = some s ∧
      FreeWhenUnlisted sampleDeployment (fun k => sampleInput (19 + k)) (sampleUow 1 10) 26 10 "KEY"
        "one" 1 s.world.db := by
  have hrun : ((waiting sampleDeployment acmeCalls ⟨acmeDb, [], samplePast 10⟩).run vaultEngine
      (sampleSteps 10 (List.replicate 9 0))).map (fun s => (s.world.db .memberships,
        s.world.db .projects, s.world.db .environments, s.world.db .secrets,
        s.world.db .secretVersions,
        s.world.past.all fun p => p.ids.all fun x => decide (x < 2 * 19))) =
      some ([⟨11, 1, 10, .owner, none, 0⟩], [⟨12, 10, "billing", "billing", none, some 1⟩],
        [⟨26, 12, "prod"⟩], [], [], true) := by rfl
  obtain ⟨s, hs, hfacts⟩ := Option.map_eq_some_iff.mp hrun
  simp only [Prod.mk.injEq] at hfacts
  obtain ⟨hm, hp, he, hsecrets, hversions, hpast⟩ := hfacts
  refine ⟨s, hs, (name_free_iff sampleDeployment acmeCalls _ opens_acme _ s hs (sampleUow 1 10)
    ⟨11, 1, 10, .owner, none, 0⟩ ⟨by simp [hm], Or.inr ⟨rfl, rfl⟩⟩ (by decide) 26 ?_ _
    (freshStream_sample hpast) (by simp [hversions]) "KEY" "one").mpr (by simp [hsecrets])⟩
  simp [EnvironmentIn, ProjectIn, he, hp]

/-- An environment, a secret in it, and its deletion. -/
def deletionCalls : Fin 3 → ServiceCall
  | 0 => ⟨.createEnvironment 12 10 "prod" 1, sampleUow 1 10⟩
  | 1 => ⟨.createSecret 26 10 "KEY" "one" 1, sampleUow 1 10⟩
  | 2 => ⟨.deleteSecret 50 10 1, sampleUow 1 10⟩

def deletionSteps : Schedule 3 :=
  sampleSteps 10 (List.replicate 9 0 ++ List.replicate 13 1 ++ List.replicate 8 2)

/-- The name of a deleted secret is listed no more, and creating it again fails on the
constraint. -/
theorem deleted_name_not_free : ∃ s, (waiting sampleDeployment deletionCalls
    ⟨acmeDb, [], samplePast 10⟩).run vaultEngine deletionSteps = some s ∧
      Opens (⟨acmeDb, [], samplePast 10⟩ : VaultWorld 3) ∧
      Acts (sampleUow 1 10) s.world.db ⟨11, 1, 10, .owner, none, 0⟩ ∧
      EnvironmentIn s.world.db 10 26 ∧
      FreshStream vaultEngine (fun k => sampleInput (40 + k)) s.world.past ∧
      (alone (fun k => sampleInput (40 + k)) (SecretService.createSecret sampleDeployment.kms
        (sampleUow 1 10) 26 10 "KEY" "two" 1) s.world.db).1 =
          .error (integrityViolation .secrets) ∧
      ¬ FreeWhenUnlisted sampleDeployment (fun k => sampleInput (40 + k)) (sampleUow 1 10) 26 10
        "KEY" "two" 1 s.world.db := by
  have hrun : ((waiting sampleDeployment deletionCalls ⟨acmeDb, [], samplePast 10⟩).run vaultEngine
      deletionSteps).map (fun s => (s.world.db .memberships, s.world.db .projects,
        s.world.db .environments, (s.world.db .secrets).map Secret.isDeleted,
        s.world.past.all (fun p => p.ids.all fun x => decide (x < 2 * 40)),
        (alone (fun k => sampleInput (40 + k)) (SecretService.createSecret sampleDeployment.kms
          (sampleUow 1 10) 26 10 "KEY" "two" 1) s.world.db).1)) =
      some ([⟨11, 1, 10, .owner, none, 0⟩], [⟨12, 10, "billing", "billing", none, some 1⟩],
        [⟨26, 12, "prod"⟩], [true], true, .error (integrityViolation .secrets)) := by rfl
  obtain ⟨s, hs, hfacts⟩ := Option.map_eq_some_iff.mp hrun
  simp only [Prod.mk.injEq] at hfacts
  obtain ⟨hm, hp, he, hdeleted, hpast, hcreate⟩ := hfacts
  have hacts : Acts (sampleUow 1 10) s.world.db ⟨11, 1, 10, .owner, none, 0⟩ :=
    ⟨by simp [hm], Or.inr ⟨rfl, rfl⟩⟩
  have henv : EnvironmentIn s.world.db 10 26 := by simp [EnvironmentIn, ProjectIn, he, hp]
  refine ⟨s, hs, opens_acme, hacts, henv, freshStream_sample hpast, hcreate, ?_⟩
  rintro ⟨listed, hok, hiff, -⟩
  obtain ⟨listed', hlisted, hanswers⟩ := (opens_acme.vaultInv hs).ends_listSecrets
    hacts henv fun k => sampleInput (40 + k)
  obtain ⟨k, hk⟩ := hanswers 0
  rw [alone, hk] at hok
  obtain rfl : listed' = listed := Except.ok.inj hok
  obtain ⟨created, hcreated⟩ := hiff.mpr fun secret hsecret _ => by
    obtain ⟨hmem, -, hlive⟩ := (hlisted secret).mp hsecret
    have hflag : secret.isDeleted ∈ (s.world.db .secrets).map Secret.isDeleted :=
      List.mem_map_of_mem hmem
    simp [hdeleted, hlive] at hflag
  exact absurd (hcreate.symm.trans hcreated) (by simp)

end EnvVault
