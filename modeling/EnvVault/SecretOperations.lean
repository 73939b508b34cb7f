import EnvVault.Reveal
import EnvVault.SecretNames

/-!
# Rotating and deleting a secret alone

A member rotates every live secret of its organization until the version number
leaves INTEGER, and deletes every one of them.
-/
namespace EnvVault
open EnvVault.Relational EnvVault.Transactions

/-- The version that `latest` returns has the greatest number. -/
theorem SecretVersionRepository.le_of_latest {vs : List SecretVersion} {v : SecretVersion}
    (h : latest vs = some v) : ∀ w ∈ vs, w.versionNumber ≤ v.versionNumber := by
  induction vs generalizing v with
  | nil => cases h
  | cons u vs ih =>
    intro w hw
    simp only [latest] at h
    cases hlatest : latest vs with
    | none =>
      rw [hlatest] at h
      obtain rfl := Option.some.inj h
      rcases List.mem_cons.mp hw with rfl | hw
      · exact le_rfl
      · cases vs with
        | nil => cases hw
        | cons x xs =>
          simp only [latest] at hlatest
          split at hlatest
          · cases hlatest
          · split at hlatest <;> cases hlatest
    | some x =>
      have hx := ih hlatest
      rw [hlatest] at h
      dsimp only at h
      split at h
      · rename_i hle
        obtain rfl := Option.some.inj h
        rcases List.mem_cons.mp hw with rfl | hw
        · exact le_rfl
        · exact (hx w hw).trans hle
      · rename_i hlt
        obtain rfl := Option.some.inj h
        rcases List.mem_cons.mp hw with rfl | hw
        · omega
        · exact hx w hw

theorem SecretVersionRepository.latest_isSome {vs : List SecretVersion} (h : vs ≠ []) :
    ∃ v, latest vs = some v := by
  cases vs with
  | nil => exact absurd rfl h
  | cons u vs =>
    simp only [latest]
    split
    · exact ⟨u, rfl⟩
    · split
      · exact ⟨_, rfl⟩
      · exact ⟨_, rfl⟩

section
variable {n : ℕ} {d : Deployment} {calls : Fin n → ServiceCall} {base : Table × UUID → Prop}
  {W : VaultWorld n} {uow : UnitOfWork} {m : Membership} {inputs : ℕ → Input} {s : Secret}
  {plainValue : String}

variable (hacts : Acts uow W.db m) (hs : s ∈ W.db .secrets)
  (he : EnvironmentIn W.db m.organizationId s.environmentId)
include hacts hs he

/-- The latest version that the session reads has the number of the current one. -/
theorem Acts.answers_getLatestForSecret {v : SecretVersion} (hv : Current W.db s v) :
    ∃ latest : SecretVersion, latest.versionNumber = v.versionNumber ∧
      (SecretVersionRepository.getLatestForSecret uow s.id).Answers vaultEngine inputs [] W.db
        (some latest) := by
  have hfound : v ∈ uow.found .secretVersions (fun v => v.secretId == s.id) W.db := by
    refine List.mem_filter.mpr ⟨hv.mem, ?_⟩
    have hmay : uow.may W.db .select .secretVersions v = true :=
      hacts.may_tenant (by decide) ⟨s, hs, hv.secret.symm, he⟩
    simp [hmay, hv.secret]
  obtain ⟨latest, hlatest⟩ := SecretVersionRepository.latest_isSome (List.ne_nil_of_mem hfound)
  refine ⟨latest, le_antisymm ?_ (SecretVersionRepository.le_of_latest hlatest v hfound), ?_⟩
  · obtain ⟨hmem, hcond⟩ := List.mem_filter.mp (SecretVersionRepository.mem_of_latest hlatest)
    simp only [Bool.and_eq_true, beq_iff_eq] at hcond
    exact ((hv.last _).mp ⟨latest, hmem, hcond.2, rfl⟩).2
  · exact (answers_select _).bind (hlatest ▸ Prog.answers_ret)

variable (h : VaultInv d calls base W) (hrole : roleRank .member ≤ roleRank m.role)
  (hlive : s.isDeleted = false)
include h hrole hlive

/-- The method goes on to the check of the new version number. -/
theorem VaultInv.ends_addNewVersion_check {v : SecretVersion} (hv : Current W.db s v)
    {key : EncryptionKey} (hkey : OnlyKey d.kms W.db s.environmentId key)
    {post : Except Exn SecretVersion → Solo Db RowWrite → Prop}
    (hk : ∀ j encryptedValue, ((raiseIf (decide (SecretService.maxInteger < v.versionNumber + 1))
      .numericValueOutOfRange "integer out of range").bind fun _ =>
        (uow.insertFlushed .secretVersions fun inp => (⟨inp.uuid, s.id, key.id, encryptedValue,
          (inputs j).nonce.1, v.versionNumber + 1, some m.userId⟩ : SecretVersion)).bind
          fun version => (SecretService.commitPointer uow s.id version.id).bind fun _ =>
            .ret version).Ends vaultEngine inputs [] W.db post) :
    (SecretService.addNewVersion d.kms uow s.id m.organizationId plainValue m.userId).Ends
      vaultEngine inputs [] W.db post := by
  obtain ⟨latest, hnumber, hlatest⟩ := hacts.answers_getLatestForSecret hs he hv
  refine (hacts.answers_requireOrgRole h.valid hrole).ends
    ((hacts.answers_getOwnedSecret h.valid hs hlive he).ends
      ((hacts.answers_activeKey h.valid hkey he).ends
        (ends_encryptSecret_bind hkey.wrapped fun j encryptedValue => hlatest.ends ?_)))
  simp only [SecretService.newVersionNumber, hnumber]
  exact hk j encryptedValue

/-- The version number leaves INTEGER. -/
theorem VaultInv.refuses_addNewVersion (inputs : ℕ → Input) (plainValue : String)
    {v : SecretVersion} (hv : Current W.db s v)
    (hmax : SecretService.maxInteger ≤ v.versionNumber) :
    (SecretService.addNewVersion d.kms uow s.id m.organizationId plainValue m.userId).Ends
      vaultEngine inputs [] W.db fun result _ => ∃ e, result = .error e := by
  obtain ⟨key, hkey⟩ := h.activeKey he
  refine ends_addNewVersion_check hacts hs he h hrole hlive hv hkey fun j encryptedValue => ?_
  have hbig : decide (SecretService.maxInteger < v.versionNumber + 1) = true :=
    decide_eq_true (Nat.lt_succ_of_le hmax)
  exact (refuses_raiseIf hbig).bind.ends fun _ => ⟨_, rfl⟩

/-- Otherwise a member rotates the secret. -/
theorem VaultInv.ends_addNewVersion {v : SecretVersion} (hv : Current W.db s v)
    (hmax : v.versionNumber < SecretService.maxInteger)
    (hfresh : ∀ k, ∀ r ∈ W.db .secretVersions, r.id ≠ (inputs k).uuid)
    (hnonce : ∀ k, ∀ r ∈ W.db .secretVersions, r.iv ≠ (inputs k).nonce.1) :
    (SecretService.addNewVersion d.kms uow s.id m.organizationId plainValue m.userId).Ends
      vaultEngine inputs [] W.db fun result so => ∃ version : SecretVersion,
        result = .ok version ∧ so.pending = [] ∧ vaultSchema.Valid so.db ∧ so.db =
          vaultSchema.view [.insert .secretVersions version,
            .update .secrets (s.pointingTo version.id)] W.db := by
  obtain ⟨key, hkey⟩ := h.activeKey he
  refine ends_addNewVersion_check hacts hs he h hrole hlive hv hkey fun j encryptedValue => ?_
  have hsmall : decide (SecretService.maxInteger < v.versionNumber + 1) = false :=
    decide_eq_false (by omega)
  refine (answers_raiseIf hsmall).ends ?_
  refine Acts.ends_insertFlushed_bind (t := .secretVersions) (m := m) rfl hacts (by decide)
    fun j₂ => ?_
  have huser := parent_exists h.valid hacts.mem (by simp [referencesOf] :
    (.users, some m.userId) ∈ referencesOf .memberships m)
  have hadm : vaultSchema.admitsInsert .secretVersions (⟨(inputs j₂).uuid, s.id, key.id,
      encryptedValue, (inputs j).nonce.1, v.versionNumber + 1, some m.userId⟩ : SecretVersion)
      W.db = true := by
    refine admitsInsert_version (hfresh j₂) (fun r hr hsecret heq => ?_) (hnonce j)
      ⟨key, hkey.mem, rfl⟩ ⟨s, hs, rfl⟩ fun u hu => Option.some.inj hu ▸ huser
    have hle : v.versionNumber + 1 ≤ v.versionNumber :=
      ((hv.last _).mp ⟨r, hr, hsecret, heq⟩).2
    omega
  refine ⟨⟨s, hs, rfl, he⟩, hadm, ?_⟩
  have hvalid := h.valid.insert hadm
  refine Acts.ends_commitPointer_bind (m := m) ?_ ?_ hvalid hs he
    (List.mem_append_right _ (List.mem_singleton.mpr rfl)) rfl fun _ => ⟨_, rfl, rfl, ?_, rfl⟩
  · rfl
  · exact hacts.congr rfl
  · exact hvalid.update (admitsUpdate_secret hvalid hs rfl rfl rfl)

/-- A member deletes the secret. -/
theorem VaultInv.ends_deleteSecret :
    (SecretService.deleteSecret uow s.id m.organizationId m.userId).Ends vaultEngine inputs [] W.db
      fun result _ => result = .ok () := by
  refine (hacts.answers_requireOrgRole h.valid hrole).ends
    ((hacts.answers_getOwnedSecret h.valid hs hlive he).ends ?_)
  simp only [SecretRepository.softDelete, UnitOfWork.updateById, Prog.bind_eq, Prog.bind_assoc,
    Prog.pure_eq, Prog.ret_bind]
  refine Prog.ends_statement_bind fun j =>
    ⟨[.update .secrets (s.deletedFrom (inputs j).now)], 1, ?_, ends_commit fun _ => rfl⟩
  exact hacts.updateRow_eq (t := .secrets) h.valid (by decide) (by decide) hs he
    (fun s : Secret => { s with isDeleted := true, deletedAt := some (inputs j).now }) he
      (admitsUpdate_secret h.valid hs rfl rfl rfl)

end

end EnvVault
