import EnvVault.PhasedContracts
import EnvVault.Reveal
import EnvVault.SecretHistory
import EnvVault.StatementWrites

/-!
# The database refines a vault of secrets

The commits of the services that touch secrets are commands of the abstract vault. In every
state of every run the database holds exactly the vault that the committed commands build,
in the order of their commits: its secrets, the names and the marks, and under the numbers
`1, …, n` of a secret the values it was given, each readable with the key of its
environment. A reveal returns the last value of the vault at some commit it has met.
-/
namespace EnvVault
open EnvVault.Relational EnvVault.Transactions EnvVault.AbstractVault

namespace Op

/-- What an operation has pending when it commits. -/
def CommitForm : Op → List RowWrite → Prop
  | createSecret environmentId _ keyName _ _, ws => ∃ id v r,
      ws = [.insert .secrets ⟨id, environmentId, keyName, none, false, none⟩,
        .insert .secretVersions v, .update .secrets r]
  | addNewVersion secretId _ _ _, ws =>
    ∃ v r, ws = [.insert .secretVersions v, .update .secrets r] ∧ v.secretId = secretId
  | deleteSecret secretId _ _, ws =>
    ws = [] ∨ ∃ r : Secret, ws = [.update .secrets r] ∧ r.id = secretId
  | deleteOrganization .., ws => ws = [] ∨ ∃ t id rest, ws = .delete t id :: rest
  | deleteProject .., ws => ws = [] ∨ ∃ t id rest, ws = .delete t id :: rest
  | deleteEnvironment .., ws => ws = [] ∨ ∃ t id rest, ws = .delete t id :: rest
  | op, ws => ∀ w ∈ ws, w.table ∈ op.tables

end Op

section
variable {d : Deployment} {uow : UnitOfWork} {J : List RowWrite → Prop} {ws : List RowWrite}
  {t : Table} {β : Type}

/-- A DELETE finds nothing, or begins with the row itself. -/
theorem deleteRow_form {id : UUID} {v : Db} {r : Unit} (h : uow.deleteRow t id v = .ok (ws, r)) :
    ws = [] ∨ ∃ t id rest, ws = .delete t id :: rest := by
  rw [UnitOfWork.deleteRow] at h
  split at h
  · cases hrow : vaultSchema.deleteRow t id v with
    | error e =>
      rw [hrow] at h
      cases h
    | ok vs =>
      rw [hrow] at h
      cases h
      simp only [Schema.deleteRow] at hrow
      split at hrow
      · exact Or.inl (Except.ok.inj hrow).symm
      · split at hrow
        · cases hrow
        · cases hdrain : vaultSchema.drain (vaultSchema.fuel (vaultSchema.apply (.delete t id) v)
              (vaultSchema.events t id)) (vaultSchema.apply (.delete t id) v)
              (vaultSchema.events t id) with
          | error e =>
            rw [hdrain] at hrow
            cases hrow
          | ok us =>
            rw [hdrain] at hrow
            exact Or.inr ⟨t, id, us, (Except.ok.inj hrow).symm⟩
  · cases h
    exact Or.inl rfl

/-- A DELETE and its COMMIT. -/
theorem commitsOnly_delete {id : UUID} (hnone : J [])
    (hsome : ∀ t id rest, J (.delete t id :: rest)) :
    ((uow.delete t id).bind fun _ => UnitOfWork.commit).CommitsOnly J [] := by
  refine Prog.commitsOnly_statement_bind fun inp v vs r hf => commitsOnly_commit ?_
  rw [List.nil_append]
  rcases deleteRow_form hf with rfl | ⟨t, id, rest, rfl⟩
  · exact hnone
  · exact hsome t id rest

namespace SecretService

theorem reads_activeKey (environmentId : UUID) :
    (activeKey uow environmentId).Reads fun _ => True := by
  refine .bind (reads_selectOne _ _) fun key _ => ?_
  cases key <;> trivial

theorem commitsOnly_commitPointer_bind {secretId versionId : UUID} {k : Unit → Tx β}
    (hws : ∀ r : Secret, r.id = secretId →
      J (ws ++ [.update .secrets { r with currentVersionId := some versionId }]))
    (hk : (k ()).CommitsOnly J []) :
    ((commitPointer uow secretId versionId).bind k).CommitsOnly J ws := by
  simp only [commitPointer, Prog.bind_eq, Prog.bind_assoc]
  exact commitsOnly_updateFlushed_bind fun r hr => (reads_checkCurrentVersion _ _).bind_commitsOnly
    fun _ _ => commitsOnly_commit_bind (hws r hr) hk

theorem commitsOnly_createSecret (environmentId organizationId : UUID) (keyName plainValue : String)
    (actorUserId : UUID) :
    (createSecret d.kms uow environmentId organizationId keyName plainValue actorUserId).CommitsOnly
      (Op.CommitForm (.createSecret environmentId organizationId keyName plainValue actorUserId))
      [] := by
  refine (reads_requireOrgRole _ _ _).bind_commitsOnly fun _ _ =>
    (reads_resolveEnvironmentOrg _ _).bind_commitsOnly fun _ _ =>
      (reads_selectOne _ _).bind_commitsOnly fun _ _ =>
        (reads_raiseIf _ _ _).bind_commitsOnly fun _ _ =>
          (reads_activeKey _).bind_commitsOnly fun key _ =>
            (reads_encryptSecret _ _).bind_commitsOnly fun encrypted _ => ?_
  refine commitsOnly_insertFlushed_bind fun inp => commitsOnly_insertFlushed_bind fun inp' => ?_
  exact commitsOnly_commitPointer_bind (fun r _ => ⟨_, _, _, rfl⟩) trivial

theorem commitsOnly_addNewVersion (secretId organizationId : UUID) (plainValue : String)
    (actorUserId : UUID) :
    (addNewVersion d.kms uow secretId organizationId plainValue actorUserId).CommitsOnly
      (Op.CommitForm (.addNewVersion secretId organizationId plainValue actorUserId)) [] := by
  refine (reads_requireOrgRole _ _ _).bind_commitsOnly fun _ _ =>
    (reads_getOwnedSecret _ _).bind_commitsOnly fun secret hid =>
      (reads_activeKey _).bind_commitsOnly fun key _ =>
        (reads_encryptSecret _ _).bind_commitsOnly fun encrypted _ =>
          Prog.Reads.bind_commitsOnly (P := fun _ => True) (.bind (reads_select _ _) ?_)
            fun latest _ => (reads_raiseIf _ _ _).bind_commitsOnly fun _ _ => ?_
  · exact fun _ _ => trivial
  refine commitsOnly_insertFlushed_bind fun inp => ?_
  exact commitsOnly_commitPointer_bind (fun r _ => ⟨_, _, rfl, hid⟩) trivial

theorem commitsOnly_deleteSecret (secretId organizationId actorUserId : UUID) :
    (deleteSecret uow secretId organizationId actorUserId).CommitsOnly
      (Op.CommitForm (.deleteSecret secretId organizationId actorUserId)) [] := by
  refine (reads_requireOrgRole _ _ _).bind_commitsOnly fun _ _ =>
    (reads_getOwnedSecret _ _).bind_commitsOnly fun secret hid => ?_
  simp only [SecretRepository.softDelete, Prog.bind_eq, Prog.bind_assoc, Prog.pure_eq,
    Prog.ret_bind]
  exact commitsOnly_updateById_bind (t := .secrets) (commitsOnly_commit (Or.inl rfl))
    fun inp r hr => commitsOnly_commit (Or.inr ⟨_, rfl, hr.trans hid⟩)

end SecretService

theorem EnvironmentService.commitsOnly_delete (id organizationId actorUserId : UUID) :
    (delete uow id organizationId actorUserId).CommitsOnly
      (Op.CommitForm (.deleteEnvironment id organizationId actorUserId)) [] :=
  (reads_requireOrgRole _ _ _).bind_commitsOnly fun _ _ =>
    (reads_requireOrgRoleAgain _ _ _ _).bind_commitsOnly fun _ _ =>
      (reads_getIn _ _).bind_commitsOnly fun _ _ =>
        EnvVault.commitsOnly_delete (Or.inl rfl) fun t id rest => Or.inr ⟨t, id, rest, rfl⟩

theorem ProjectService.commitsOnly_delete (id organizationId actorUserId : UUID) :
    (delete uow id organizationId actorUserId).CommitsOnly
      (Op.CommitForm (.deleteProject id organizationId actorUserId)) [] :=
  (reads_requireOrgRole _ _ _).bind_commitsOnly fun _ _ =>
    (reads_requireOrgRoleAgain _ _ _ _).bind_commitsOnly fun _ _ =>
      (reads_lookup _ _).bind_commitsOnly fun _ _ =>
        EnvVault.commitsOnly_delete (Or.inl rfl) fun t id rest => Or.inr ⟨t, id, rest, rfl⟩

theorem OrganizationService.commitsOnly_delete (organizationId actorUserId : UUID) :
    (delete uow organizationId actorUserId).CommitsOnly
      (Op.CommitForm (.deleteOrganization organizationId actorUserId)) [] :=
  (reads_requireOrgRole _ _ _).bind_commitsOnly fun _ _ =>
    (reads_getOrganization _).bind_commitsOnly fun _ _ =>
      EnvVault.commitsOnly_delete (Or.inl rfl) fun t id rest => Or.inr ⟨t, id, rest, rfl⟩

/-- Every operation commits lists of its form. -/
theorem Op.commits (op : Op) : (op.program d uow).CommitsOnly op.CommitForm [] := by
  have htables : (op.program d uow).CommitsOnly (fun ws => ∀ w ∈ ws, w.table ∈ op.tables) [] :=
    (op.comprises.mono fun writes h inp v w hw => (h inp v).2 w hw).commitsOnly
      fun w hw => absurd hw List.not_mem_nil
  cases op
  case createSecret =>
    exact (SecretService.commitsOnly_createSecret _ _ _ _ _).bind fun _ _ => trivial
  case addNewVersion =>
    exact (SecretService.commitsOnly_addNewVersion _ _ _ _).bind fun _ _ => trivial
  case deleteSecret =>
    exact (SecretService.commitsOnly_deleteSecret _ _ _).bind fun _ _ => trivial
  case deleteEnvironment =>
    exact (EnvironmentService.commitsOnly_delete _ _ _).bind fun _ _ => trivial
  case deleteProject => exact (ProjectService.commitsOnly_delete _ _ _).bind fun _ _ => trivial
  case deleteOrganization =>
    exact (OrganizationService.commitsOnly_delete _ _).bind fun _ _ => trivial
  all_goals exact htables

end

/-- The command that a commit of the operation carries out. -/
def commandOf : Op → List RowWrite → Option (Command UUID)
  | .createSecret environmentId _ keyName plainValue _, .insert .secrets s :: _ =>
    some (.create s.id environmentId keyName plainValue)
  | .addNewVersion secretId _ plainValue _, _ :: _ => some (.rotate secretId plainValue)
  | .deleteSecret secretId _ _, _ :: _ => some (.delete secretId)
  | _, _ => none

/-- A commit carries out a command on the secrets and their versions, or leaves both tables
alone. -/
inductive Commanded (d : Deployment) (op : Op) (db : Db) :
    List RowWrite → Option (Command UUID) → Prop
  | elsewhere (ws : List RowWrite)
      (h : ∀ w ∈ ws, w.table ≠ .secrets ∧ w.table ≠ .secretVersions) : Commanded d op db ws none
  | create (s : Secret) (v : SecretVersion) (plainValue : String) (hlive : s.isDeleted = false)
      (hop : op.plainValue = some plainValue) (h : NewVersion d op db s v) :
      Commanded d op db [.insert .secrets s, .insert .secretVersions v,
        .update .secrets (s.pointingTo v.id)]
        (some (.create s.id s.environmentId s.keyName plainValue))
  | rotate (s : Secret) (v : SecretVersion) (plainValue : String) (hs : s ∈ db .secrets)
      (hop : op.plainValue = some plainValue) (h : NewVersion d op db s v) :
      Commanded d op db [.insert .secretVersions v, .update .secrets (s.pointingTo v.id)]
        (some (.rotate s.id plainValue))
  | delete (s : Secret) (time : Timestamp) (hs : s ∈ db .secrets) :
      Commanded d op db [.update .secrets (s.deletedFrom time)] (some (.delete s.id))

section
variable {d : Deployment} {op : Op} {db : Db} {ws : List RowWrite}

/-- The operations that store or mark a secret, and the others. -/
theorem Op.commitForm_cases (h : op.CommitForm ws) :
    (∃ e o name value u id v r, op = .createSecret e o name value u ∧
      ws = [.insert .secrets ⟨id, e, name, none, false, none⟩, .insert .secretVersions v,
        .update .secrets r]) ∨
    (∃ x o value u v r, op = .addNewVersion x o value u ∧
      ws = [.insert .secretVersions v, .update .secrets r] ∧ v.secretId = x) ∨
    (∃ x o u, op = .deleteSecret x o u ∧
      (ws = [] ∨ ∃ r : Secret, ws = [.update .secrets r] ∧ r.id = x)) ∨
    (commandOf op ws = none ∧ op.plainValue = none ∧ (ws = [] ∨
      (∃ t id rest, ws = .delete t id :: rest) ∨
      ∀ w ∈ ws, w.table ≠ .secrets ∧ w.table ≠ .secretVersions)) := by
  have hother (hn : .secrets ∉ op.tables ∧ .secretVersions ∉ op.tables)
      (ht : ∀ w ∈ ws, w.table ∈ op.tables) :
      ∀ w ∈ ws, w.table ≠ .secrets ∧ w.table ≠ .secretVersions :=
    fun w hw => ⟨fun he => hn.1 (he ▸ ht w hw), fun he => hn.2 (he ▸ ht w hw)⟩
  cases op
  case createSecret e o name value u =>
    obtain ⟨id, v, r, hws⟩ := h
    exact Or.inl ⟨e, o, name, value, u, id, v, r, rfl, hws⟩
  case addNewVersion x o value u =>
    obtain ⟨v, r, hws, hx⟩ := h
    exact Or.inr (Or.inl ⟨x, o, value, u, v, r, rfl, hws, hx⟩)
  case deleteSecret x o u => exact Or.inr (Or.inr (Or.inl ⟨x, o, u, rfl, h⟩))
  case deleteOrganization =>
    exact Or.inr (Or.inr (Or.inr ⟨rfl, rfl, h.imp_right Or.inl⟩))
  case deleteProject => exact Or.inr (Or.inr (Or.inr ⟨rfl, rfl, h.imp_right Or.inl⟩))
  case deleteEnvironment => exact Or.inr (Or.inr (Or.inr ⟨rfl, rfl, h.imp_right Or.inl⟩))
  all_goals exact Or.inr (Or.inr (Or.inr ⟨rfl, rfl, Or.inr (Or.inr (hother (by simp [tables]) h))⟩))

theorem NewVersion.plainValue {s : Secret} {v : SecretVersion} (h : NewVersion d op db s v) :
    ∃ plainValue, op.plainValue = some plainValue := by
  obtain ⟨_, -, -, -, plainValue, hop, -⟩ := h.encrypted
  exact ⟨plainValue, hop⟩

theorem SecretEffect.commanded (h : SecretEffect d op db ws) (hform : op.CommitForm ws) :
    Commanded d op db ws (commandOf op ws) := by
  have hcases := Op.commitForm_cases hform
  cases h with
  | elsewhere ws h =>
    have hnone : ∀ w ∈ ws, w.table ≠ .secrets ∧ w.table ≠ .secretVersions := fun w hw =>
      ⟨fun he => h w hw (by simp [he, vaultTables]), fun he => h w hw (by simp [he, vaultTables])⟩
    rcases hcases with ⟨_, _, _, _, _, _, _, _, -, rfl⟩ | ⟨_, _, _, _, _, _, -, rfl, -⟩ |
      ⟨_, _, _, rfl, rfl | ⟨_, rfl, -⟩⟩ | ⟨hc, -⟩
    · exact absurd rfl (hnone _ List.mem_cons_self).1
    · exact absurd rfl (hnone _ List.mem_cons_self).2
    · exact .elsewhere [] hnone
    · exact absurd rfl (hnone _ List.mem_cons_self).1
    · rw [hc]
      exact .elsewhere ws hnone
  | environmentCreated e k hk hactive hwrapped =>
    rcases hcases with ⟨_, _, _, _, _, _, _, _, -, hws⟩ | ⟨_, _, _, _, _, _, -, hws, -⟩ |
      ⟨_, _, _, -, hws | ⟨_, hws, -⟩⟩ | ⟨hc, -⟩
    · simp at hws
    · simp at hws
    · simp at hws
    · simp at hws
    · rw [hc]
      exact .elsewhere _ (by simp [Write.table])
  | secretCreated s v h =>
    obtain ⟨plainValue, hop⟩ := h.plainValue
    rcases hcases with ⟨e, o, name, value, u, id, _, _, rfl, hws⟩ | ⟨_, _, _, _, _, _, -, hws, -⟩ |
      ⟨_, _, _, -, hws | ⟨_, hws, -⟩⟩ | ⟨-, hvalue, -⟩
    · obtain rfl : s = ⟨id, e, name, none, false, none⟩ := by simpa using congrArg List.head? hws
      obtain rfl := Option.some.inj hop
      exact .create _ v value rfl rfl h
    · simp at hws
    · simp at hws
    · simp at hws
    · rw [hvalue] at hop
      cases hop
  | versionAdded s v hs h =>
    obtain ⟨plainValue, hop⟩ := h.plainValue
    rcases hcases with ⟨_, _, _, _, _, _, _, _, -, hws⟩ | ⟨x, o, value, u, v', r, rfl, hws, hx⟩ |
      ⟨_, _, _, -, hws | ⟨_, hws, -⟩⟩ | ⟨-, hvalue, -⟩
    · simp at hws
    · obtain rfl : v = v' := by simpa using congrArg List.head? hws
      obtain rfl := Option.some.inj hop
      obtain rfl : s.id = x := h.secret.symm.trans hx
      exact .rotate s v value hs rfl h
    · simp at hws
    · simp at hws
    · rw [hvalue] at hop
      cases hop
  | secretDeleted s hs time =>
    rcases hcases with ⟨_, _, _, _, _, _, _, _, -, hws⟩ | ⟨_, _, _, _, _, _, -, hws, -⟩ |
      ⟨x, o, u, rfl, hws | ⟨r, hws, hx⟩⟩ | ⟨hc, -, hws | ⟨_, _, _, hws⟩ | hws⟩
    · simp at hws
    · simp at hws
    · simp at hws
    · obtain rfl : s.deletedFrom time = r := by simpa using congrArg List.head? hws
      obtain rfl : s.id = x := hx
      exact .delete s time hs
    · simp at hws
    · simp at hws
    · exact absurd rfl (hws _ List.mem_cons_self).1
  | containerDeleted ws h =>
    have hnone : ∀ w ∈ ws, w.table ≠ .secrets ∧ w.table ≠ .secretVersions := by
      intro w hw
      obtain ⟨t, x, rfl⟩ := h.deletes w hw
      exact ⟨fun ht => h.secrets x (ht ▸ hw), fun ht => h.versions x (ht ▸ hw)⟩
    rcases hcases with ⟨_, _, _, _, _, _, _, _, -, rfl⟩ | ⟨_, _, _, _, _, _, -, rfl, -⟩ |
      ⟨_, _, _, rfl, rfl | ⟨_, rfl, -⟩⟩ | ⟨hc, -⟩
    · exact absurd rfl (hnone _ List.mem_cons_self).1
    · exact absurd rfl (hnone _ List.mem_cons_self).2
    · exact .elsewhere [] hnone
    · exact absurd rfl (hnone _ List.mem_cons_self).1
    · rw [hc]
      exact .elsewhere ws hnone

end

/-- The versions of the secret are these values under the numbers from 1 on, and it points at
the last one. -/
structure Chain (kms : LocalKMSProvider) (db : Db) (s : Secret) (values : List String) : Prop where
  numbered : NumberedUpTo db s.id values.length
  plain : ∀ v ∈ db .secretVersions, v.secretId = s.id → ∀ value,
    values[v.versionNumber - 1]? = some value → Decrypts kms db v value
  pointer : ∃ v ∈ db .secretVersions, s.currentVersionId = some v.id ∧ v.secretId = s.id ∧
    v.versionNumber = values.length

/-- The row of a secret and its versions show the entry. -/
structure Shows (kms : LocalKMSProvider) (db : Db) (s : Secret) (e : SecretHistory UUID) :
    Prop where
  environment : e.environment = s.environmentId
  name : e.name = s.keyName
  deleted : e.deleted = s.isDeleted
  chain : Chain kms db s e.values

structure Represents (kms : LocalKMSProvider) (db : Db) (V : Vault UUID) : Prop where
  entry : ∀ s ∈ db .secrets, ∃ e, V s.id = some e ∧ Shows kms db s e
  only : ∀ x, V x ≠ none → ∃ s ∈ db .secrets, s.id = x

theorem NumberedUpTo.unique {db : Db} {x : UUID} {m m' : ℕ} (h : NumberedUpTo db x m)
    (h' : NumberedUpTo db x m') : m = m' := by
  have hm := (h m).symm.trans (h' m)
  have hm' := (h m').symm.trans (h' m')
  omega

section
variable {n : ℕ} {d : Deployment} {calls : Fin n → ServiceCall} {base : Table × UUID → Prop}
  {W : VaultWorld n} {k : Fin n} {ws : List RowWrite} {V : Vault UUID}

theorem Represents.isSome (h : Represents d.kms W.db V) {s : Secret} (hs : s ∈ W.db .secrets) :
    V s.id ≠ none := by
  obtain ⟨e, he, -⟩ := h.entry s hs
  rw [he]
  exact Option.some_ne_none e

variable (h : VaultInv d calls base W) (hl : vaultSchema.LawfulCommit base W ws)
  (hg : SecretEffect d (calls k).op W.db ws)
include h hl hg

/-- What a version decrypts to stays. -/
theorem VaultInv.decrypts_kept {v : SecretVersion} (hv : v ∈ W.db .secretVersions) {value : String}
    (hplain : Decrypts d.kms W.db v value) : Decrypts d.kms (vaultSchema.view ws W.db) v value := by
  intro key hkey hkid
  obtain ⟨key', hkey', hkid'⟩ := parent_exists h.valid hv (by simp [referencesOf] :
    (.encryptionKeys, some v.encryptionKeyId) ∈ referencesOf .secretVersions v)
  obtain rfl : key = key' :=
    hg.key_unchanged (hl.newKeys h.used) h.valid hkey' hkey (hkid.trans (Eq.symm hkid'))
  exact hplain key hkey' hkid

/-- A new version decrypts to the value of its operation. -/
theorem VaultInv.decrypts_new {s : Secret} {v : SecretVersion} {value : String}
    (hnew : NewVersion d (calls k).op W.db s v) (hop : (calls k).op.plainValue = some value) :
    Decrypts d.kms (vaultSchema.view ws W.db) v value := by
  obtain ⟨key, hkey, hkid, -, value', hop', hplain⟩ := hnew.encrypted
  obtain rfl : value' = value := Option.some.inj (hop'.symm.trans hop)
  intro key' hkey' hkid'
  obtain rfl : key' = key :=
    hg.key_unchanged (hl.newKeys h.used) h.valid hkey hkey' (hkid'.trans hkid.symm)
  exact hplain

/-- A secret that no version is added to keeps its values. -/
theorem VaultInv.chain_kept {s s' : Secret} {values : List String}
    (hchain : Chain d.kms W.db s values) (hid : s'.id = s.id)
    (hpointer : s'.currentVersionId = s.currentVersionId)
    (hins : ∀ v, .insert .secretVersions v ∈ ws → v.secretId ≠ s.id) :
    Chain d.kms (vaultSchema.view ws W.db) s' values := by
  have hversions : ∀ v : SecretVersion, v.secretId = s.id →
      (v ∈ vaultSchema.view ws W.db .secretVersions ↔ v ∈ W.db .secretVersions) := fun v hv =>
    ⟨fun hm => (hg.version_origin (hl.newKeys h.used) hm).resolve_right fun hm => hins v hm hv,
      hg.version_kept⟩
  refine ⟨?_, fun v hv hsv value hvalue => ?_, ?_⟩
  · rw [hid]
    exact hchain.numbered.congr hversions
  · rw [hid] at hsv
    have hold := (hversions v hsv).mp hv
    exact h.decrypts_kept hl hg hold (hchain.plain v hold hsv value hvalue)
  · obtain ⟨v, hv, hpoint, hsv, hnumber⟩ := hchain.pointer
    exact ⟨v, hg.version_kept hv, hpointer.trans hpoint, hsv.trans hid.symm, hnumber⟩

/-- A secret that a version is stored in has one more value. -/
theorem VaultInv.chain_stored {s : Secret} {v : SecretVersion} {value : String}
    {values : List String} (hnew : NewVersion d (calls k).op W.db s v)
    (hop : (calls k).op.plainValue = some value) (hlist : versionsInserted s.id ws = [v])
    (hnumbered : NumberedUpTo W.db s.id values.length)
    (hplain : ∀ v ∈ W.db .secretVersions, v.secretId = s.id → ∀ value,
      values[v.versionNumber - 1]? = some value → Decrypts d.kms W.db v value) :
    Chain d.kms (vaultSchema.view ws W.db) (s.pointingTo v.id) (values ++ [value]) := by
  have hn := hl.newKeys h.used
  have hmem : v ∈ vaultSchema.view ws W.db .secretVersions :=
    hg.version_inserted (mem_versionsInserted.mp (hlist ▸ List.mem_singleton.mpr rfl)).1
  obtain ⟨v', -, hcurrent, -⟩ := h.current_stored hn hg hnew hlist
  obtain rfl : v = v' := hl.after.eq_of_id (t := .secretVersions) hmem hcurrent.mem
    (Option.some.inj hcurrent.pointer)
  have hnumber : v.versionNumber = values.length + 1 := by
    obtain ⟨m, hm, hnumber⟩ := hnew.next
    rw [hnumber, hm.unique hnumbered]
  have hlength : (values ++ [value]).length = v.versionNumber := by simp [hnumber]
  refine ⟨?_, fun v' hv' hsv' value' hvalue => ?_, v, hmem, rfl, hnew.secret, hlength.symm⟩
  · rw [hlength]
    exact hcurrent.last
  · rcases hg.version_origin hn hv' with hold | hins
    · -- an old number is at most the number of old values
      have hle := ((hnumbered v'.versionNumber).mp ⟨v', hold, hsv', rfl⟩)
      rw [List.getElem?_append_left (by omega)] at hvalue
      exact h.decrypts_kept hl hg hold (hplain v' hold hsv' value' hvalue)
    · have hin : v' ∈ versionsInserted s.id ws := mem_versionsInserted.mpr ⟨hins, hsv'⟩
      rw [hlist] at hin
      obtain rfl := List.mem_singleton.mp hin
      obtain rfl : value = value' := by simpa [hnumber] using hvalue
      exact h.decrypts_new hl hg hnew hop

theorem VaultInv.shows_kept {s s' : Secret} {e : SecretHistory UUID} (hshows : Shows d.kms W.db s e)
    (hid : s'.id = s.id) (henvironment : s'.environmentId = s.environmentId)
    (hname : s'.keyName = s.keyName) (hpointer : s'.currentVersionId = s.currentVersionId)
    (hins : ∀ v, .insert .secretVersions v ∈ ws → v.secretId ≠ s.id) :
    Shows d.kms (vaultSchema.view ws W.db) s' { e with deleted := s'.isDeleted } :=
  ⟨hshows.environment.trans henvironment.symm, hshows.name.trans hname.symm, rfl,
    h.chain_kept hl hg hshows.chain hid hpointer hins⟩

/-- A commit that leaves both tables alone leaves the vault as it is. -/
theorem VaultInv.represents_elsewhere (hrep : Represents d.kms W.db V)
    (hws : ∀ w ∈ ws, w.table ≠ .secrets ∧ w.table ≠ .secretVersions) :
    Represents d.kms (vaultSchema.view ws W.db) V := by
  have hsecrets : vaultSchema.view ws W.db .secrets = W.db .secrets :=
    vaultSchema.view_untouched (fun w hw => (hws w hw).1) W.db
  refine ⟨fun s hs => ?_, fun x hx => ?_⟩
  · rw [hsecrets] at hs
    obtain ⟨e, he, hshows⟩ := hrep.entry s hs
    have hkept := h.shows_kept hl hg hshows rfl rfl rfl rfl fun v hv =>
      absurd rfl (hws _ hv).2
    rw [← hshows.deleted] at hkept
    exact ⟨e, he, hkept⟩
  · rw [hsecrets]
    exact hrep.only x hx

/-- The creation of a secret. -/
theorem VaultInv.represents_create (hrep : Represents d.kms W.db V) {s : Secret} {v : SecretVersion}
    {value : String} (hws : ws = [.insert .secrets s, .insert .secretVersions v,
      .update .secrets (s.pointingTo v.id)]) (hlive : s.isDeleted = false)
    (hnew : NewVersion d (calls k).op W.db s v) (hop : (calls k).op.plainValue = some value) :
    (Command.create s.id s.environmentId s.keyName value).Allowed V ∧
      Represents d.kms (vaultSchema.view ws W.db)
        (V.exec (.create s.id s.environmentId s.keyName value)) := by
  have hfresh : s.id ∉ (W.db .secrets).map (rowId .secrets) :=
    (hl.newKeys h.used).2 .secrets s.id
      (vaultSchema.mem_inserted.mpr ⟨s, by rw [hws]; exact List.mem_cons_self, rfl⟩)
  have hnone : V s.id = none := by
    by_contra hsome
    obtain ⟨s', hs', hid⟩ := hrep.only s.id hsome
    exact hfresh (List.mem_map.mpr ⟨s', hs', hid⟩)
  -- nothing refers to the secret yet
  have hversions : ∀ v' ∈ W.db .secretVersions, v'.secretId ≠ s.id := by
    intro v' hv' hsv
    obtain ⟨s', hs', hid⟩ := parent_exists h.valid hv' (by simp [referencesOf] :
      (.secrets, some v'.secretId) ∈ referencesOf .secretVersions v')
    exact hfresh (List.mem_map.mpr ⟨s', hs', hid.trans hsv⟩)
  have hzero : NumberedUpTo W.db s.id ([] : List String).length := by
    intro m
    constructor
    · rintro ⟨v', hv', hsv, -⟩
      exact absurd hsv (hversions v' hv')
    · intro hm
      simp only [List.length_nil] at hm
      omega
  have hchain := h.chain_stored hl hg hnew hop (by simp [hws, versionsInserted, hnew.secret]) hzero
    fun v' hv' hsv => absurd hsv (hversions v' hv')
  have hview : vaultSchema.view ws W.db .secrets =
      vaultSchema.apply (.update .secrets (s.pointingTo v.id))
        (vaultSchema.apply (.insert .secrets s) W.db) .secrets := by
    rw [hws]
    rfl
  refine ⟨hnone, fun s' hs' => ?_, fun x hx => ?_⟩
  · rw [hview] at hs'
    rcases Schema.mem_apply_update.mp hs' with ⟨rfl, -⟩ | ⟨hs', hne⟩
    · exact ⟨_, Vault.exec_subject V _, rfl, rfl, hlive.symm, hchain⟩
    · rcases List.mem_append.mp hs' with hs' | hs'
      · obtain ⟨e, he, hshows⟩ := hrep.entry s' hs'
        have hkept := h.shows_kept hl hg hshows rfl rfl rfl rfl fun v' hv' => by
          obtain rfl : v' = v := by simpa [hws] using hv'
          rw [hnew.secret]
          exact Ne.symm hne
        rw [← hshows.deleted] at hkept
        exact ⟨e, (Vault.exec_other V hne).trans he, hkept⟩
      · exact absurd (congrArg Secret.id (List.mem_singleton.mp hs')) hne
  · rw [hview]
    by_cases hxs : x = s.id
    · exact ⟨_, Schema.mem_apply_update.mpr (Or.inl ⟨rfl, s, by simp, rfl⟩), hxs.symm⟩
    · rw [Vault.exec_other V hxs] at hx
      obtain ⟨s', hs', hid⟩ := hrep.only x hx
      refine ⟨s', Schema.mem_apply_update.mpr (Or.inr ⟨List.mem_append_left _ hs', ?_⟩), hid⟩
      exact fun heq => hxs (hid.symm.trans heq)

/-- A secret that exists is replaced, and the others are left alone. -/
theorem VaultInv.represents_replace (hrep : Represents d.kms W.db V) {s r : Secret}
    {c : Command UUID} {e : SecretHistory UUID} (hs : s ∈ W.db .secrets) (hid : r.id = s.id)
    (hview : vaultSchema.view ws W.db .secrets =
      vaultSchema.apply (.update .secrets r) W.db .secrets)
    (hins : ∀ v, .insert .secretVersions v ∈ ws → v.secretId = s.id) (hc : c.subject = s.id)
    (he : V.exec c c.subject = some e) (hshows : Shows d.kms (vaultSchema.view ws W.db) r e) :
    Represents d.kms (vaultSchema.view ws W.db) (V.exec c) := by
  rw [hc] at he
  refine ⟨fun s' hs' => ?_, fun x hx => ?_⟩
  · rw [hview] at hs'
    rcases Schema.mem_apply_update.mp hs' with ⟨rfl, -⟩ | ⟨hs', hne⟩
    · exact ⟨e, hid ▸ he, hshows⟩
    · have hne : s'.id ≠ s.id := fun heq => hne (heq.trans hid.symm)
      obtain ⟨e', he', hshows'⟩ := hrep.entry s' hs'
      have hkept := h.shows_kept hl hg hshows' rfl rfl rfl rfl fun v hv hsv =>
        hne (hsv.symm.trans (hins v hv))
      rw [← hshows'.deleted] at hkept
      exact ⟨e', (Vault.exec_other V (hc ▸ hne)).trans he', hkept⟩
  · rw [hview]
    by_cases hxs : x = s.id
    · exact ⟨r, Schema.mem_apply_update.mpr (Or.inl ⟨rfl, s, hs, hid.symm⟩), hid.trans hxs.symm⟩
    · rw [Vault.exec_other V (hc ▸ hxs)] at hx
      obtain ⟨s', hs', hid'⟩ := hrep.only x hx
      refine ⟨s', Schema.mem_apply_update.mpr (Or.inr ⟨hs', fun heq => hxs ?_⟩), hid'⟩
      exact hid'.symm.trans (Eq.trans heq hid)

/-- The next value of a secret. -/
theorem VaultInv.represents_rotate (hrep : Represents d.kms W.db V) {s : Secret} {v : SecretVersion}
    {value : String} (hs : s ∈ W.db .secrets) (hws : ws = [.insert .secretVersions v,
      .update .secrets (s.pointingTo v.id)]) (hnew : NewVersion d (calls k).op W.db s v)
    (hop : (calls k).op.plainValue = some value) :
    Represents d.kms (vaultSchema.view ws W.db) (V.exec (.rotate s.id value)) := by
  obtain ⟨e, he, hshows⟩ := hrep.entry s hs
  have hchain := h.chain_stored hl hg hnew hop (by simp [hws, versionsInserted, hnew.secret])
    hshows.chain.numbered hshows.chain.plain
  refine h.represents_replace hl hg hrep (r := s.pointingTo v.id)
    (e := { e with values := e.values ++ [value] }) hs rfl (by rw [hws]; rfl) (fun v' hv' => ?_) rfl
    ?_ ⟨hshows.environment, hshows.name, hshows.deleted, hchain⟩
  · obtain rfl : v' = v := by simpa [hws] using hv'
    exact hnew.secret
  · rw [Vault.exec_subject]
    simp only [Command.result, Command.subject, he, Option.map_some]

/-- The mark of a deleted secret. -/
theorem VaultInv.represents_delete (hrep : Represents d.kms W.db V) {s : Secret} {time : Timestamp}
    (hs : s ∈ W.db .secrets) (hws : ws = [.update .secrets (s.deletedFrom time)]) :
    Represents d.kms (vaultSchema.view ws W.db) (V.exec (.delete s.id)) := by
  obtain ⟨e, he, hshows⟩ := hrep.entry s hs
  have hins : ∀ v, .insert .secretVersions v ∉ ws := by simp [hws]
  refine h.represents_replace hl hg hrep (r := s.deletedFrom time)
    (e := { e with deleted := true }) hs rfl (by rw [hws]; rfl) (fun v hv => absurd hv (hins v)) rfl
    ?_ (h.shows_kept hl hg hshows rfl rfl rfl rfl fun v hv => absurd hv (hins v))
  rw [Vault.exec_subject]
  simp only [Command.result, Command.subject, he, Option.map_some]

/-- A commit carries out its command on the vault that the database holds. -/
theorem VaultInv.represents_commit (hform : (calls k).op.CommitForm ws)
    (hrep : Represents d.kms W.db V) :
    (∀ c ∈ commandOf (calls k).op ws, c.Allowed V) ∧
      Represents d.kms (vaultSchema.view ws W.db)
        ((commandOf (calls k).op ws).elim V V.exec) := by
  generalize hc : commandOf (calls k).op ws = c
  have hcommanded := hg.commanded hform
  rw [hc] at hcommanded
  cases hcommanded with
  | elsewhere ws hws => exact ⟨by simp, h.represents_elsewhere hl hg hrep hws⟩
  | create s v value hlive hop hnew =>
    obtain ⟨hallowed, hafter⟩ := h.represents_create hl hg hrep rfl hlive hnew hop
    exact ⟨by simpa using hallowed, hafter⟩
  | rotate s v value hs hop hnew =>
    exact ⟨by simpa [Command.Allowed] using hrep.isSome hs,
      h.represents_rotate hl hg hrep hs rfl hnew hop⟩
  | delete s time hs =>
    exact ⟨by simpa [Command.Allowed] using hrep.isSome hs, h.represents_delete hl hg hrep hs rfl⟩

end

section
variable {n : ℕ} (calls : Fin n → ServiceCall)

/-- The commands that the commits of a log carry out. -/
def commands (log : List (Fin n × List RowWrite)) : List (Command UUID) :=
  log.filterMap fun e => commandOf (calls e.1).op e.2

/-- The vault that the commits of a log build. -/
def vaultOf (log : List (Fin n × List RowWrite)) : Vault UUID := Vault.replay (commands calls log)

variable {calls} {log : List (Fin n × List RowWrite)} {k : Fin n} {ws : List RowWrite}

theorem commands_snoc : commands calls (log ++ [(k, ws)]) =
    commands calls log ++ (commandOf (calls k).op ws).toList := by
  rw [commands, List.filterMap_append, commands]
  cases hc : commandOf (calls k).op ws <;> simp [hc]

theorem vaultOf_snoc : vaultOf calls (log ++ [(k, ws)]) =
    (commandOf (calls k).op ws).elim (vaultOf calls log) (vaultOf calls log).exec := by
  rw [vaultOf, commands_snoc]
  cases commandOf (calls k).op ws with
  | none => simp [vaultOf]
  | some c => simp [vaultOf]

/-- Some commit of the log left this database: it holds the vault of that moment, and
every secret points at the version of its last value. -/
def Shown (d : Deployment) (calls : Fin n → ServiceCall) (log : List (Fin n × List RowWrite))
    (db : Db) : Prop :=
  Represents d.kms db (vaultOf calls log) ∧ ∀ s ∈ db .secrets, ∃ e versionId value,
    vaultOf calls log s.id = some e ∧ e.deleted = s.isDeleted ∧ e.values.getLast? = some value ∧
      s.currentVersionId = some versionId ∧ (versionId, value) ∈ stores calls log s.id

/-- The database holds the vault of the commits so far, and every version that was stored
decrypts to what it was stored with. -/
structure Refines (d : Deployment) (calls : Fin n → ServiceCall) (W : VaultWorld n) : Prop where
  legal : Vault.Legal (commands calls W.log)
  represents : Represents d.kms W.db (vaultOf calls W.log)
  stored : ∀ x, ∀ p ∈ stores calls W.log x,
    ∃ v ∈ W.db .secretVersions, v.id = p.1 ∧ Decrypts d.kms W.db v p.2

variable {d : Deployment} {base : Table × UUID → Prop} {W : VaultWorld n}

theorem Opens.refines (ho : Opens W) : Refines d calls W := by
  refine ⟨?_, ⟨fun s hs => ?_, fun x hx => ?_⟩, fun x p hp => ?_⟩
  · simpa [ho.log, commands] using Vault.legal_nil
  · rw [ho.secrets] at hs
    exact absurd hs List.not_mem_nil
  · simp [ho.log, vaultOf, commands, Vault.empty] at hx
  · simp [ho.log, stores] at hp

/-- What was stored under one identifier is one value. -/
theorem Refines.stored_unique (h : Refines d calls W) (hv : vaultSchema.Valid W.db) {x y : UUID}
    {versionId : UUID} {value value' : String} (hp : (versionId, value) ∈ stores calls W.log x)
    (hp' : (versionId, value') ∈ stores calls W.log y) : value = value' := by
  obtain ⟨v, hvm, hid, hplain⟩ := h.stored x _ hp
  obtain ⟨v', hvm', hid', hplain'⟩ := h.stored y _ hp'
  obtain rfl : v = v' := hv.eq_of_id (t := .secretVersions) hvm hvm' (hid.trans hid'.symm)
  obtain ⟨key, hkey, hkid⟩ := parent_exists hv hvm (by simp [referencesOf] :
    (.encryptionKeys, some v.encryptionKeyId) ∈ referencesOf .secretVersions v)
  exact Except.ok.inj ((hplain key hkey hkid).symm.trans (hplain' key hkey hkid))

/-- The database shows the vault of its own moment. -/
theorem Refines.shown (h : Refines d calls W) (hi : VaultInv d calls base W) :
    Shown d calls W.log W.db := by
  refine ⟨h.represents, fun s hs => ?_⟩
  obtain ⟨e, he, hshows⟩ := h.represents.entry s hs
  obtain ⟨v, value, hcurrent, hplain, hlast⟩ := hi.current s hs
  refine ⟨e, v.id, value, he, hshows.deleted, ?_, hcurrent.pointer, List.mem_of_getLast? hlast⟩
  -- the last number is the number of the values
  have hlength : e.values.length = v.versionNumber := hshows.chain.numbered.unique hcurrent.last
  have hone : 1 ≤ v.versionNumber :=
    ((hcurrent.last v.versionNumber).mp ⟨v, hcurrent.mem, hcurrent.secret, rfl⟩).1
  have hlt : e.values.length - 1 < e.values.length := by omega
  have hget : e.values[v.versionNumber - 1]? = some e.values[e.values.length - 1] := by
    rw [← hlength, List.getElem?_eq_getElem hlt]
  have hvalue := hshows.chain.plain v hcurrent.mem hcurrent.secret _ hget
  obtain ⟨key, hkey, hkid⟩ := parent_exists hi.valid hcurrent.mem (by simp [referencesOf] :
    (.encryptionKeys, some v.encryptionKeyId) ∈ referencesOf .secretVersions v)
  rw [List.getLast?_eq_getElem?, List.getElem?_eq_getElem hlt]
  exact congrArg some (Except.ok.inj ((hvalue key hkey hkid).symm.trans (hplain key hkey hkid)))

/-- One commit carries the refinement on. -/
theorem Refines.commit (h : Refines d calls W) (hi : VaultInv d calls base W)
    (hl : vaultSchema.LawfulCommit base W ws) (hg : SecretEffect d (calls k).op W.db ws)
    (hform : (calls k).op.CommitForm ws) : Refines d calls (W.commit vaultEngine k ws) := by
  obtain ⟨hallowed, hafter⟩ := hi.represents_commit hl hg hform h.represents
  refine ⟨?_, ?_, fun x p hp => ?_⟩
  · rw [World.commit_log, commands_snoc]
    cases hc : commandOf (calls k).op ws with
    | none => simpa using h.legal
    | some c => exact h.legal.snoc (hallowed c hc)
  · rw [World.commit_log, vaultOf_snoc]
    exact hafter
  · rw [World.commit_log, stores_snoc] at hp
    rcases List.mem_append.mp hp with hp | hp
    · obtain ⟨v, hv, hid, hplain⟩ := h.stored x p hp
      exact ⟨v, hg.version_kept hv, hid, hi.decrypts_kept hl hg hv hplain⟩
    · cases hop : (calls k).op.plainValue with
      | none => simp [hop] at hp
      | some value =>
        simp only [hop, List.mem_map] at hp
        obtain ⟨v, hv, rfl⟩ := hp
        have hins := (mem_versionsInserted.mp hv).1
        obtain ⟨s, hnew⟩ := hg.of_version_inserted hins
        exact ⟨v, hg.version_inserted hins, rfl, hi.decrypts_new hl hg hnew hop⟩

/-- In every state of every run the database holds the vault of the commits so far. -/
theorem Opens.refines_run (ho : Opens W) {as : Schedule n} {s : VaultSys n}
    (hr : (waiting d calls W).run vaultEngine as = some s) : Refines d calls s.world := by
  refine Sys.run_invariant (I := fun _ u => Refines d calls u.world) hr ho.refines ?_
  intro pre a u u' hpre hu h hstep
  have hok := ho.ok hu
  have hforms : u.CommitsOnly fun i => (calls i).op.CommitForm :=
    (Sys.CommitsOnly.initial ho.log fun i => (calls i).op.commits).run hu
  have hafter : u'.CommitsOnly fun i => (calls i).op.CommitForm := hforms.step hstep
  have hdb := Sys.step_db hstep
  have hlog := Sys.step_log hstep
  cases hc : u.committing a with
  | none =>
    rw [hc] at hdb hlog
    refine ⟨?_, ?_, ?_⟩
    · simpa [hlog] using h.legal
    · simpa [hlog, hdb] using h.represents
    · simpa [hlog, hdb] using h.stored
  | some c =>
    obtain ⟨k, ws⟩ := c
    rw [hc] at hdb hlog
    have hl := ho.each_lawful pre a u hpre hu k ws hc
    have hg := hok.guar secret_meets (fun k' ws' hc' =>
      ⟨ho.each_lawful pre a u hpre hu k' ws' hc', fun _ _ _ => trivial⟩) hc
    have hform : (calls k).op.CommitForm ws := hafter.log (k, ws) (by simp [hlog])
    have hcommit := h.commit hok.inv hl hg hform
    refine ⟨?_, ?_, ?_⟩
    · simpa [hlog, World.commit_log] using hcommit.legal
    · simpa [hlog, hdb, World.commit_log, World.commit_db] using hcommit.represents
    · simpa [hlog, hdb, World.commit_log, World.commit_db] using hcommit.stored

/-- A call that begins after `s₀` meets databases of the moments since. -/
theorem Opens.shown_seen (ho : Opens W) {as bs : Schedule n} {s₀ s : VaultSys n}
    (hr₀ : (waiting d calls W).run vaultEngine as = some s₀)
    (hr : s₀.run vaultEngine bs = some s) {i : Fin n} (hi : (s₀.call i).started = false) :
    ∀ db ∈ (s.call i).seen, ∃ pre, s₀.world.log <+: pre ∧ pre <+: s.world.log ∧
      Shown d calls pre db := by
  have hnil : (s₀.call i).seen = [] := (Sys.run_seen hr₀ i).2 (fun _ => rfl) hi
  intro db hdb
  obtain ⟨pre, u, hpre, hu, rfl⟩ := Sys.seen_once hr hnil db hdb
  obtain ⟨rest, hrest⟩ := Sys.run_of_prefix hpre hu hr
  have hrun : (waiting d calls W).run vaultEngine (as ++ pre) = some u := by
    rw [Sys.run_append, hr₀]
    exact hu
  exact ⟨u.world.log, Sys.run_log_prefix hu, Sys.run_log_prefix hrest,
    (ho.refines_run hrun).shown (ho.vaultInv hrun)⟩

end

/-- From any reachable state on, the database refines the abstract vault. The committed
calls are its commands, in the order of their commits and each allowed where it stands; the
database of every state holds the vault they build, every value of every secret readable
under its number; and a reveal that begins later returns the last value that its secret,
live, has in the vault at some moment of the call. -/
theorem vault_refines_history {n : ℕ} (d : Deployment) (calls : Fin n → ServiceCall)
    (W : VaultWorld n) (ho : Opens W) (as bs : Schedule n) (s₀ s : VaultSys n)
    (hr₀ : (waiting d calls W).run vaultEngine as = some s₀)
    (hr : s₀.run vaultEngine bs = some s) :
    Vault.Legal (commands calls s.world.log) ∧
    Represents d.kms s.world.db (vaultOf calls s.world.log) ∧
    ∀ i secretId org actor plainValue, (calls i).op = .getDecryptedValue secretId org actor →
      (s₀.call i).started = false → (s.call i).prog = .ret (.value plainValue) →
        ∃ pre e, s₀.world.log <+: pre ∧ pre <+: s.world.log ∧
          vaultOf calls pre secretId = some e ∧ e.deleted = false ∧
          e.values.getLast? = some plainValue := by
  have hrun : (waiting d calls W).run vaultEngine (as ++ bs) = some s := by
    rw [Sys.run_append, hr₀]
    exact hr
  have hok := ho.ok hrun
  have hrefines := ho.refines_run hrun
  refine ⟨hrefines.legal, hrefines.represents, ?_⟩
  intro i secretId org actor plainValue hop hi hret
  obtain ⟨db, hdb, secret, hs, rfl, hlive, versionId, hpointer, hstored⟩ :=
    (hok.call i).ret secret_meets hok.inv hret secretId org actor plainValue hop rfl
  obtain ⟨pre, hsince, hbefore, -, hshown⟩ := ho.shown_seen hr₀ hr hi db hdb
  obtain ⟨e, versionId', value, he, hdeleted, hvalue, hpointer', hstored'⟩ := hshown secret hs
  refine ⟨pre, e, hsince, hbefore, he, hdeleted.trans hlive, ?_⟩
  obtain rfl : versionId = versionId' := Option.some.inj (hpointer.symm.trans hpointer')
  have hlater : (versionId, value) ∈ stores calls s.world.log secret.id := by
    obtain ⟨rest, hrest⟩ := hbefore
    rw [← hrest, stores, List.flatMap_append]
    exact List.mem_append_left _ hstored'
  rw [hvalue, hrefines.stored_unique hok.inv.valid hlater hstored]

theorem vault_refines_history_acme : ∃ s₀ s pre e,
    (waiting sampleDeployment acmeCalls ⟨acmeDb, [], samplePast 10⟩).run vaultEngine
      (acmeSteps.take 35) = some s₀ ∧ s₀.run vaultEngine (acmeSteps.drop 35) = some s ∧
    s₀.world.log <+: pre ∧ pre <+: s.world.log ∧ vaultOf acmeCalls pre 50 = some e ∧
    e.deleted = false ∧ e.values.getLast? = some "two" := by
  have hrun : ((waiting sampleDeployment acmeCalls ⟨acmeDb, [], samplePast 10⟩).run vaultEngine
      (acmeSteps.take 35)).bind (fun s₀ => (s₀.run vaultEngine (acmeSteps.drop 35)).map
        fun s => ((s₀.call 3).started, returnedValue s 3)) = some (false, some "two") := by rfl
  obtain ⟨s₀, hs₀, hrun⟩ := Option.bind_eq_some_iff.mp hrun
  obtain ⟨s, hs, hfacts⟩ := Option.map_eq_some_iff.mp hrun
  obtain ⟨hstarted, hvalue⟩ := Prod.mk.inj hfacts
  have htheorem := vault_refines_history sampleDeployment acmeCalls _ opens_acme _ _ s₀ s hs₀ hs
  obtain ⟨pre, e, hsince, hbefore, he, hlive, hlast⟩ :=
    htheorem.2.2 3 50 10 1 "two" rfl hstarted (prog_of_returnedValue hvalue)
  exact ⟨s₀, s, pre, e, hs₀, hs, hsince, hbefore, he, hlive, hlast⟩

end EnvVault
