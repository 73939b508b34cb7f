import EnvVault.CascadeReach
import EnvVault.CommitLists
import EnvVault.SecretRules
import EnvVault.AuditTrail

/-!
# The statements of the services on known rows

The rules of the statements where every row found satisfies a predicate of the caller's
choice, of the lists that they commit, and of the lookups by which the services tie a row
to an organization.
-/
namespace EnvVault
open EnvVault.Relational EnvVault.Transactions

/-- A predicate of the rows of every table. -/
abbrev RowPred : Type := RowPredicate RowOf

section
variable {uow : UnitOfWork} {K : RowPred} {J : RowWrite → Prop} {t : Table} {β : Type}
  {B : β → Prop}

/-- The rows that a query finds satisfy `K`. -/
theorem writes_select_bind {cond : RowOf t → Bool} {k : List (RowOf t) → Tx β}
    (h : ∀ rows, (∀ r ∈ rows, K t r ∧ cond r = true) → (k rows).WritesOn K J B) :
    ((uow.select t cond).bind k).WritesOn K J B := by
  refine Prog.writes_statement_bind fun inp v ws rows hv hf => ?_
  simp only [Except.ok.injEq, Prod.mk.injEq] at hf
  obtain ⟨rfl, rfl⟩ := hf
  refine ⟨fun w hw => absurd hw List.not_mem_nil, fun _ => h _ fun r hr => ?_⟩
  obtain ⟨hmem, hcond⟩ := List.mem_filter.mp hr
  simp only [Bool.and_eq_true] at hcond
  exact ⟨hv t r hmem, hcond.2⟩

theorem writes_selectOne_bind {cond : RowOf t → Bool} {k : Option (RowOf t) → Tx β}
    (hnone : (k none).WritesOn K J B)
    (hsome : ∀ r, K t r → cond r = true → (k (some r)).WritesOn K J B) :
    ((uow.selectOne t cond).bind k).WritesOn K J B := by
  rw [UnitOfWork.selectOne_bind]
  refine writes_select_bind fun rows hrows => ?_
  unfold UnitOfWork.scalarOneOrNone
  split
  · exact hnone
  · rename_i r
    obtain ⟨hK, hcond⟩ := hrows r (List.mem_singleton.mpr rfl)
    exact hsome r hK hcond
  · trivial

/-- What is inserted has to satisfy `K` and `J`. -/
theorem writes_insertFlushed_bind {row : Input → RowOf t} {k : RowOf t → Tx β}
    (hJ : ∀ inp, J (.insert t (row inp)))
    (hk : ∀ inp, K t (row inp) → (k (row inp)).WritesOn K J B) :
    ((uow.insertFlushed t row).bind k).WritesOn K J B := by
  refine Prog.writes_statement_bind fun inp v ws r _ hf => ?_
  obtain ⟨rfl, rfl, -⟩ := UnitOfWork.insertRow_ok hf
  refine ⟨fun w hw => ?_, fun hw => hk inp (hw _ (List.mem_singleton.mpr rfl))⟩
  obtain rfl := List.mem_singleton.mp hw
  exact hJ inp

/-- An UPDATE keeps `K` if its row does. -/
theorem writes_updateById_bind {id : UUID} {cond : RowOf t → Bool}
    {set : Input → RowOf t → RowOf t} {k : ℕ → Tx β}
    (hJ : ∀ inp r, K t r → rowId t r = id → J (.update t (set inp r)))
    (hk : ∀ n, (k n).WritesOn K J B) :
    ((uow.updateById t id cond set).bind k).WritesOn K J B := by
  refine Prog.writes_statement_bind fun inp v ws n hv hf => ⟨fun w hw => ?_, fun _ => hk n⟩
  rcases UnitOfWork.updateRow_ok hf with ⟨rfl, -⟩ | ⟨r, hr, hid, -, -, rfl, -⟩
  · exact absurd hw List.not_mem_nil
  · obtain rfl := List.mem_singleton.mp hw
    exact hJ inp r (hv t r hr) hid

theorem writes_delete_bind (hK : K.Clearable vaultSchema) {id : UUID} {k : Unit → Tx β}
    (hJ : ∀ w, vaultSchema.CascadeWrite K t id w → J w) (hk : (k ()).WritesOn K J B) :
    ((uow.delete t id).bind k).WritesOn K J B := by
  refine Prog.writes_statement_bind fun inp v ws a hv hf => ⟨fun w hw => hJ w ?_, fun _ => hk⟩
  rcases UnitOfWork.deleteRow_ok hf with rfl | hd
  · exact absurd hw List.not_mem_nil
  · exact Schema.cascadeWrite_deleteRow vaultSchema_clearsOk hK hv hd w hw

theorem writes_updateFlushed_bind {id : UUID} {set : RowOf t → RowOf t} {k : Unit → Tx β}
    (hJ : ∀ r, K t r → rowId t r = id → J (.update t (set r)))
    (hk : (k ()).WritesOn K J B) :
    ((uow.updateFlushed t id set).bind k).WritesOn K J B := by
  rw [UnitOfWork.updateFlushed_bind]
  exact writes_updateById_bind (fun _ => hJ) fun _ => (reads_raiseIf _ _ _).bind_writes
    fun _ _ => hk

theorem writes_updateEach_bind {cond : RowOf t → Bool} {set : Input → RowOf t → RowOf t}
    {k : Unit → Tx β} (hJ : ∀ inp r, K t r → J (.update t (set inp r)))
    (hk : (k ()).WritesOn K J B) (ids : List UUID) :
    ((uow.updateEach t cond set ids).bind k).WritesOn K J B := by
  induction ids with
  | nil => exact hk
  | cons id ids ih =>
    rw [UnitOfWork.updateEach_cons_bind]
    exact writes_updateById_bind (fun inp r hr _ => hJ inp r hr) fun _ => ih

theorem writes_updateWhere_bind {cond : RowOf t → Bool} {set : Input → RowOf t → RowOf t}
    {k : Unit → Tx β} (hJ : ∀ inp r, K t r → J (.update t (set inp r)))
    (hk : (k ()).WritesOn K J B) :
    ((uow.updateWhere t cond set).bind k).WritesOn K J B := by
  rw [UnitOfWork.updateWhere_bind]
  exact (reads_select _ _).bind_writes fun _ _ => writes_updateEach_bind hJ hk _

/-- A COMMIT asks nothing more. -/
theorem writes_commit_bind {k : Unit → Tx β} (hk : (k ()).WritesOn K J B) :
    (UnitOfWork.commit.bind k).WritesOn K J B := by
  rw [UnitOfWork.commit_bind]
  exact Prog.writes_commitNow_bind (reads_setRlsContext.bind_writes fun _ _ => hk)

theorem writes_commit : UnitOfWork.commit.WritesOn K J fun _ => True :=
  ⟨reads_setRlsContext.writes, fun _ => trivial⟩

/-- The handler of an IntegrityError rolls back and raises. -/
theorem writes_conflict {body : Tx β} {exn : Exn} (hb : body.WritesOn K J B) :
    (exceptIntegrityError body (do UnitOfWork.rollback; throw exn)).WritesOn K J B := by
  refine .handle hb fun e => ?_
  split <;> trivial

end

section
variable {uow : UnitOfWork} {J : List RowWrite → Prop} {ws : List RowWrite} {t : Table} {β : Type}

theorem commitsOnly_insertFlushed_bind {row : Input → RowOf t} {k : RowOf t → Tx β}
    (h : ∀ inp, (k (row inp)).CommitsOnly J (ws ++ [.insert t (row inp)])) :
    ((uow.insertFlushed t row).bind k).CommitsOnly J ws := by
  refine Prog.commitsOnly_statement_bind fun inp v vs r hf => ?_
  obtain ⟨rfl, rfl, -⟩ := UnitOfWork.insertRow_ok hf
  exact h inp

theorem commitsOnly_updateById_bind {id : UUID} {cond : RowOf t → Bool}
    {set : Input → RowOf t → RowOf t} {k : ℕ → Tx β} (hnone : (k 0).CommitsOnly J ws)
    (hsome : ∀ inp r, rowId t r = id → (k 1).CommitsOnly J (ws ++ [.update t (set inp r)])) :
    ((uow.updateById t id cond set).bind k).CommitsOnly J ws := by
  refine Prog.commitsOnly_statement_bind fun inp v vs n hf => ?_
  rcases UnitOfWork.updateRow_ok hf with ⟨rfl, rfl, -⟩ | ⟨r, -, hid, -, rfl, rfl, -⟩
  · simpa using hnone
  · exact hsome inp r hid

theorem commitsOnly_updateFlushed_bind {id : UUID} {set : RowOf t → RowOf t} {k : Unit → Tx β}
    (h : ∀ r, rowId t r = id → (k ()).CommitsOnly J (ws ++ [.update t (set r)])) :
    ((uow.updateFlushed t id set).bind k).CommitsOnly J ws := by
  rw [UnitOfWork.updateFlushed_bind]
  exact commitsOnly_updateById_bind trivial fun _ r hr => (reads_raiseIf _ _ _).bind_commitsOnly
    fun _ _ => h r hr

theorem commitsOnly_commit_bind {k : Unit → Tx β} (hws : J ws) (hk : (k ()).CommitsOnly J []) :
    (UnitOfWork.commit.bind k).CommitsOnly J ws := by
  rw [UnitOfWork.commit_bind]
  exact Prog.commitsOnly_commitNow_bind hws (reads_setRlsContext.bind_commitsOnly fun _ _ => hk)

theorem commitsOnly_commit (hws : J ws) : UnitOfWork.commit.CommitsOnly J ws := by
  rw [← Prog.bind_ret UnitOfWork.commit]
  exact commitsOnly_commit_bind hws trivial

/-- The handler of an IntegrityError commits nothing. -/
theorem commitsOnly_conflict {body : Tx β} {exn : Exn} (hb : body.CommitsOnly J ws) :
    (exceptIntegrityError body (do UnitOfWork.rollback; throw exn)).CommitsOnly J ws := by
  refine hb.handle fun e vs => ?_
  split <;> trivial

end

section
variable (K : RowPred) (o : UUID)

/-- A row with `K` puts the project in the organization. -/
def ProjectOf (projectId : UUID) : Prop :=
  ∃ p : Project, K .projects p ∧ p.id = projectId ∧ p.organizationId = o

def EnvironmentOf (environmentId : UUID) : Prop :=
  ∃ e : Environment, K .environments e ∧ e.id = environmentId ∧ ProjectOf K o e.projectId

def SecretOf (secretId : UUID) : Prop :=
  ∃ s : Secret, K .secrets s ∧ s.id = secretId ∧ EnvironmentOf K o s.environmentId

/-- The parents that the row names lead to the organization. -/
def BelongsTo : (t : Table) → RowOf t → Prop
  | .projects, r => r.organizationId = o
  | .environments, r => ProjectOf K o r.projectId
  | .secrets, r => EnvironmentOf K o r.environmentId
  | .secretVersions, r => SecretOf K o r.secretId
  | .encryptionKeys, r => EnvironmentOf K o r.environmentId
  | .apiTokens, r => ProjectOf K o r.projectId
  | .auditLogs, r => r.organizationId = some o
  | .organizations, r => r.id = o
  | .memberships, r => r.organizationId = o
  | .users, _ => False
  | .refreshTokens, _ => False

/-- Some row with `K` ties the key to the organization. -/
def KeyOf (t : Table) (x : UUID) : Prop := ∃ r, K t r ∧ rowId t r = x ∧ BelongsTo K o t r

end

section
variable {uow : UnitOfWork} {K : RowPred} {J : RowWrite → Prop} {β : Type} {B : β → Prop}
  {o : UUID}

theorem writes_requireOrgRole_bind {actorUserId : UUID} {minimum : MembershipRole}
    {k : Membership → Tx β} (h : ∀ m, K .memberships m → m.organizationId = o →
      (k m).WritesOn K J B) :
    ((requireOrgRole uow o actorUserId minimum).bind k).WritesOn K J B := by
  simp only [requireOrgRole, getActorMembership, MembershipRepository.getByUserAndOrg,
    Prog.bind_eq, Prog.bind_assoc]
  refine writes_selectOne_bind trivial fun m hm hcond => ?_
  simp only [Bool.and_eq_true, beq_iff_eq] at hcond
  exact (reads_raiseIf _ _ _).bind_writes fun _ _ => h m hm hcond.2

theorem writes_getOrganization_bind {k : Organization → Tx β}
    (h : ∀ org : Organization, K .organizations org → org.id = o → (k org).WritesOn K J B) :
    ((OrganizationService.get uow o).bind k).WritesOn K J B := by
  simp only [OrganizationService.get, OrganizationRepository.get, UnitOfWork.get, Prog.bind_eq,
    Prog.bind_assoc]
  refine writes_selectOne_bind trivial fun org horg hid => ?_
  exact h org horg (beq_iff_eq.mp hid)

/-- The session may hold the object that it has loaded before. -/
theorem writes_getTarget_bind {actor : Membership} {id : UUID} {k : Membership → Tx β}
    (hactor : K .memberships actor) (h : ∀ m, K .memberships m → m.id = id →
      m.organizationId = o → (k m).WritesOn K J B) :
    ((MembershipService.getTarget uow actor o id).bind k).WritesOn K J B := by
  simp only [MembershipService.getTarget, MembershipRepository.get, UnitOfWork.get, Prog.bind_eq,
    Prog.bind_assoc]
  refine writes_selectOne_bind trivial fun m hm hid => ?_
  have hmid : m.id = id := beq_iff_eq.mp hid
  dsimp only
  rw [Prog.bind_assoc]
  refine (reads_raiseIf _ _ _).bind_writes fun _ horg => ?_
  have hsame : (identityMap Membership.id actor m).organizationId = o := by simpa using horg
  refine h _ ?_ ?_ hsame
  · unfold identityMap
    split
    · exact hactor
    · exact hm
  · unfold identityMap
    split
    · rename_i hkey
      exact hkey.trans hmid
    · exact hmid

theorem writes_lookup_bind {notFound : ExnClass} {id : UUID} {k : Project → Tx β}
    (h : ∀ p, K .projects p → p.id = id → p.organizationId = o → (k p).WritesOn K J B) :
    ((ProjectService.lookup uow notFound o id).bind k).WritesOn K J B := by
  simp only [ProjectService.lookup, ProjectRepository.get, UnitOfWork.get, Prog.bind_eq,
    Prog.bind_assoc]
  refine writes_selectOne_bind trivial fun p hp hid => ?_
  split
  · trivial
  · rename_i p' hp'
    obtain rfl : p = p' := Option.some.inj (Option.eq_some_of_filter_eq_some hp')
    have horg : p.organizationId = o := by simpa using hp'
    exact h p hp (beq_iff_eq.mp hid) horg

theorem writes_getEnvironment_bind {id : UUID} {k : Environment → Tx β}
    (h : ∀ e, K .environments e → e.id = id → ProjectOf K o e.projectId →
      (k e).WritesOn K J B) : ((EnvironmentService.getIn uow o id).bind k).WritesOn K J B := by
  simp only [EnvironmentService.getIn, EnvironmentRepository.get, ProjectRepository.get,
    UnitOfWork.get, Prog.bind_eq, Prog.bind_assoc]
  refine writes_selectOne_bind trivial fun e he hid => ?_
  dsimp only
  rw [Prog.bind_assoc]
  refine writes_selectOne_bind ?_ fun p hp hpid => ?_
  · trivial
  · rw [Prog.bind_assoc]
    refine (reads_raiseIf _ _ _).bind_writes fun _ horg => ?_
    have hpo : p.organizationId = o := by simpa using horg
    exact h e he (beq_iff_eq.mp hid) ⟨p, hp, beq_iff_eq.mp hpid, hpo⟩

theorem writes_resolveEnvironmentOrg_bind {id : UUID} {k : Unit → Tx β}
    (h : EnvironmentOf K o id → (k ()).WritesOn K J B) :
    ((SecretService.resolveEnvironmentOrg uow id o).bind k).WritesOn K J B := by
  simp only [SecretService.resolveEnvironmentOrg, Prog.bind_eq, Prog.bind_assoc]
  exact writes_getEnvironment_bind fun e he hid hp => h ⟨e, he, hid, hp⟩

theorem writes_getOwnedSecret_bind {id : UUID} {k : Secret → Tx β}
    (h : ∀ s, K .secrets s → s.id = id → EnvironmentOf K o s.environmentId →
      (k s).WritesOn K J B) : ((SecretService.getOwnedSecret uow id o).bind k).WritesOn K J B := by
  simp only [SecretService.getOwnedSecret, SecretRepository.get, UnitOfWork.get, Prog.bind_eq,
    Prog.bind_assoc]
  refine writes_selectOne_bind trivial fun s hs hid => ?_
  split
  · trivial
  · rename_i s' hs'
    obtain rfl : s = s' := Option.some.inj (Option.eq_some_of_filter_eq_some hs')
    rw [Prog.bind_assoc]
    exact writes_resolveEnvironmentOrg_bind fun henv => h s hs (beq_iff_eq.mp hid) henv

theorem writes_activeKey_bind {environmentId : UUID} {k : EncryptionKey → Tx β}
    (h : ∀ key, K .encryptionKeys key → (k key).WritesOn K J B) :
    ((SecretService.activeKey uow environmentId).bind k).WritesOn K J B := by
  simp only [SecretService.activeKey, EncryptionKeyRepository.getActiveForEnvironment,
    Prog.bind_eq, Prog.bind_assoc]
  exact writes_selectOne_bind trivial fun key hkey _ => h key hkey

/-- The UPDATE of the pointer, the check of its foreign key and the COMMIT. -/
theorem writes_commitPointer_bind {secretId versionId : UUID} {k : Unit → Tx β}
    (hJ : ∀ r, K .secrets r → r.id = secretId →
      J (.update .secrets { r with currentVersionId := some versionId }))
    (hk : (k ()).WritesOn K J B) :
    ((SecretService.commitPointer uow secretId versionId).bind k).WritesOn K J B := by
  simp only [SecretService.commitPointer, Prog.bind_eq, Prog.bind_assoc]
  exact writes_updateFlushed_bind (t := .secrets) hJ
    ((SecretService.reads_checkCurrentVersion _ _).bind_writes fun _ _ => writes_commit_bind hk)

end

end EnvVault
