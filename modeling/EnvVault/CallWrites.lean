import EnvVault.Calls

/-!
# What the service calls write

Every statement of a call introduces only keys its input supplies, leaves a
valid view valid, and writes to the tables of its method.
-/
namespace EnvVault
open EnvVault.Relational EnvVault.Transactions

section
variable {uow : UnitOfWork} {ts : List Table}
open UnitOfWork

/-- The role checks only query. -/
theorem comprises_getActorMembership (org actor : UUID) :
    (getActorMembership uow org actor).Comprises (WritesTo ts) :=
  .bind (comprises_selectOne _) fun m => by cases m <;> trivial

theorem comprises_requireOrgRole (org actor : UUID) (minimum : MembershipRole) :
    (requireOrgRole uow org actor minimum).Comprises (WritesTo ts) :=
  .bind (comprises_getActorMembership org actor) fun _ =>
    .bind (comprises_raiseIf _ _ _) fun _ => trivial

theorem comprises_requireOrgRoleAgain (loaded : Membership) (org actor : UUID)
    (minimum : MembershipRole) :
    (requireOrgRoleAgain uow loaded org actor minimum).Comprises (WritesTo ts) :=
  .bind (comprises_getActorMembership org actor) fun _ =>
    .bind (comprises_raiseIf _ _ _) fun _ => trivial

/-- An INSERT and the COMMIT after it, with the handler for a violated constraint. -/
theorem comprises_insertOrConflict {t : Table} {row : Input → RowOf t} {exn : Exn} (ht : t ∈ ts)
    (hid : ∀ inp, rowId t (row inp) = inp.uuid) :
    (exceptIntegrityError
      (do let r ← uow.insertFlushed t row
          UnitOfWork.commit
          return r)
      (do UnitOfWork.rollback
          throw exn)).Comprises (WritesTo ts) :=
  comprises_exceptIntegrityError
    (.bind (comprises_insertFlushed ht hid) fun _ => .bind comprises_commit fun _ => trivial)
    (.bind comprises_rollback fun _ => trivial)

namespace AuthService
variable {security : SecurityModules}

/-- A pair of tokens is one INSERT. -/
theorem comprises_issueTokenPair (ht : .refreshTokens ∈ ts) (userId : UUID) :
    (issueTokenPair security uow userId).Comprises (WritesTo ts) :=
  .bind comprises_readInput fun _ => .bind (comprises_insertFlushed ht fun _ => rfl) fun _ =>
    .bind comprises_commit fun _ => .bind comprises_readInput fun _ => trivial

theorem comprises_revoke (ht : .refreshTokens ∈ ts) (id : UUID) :
    (RefreshTokenRepository.revoke uow id).Comprises (WritesTo ts) :=
  .bind (comprises_updateById ht) fun _ => trivial

theorem comprises_revokeAllForUser (ht : .refreshTokens ∈ ts) (id : UUID) :
    (RefreshTokenRepository.revokeAllForUser uow id).Comprises (WritesTo ts) :=
  comprises_updateWhere ht

theorem comprises_register (ht : .users ∈ ts) (email password : String)
    (fullName : Option String) :
    (register security uow email password fullName).Comprises (WritesTo ts) :=
  .bind (comprises_selectOne _) fun _ => .bind (comprises_raiseIf _ _ _) fun _ =>
    comprises_insertOrConflict ht fun _ => rfl

theorem comprises_login (ht : .refreshTokens ∈ ts) (email password : String) :
    (login security uow email password).Comprises (WritesTo ts) := by
  refine .bind (comprises_selectOne _) fun user => .bind (comprises_raiseIf _ _ _) fun _ => ?_
  cases user with
  | none => trivial
  | some user =>
    exact .bind (comprises_raiseIf _ _ _) fun _ => .bind (comprises_issueTokenPair ht _) fun _ =>
      trivial

/-- Whatever a refresh finds, it writes to this one table. -/
theorem comprises_refresh (ht : .refreshTokens ∈ ts) (raw : String) :
    (refresh security uow raw).Comprises (WritesTo ts) := by
  refine .bind (comprises_selectOne _) fun stored => ?_
  cases stored with
  | none => trivial
  | some stored =>
    dsimp only
    split
    · exact .bind (comprises_revokeAllForUser ht _) fun _ => .bind comprises_commit fun _ => trivial
    · refine .bind comprises_readInput fun clock => ?_
      split
      · exact .bind (comprises_revoke ht _) fun _ => .bind comprises_commit fun _ => trivial
      · refine .bind (comprises_get _) fun user => ?_
        split
        · exact .bind (comprises_revokeAllForUser ht _) fun _ => .bind comprises_commit
            fun _ => trivial
        · exact .bind (comprises_revoke ht _) fun _ => .bind (comprises_issueTokenPair ht _)
            fun _ => trivial

theorem comprises_logout (ht : .refreshTokens ∈ ts) (raw : String) :
    (logout security uow raw).Comprises (WritesTo ts) := by
  refine .bind (comprises_selectOne _) fun stored => ?_
  split
  · trivial
  · exact .bind (comprises_revoke ht _) fun _ => comprises_commit

theorem comprises_logoutAll (ht : .refreshTokens ∈ ts) (userId : UUID) :
    (logoutAll uow userId).Comprises (WritesTo ts) :=
  .bind (comprises_revokeAllForUser ht _) fun _ => comprises_commit

end AuthService

/-- What `create_organization_with_owner` has checked and written when it succeeds. -/
theorem createOrganizationWithOwner_ok {name slug : String} {userId : UUID} {inp : Input} {v : Db}
    {ws : List RowWrite} {org : Organization}
    (h : createOrganizationWithOwner uow name slug userId inp v = .ok (ws, org)) :
    org = ⟨inp.uuid, name, slug⟩ ∧ ∃ m : Membership, m.id = inp.secondUuid ∧ m.userId = userId ∧
      m.organizationId = org.id ∧ m.role = .owner ∧
        ws = [.insert .organizations org, .insert .memberships m] ∧
          vaultSchema.admitsInsert .organizations org v = true ∧
            vaultSchema.admitsInsert .memberships m
              (vaultSchema.apply (.insert .organizations org) v) = true := by
  simp only [createOrganizationWithOwner] at h
  split at h
  · cases h
  split at h
  · cases h
  split at h
  · cases h
  split at h
  · cases h
  split at h
  · cases h
  rename_i horg
  split at h
  · cases h
  split at h
  · cases h
  rename_i hmem
  simp only [Except.ok.injEq, Prod.mk.injEq] at h
  obtain ⟨rfl, rfl⟩ := h
  exact ⟨rfl, _, rfl, rfl, rfl, rfl, rfl, by simpa using horg, by simpa using hmem⟩

namespace OrganizationService

/-- The function in the database inserts the organization and the membership of its owner. -/
theorem comprises_createWithOwner (ho : .organizations ∈ ts) (hm : .memberships ∈ ts)
    (name slug : String) (userId : UUID) :
    (OrganizationRepository.createWithOwner uow name slug userId).Comprises (WritesTo ts) := by
  refine .bind (comprises_of_ok fun inp v ws org h => ?_) fun org => .bind (comprises_get _)
    fun found => by cases found <;> trivial
  obtain ⟨rfl, m, hid, -, -, -, rfl, hadm, hadm'⟩ := createOrganizationWithOwner_ok h
  refine ⟨⟨?_, by simp, fun hv _ => (hv.insert hadm).insert hadm'⟩, by simp [Write.table, ho, hm]⟩
  intro p hp
  simp only [Schema.inserted_insert, Schema.inserted_nil, List.mem_cons, List.not_mem_nil,
    or_false] at hp
  rcases hp with rfl | rfl <;> simp [Input.ids, rowId, hid]

theorem comprises_create (ho : .organizations ∈ ts) (hm : .memberships ∈ ts) (name slug : String)
    (userId : UUID) : (create uow name slug userId).Comprises (WritesTo ts) :=
  .bind (comprises_selectOne _) fun _ => .bind (comprises_raiseIf _ _ _) fun _ =>
    comprises_exceptIntegrityError
      (.bind (comprises_createWithOwner ho hm _ _ _) fun _ => .bind comprises_commit
        fun _ => trivial)
      (.bind comprises_rollback fun _ => trivial)

theorem comprises_get (org : UUID) : (get uow org).Comprises (WritesTo ts) :=
  .bind (UnitOfWork.comprises_get _) fun org => by cases org <;> trivial

/-- The query for a conflicting slug is made only for a slug that changes. -/
theorem comprises_update (ho : .organizations ∈ ts) (org actor : UUID)
    (name slug : Option String) : (update uow org actor name slug).Comprises (WritesTo ts) := by
  refine .bind (comprises_requireOrgRole _ _ _) fun _ => .bind (comprises_get _) fun found =>
    .bind ?_ fun _ => comprises_exceptIntegrityError (.bind ?_ fun _ => .bind comprises_commit
      fun _ => trivial) (.bind comprises_rollback fun _ => trivial)
  · split
    · trivial
    · split
      · exact .bind (comprises_selectOne _) fun _ => comprises_raiseIf _ _ _
      · trivial
  · split
    · exact comprises_updateFlushed ho
    · trivial

theorem comprises_delete (hts : ∀ t, t ∈ ts) (org actor : UUID) :
    (delete uow org actor).Comprises (WritesTo ts) :=
  .bind (comprises_requireOrgRole _ _ _) fun _ => .bind (comprises_get _) fun _ =>
    .bind (UnitOfWork.comprises_delete hts) fun _ => comprises_commit

end OrganizationService

namespace MembershipService

theorem comprises_list (org actor : UUID) : (list uow org actor).Comprises (WritesTo ts) :=
  .bind (comprises_requireOrgRole _ _ _) fun _ => .bind (comprises_select _) fun _ => trivial

theorem comprises_invite (hm : .memberships ∈ ts) (org : UUID) (email : String)
    (role : MembershipRole) (actor : UUID) :
    (invite uow org email role actor).Comprises (WritesTo ts) := by
  refine .bind (comprises_raiseIf _ _ _) fun _ => .bind (comprises_requireOrgRole _ _ _)
    fun _ => .bind (comprises_raiseIf _ _ _) fun _ => .bind (comprises_selectOne _) fun user => ?_
  cases user with
  | none => trivial
  | some user =>
    exact .bind (comprises_selectOne _) fun _ => .bind (comprises_raiseIf _ _ _) fun _ =>
      comprises_insertOrConflict hm fun _ => rfl

theorem comprises_getTarget (actor : Membership) (org id : UUID) :
    (getTarget uow actor org id).Comprises (WritesTo ts) := by
  refine .bind (comprises_get _) fun found => ?_
  cases found with
  | none => trivial
  | some found => exact .bind (comprises_raiseIf _ _ _) fun _ => trivial

/-- The owners are counted only when an owner is demoted. -/
theorem comprises_updateRole (hm : .memberships ∈ ts) (org id : UUID) (newRole : MembershipRole)
    (actor : UUID) : (updateRole uow org id newRole actor).Comprises (WritesTo ts) := by
  refine .bind (comprises_requireOrgRole _ _ _) fun _ => .bind (comprises_getTarget _ _ _)
    fun target => ?_
  split
  · trivial
  · refine .bind (comprises_raiseIf _ _ _) fun _ => .bind ?_ fun _ =>
      .bind (comprises_raiseIf _ _ _) fun _ => .bind (comprises_updateFlushed hm) fun _ =>
        .bind comprises_commit fun _ => trivial
    split
    · exact .bind (.bind (comprises_select _) fun _ => trivial) fun _ => comprises_raiseIf _ _ _
    · trivial

/-- A membership has no children. -/
theorem deleteRow_membership {id : UUID} {db : Db} {ws : List RowWrite}
    (h : vaultSchema.deleteRow .memberships id db = .ok ws) :
    ws = [] ∨ ws = [.delete .memberships id] := by
  rcases Schema.deleteRow_ok h with rfl | ⟨k, vs, rfl, hr⟩
  · exact Or.inl rfl
  · rw [show vaultSchema.events .memberships id = [] from rfl] at hr
    rw [Schema.drain_nil_ok hr]
    exact Or.inr rfl

/-- So the DELETE of a membership cascades nowhere. -/
theorem comprises_delete (hm : .memberships ∈ ts) (id : UUID) :
    (MembershipRepository.delete uow id).Comprises (WritesTo ts) := by
  refine comprises_of_ok fun inp v ws a h => ?_
  rcases UnitOfWork.deleteRow_ok h with rfl | h
  · exact writesTo_nil ts inp v
  · have hins := Schema.deleteRow_inserted h
    refine ⟨⟨by simp [hins], by simp [hins], fun hv _ => hv.deleteRow vaultSchema_clearsOk h⟩, ?_⟩
    rcases deleteRow_membership h with rfl | rfl
    · exact fun w hw => nomatch hw
    · exact fun w hw => List.mem_singleton.mp hw ▸ hm

theorem comprises_remove (hm : .memberships ∈ ts) (org id actor : UUID) :
    (remove uow org id actor).Comprises (WritesTo ts) := by
  refine .bind (comprises_requireOrgRole _ _ _) fun _ => .bind (comprises_getTarget _ _ _)
    fun target => .bind ?_ fun _ => .bind (comprises_delete hm _) fun _ => comprises_commit
  split
  · exact .bind (comprises_raiseIf _ _ _) fun _ => .bind (.bind (comprises_select _)
      fun _ => trivial) fun _ => comprises_raiseIf _ _ _
  · trivial

end MembershipService

namespace ProjectService

theorem comprises_lookup {notFound : ExnClass} (org id : UUID) :
    (lookup uow notFound org id).Comprises (WritesTo ts) := by
  refine .bind (comprises_get _) fun found => ?_
  split <;> trivial

theorem comprises_create (hp : .projects ∈ ts) (org : UUID) (name slug : String) (actor : UUID)
    (description : Option String) :
    (create uow org name slug actor description).Comprises (WritesTo ts) :=
  .bind (comprises_requireOrgRole _ _ _) fun _ => .bind (comprises_selectOne _) fun _ =>
    .bind (comprises_raiseIf _ _ _) fun _ => comprises_insertOrConflict hp fun _ => rfl

theorem comprises_list (org actor : UUID) : (list uow org actor).Comprises (WritesTo ts) :=
  .bind (comprises_requireOrgRole _ _ _) fun _ => .bind (comprises_select _) fun _ => trivial

theorem comprises_get (id org actor : UUID) : (get uow id org actor).Comprises (WritesTo ts) :=
  .bind (comprises_requireOrgRole _ _ _) fun _ => comprises_lookup _ _

theorem comprises_update (hp : .projects ∈ ts) (id org actor : UUID)
    (name slug description : Option String) :
    (update uow id org actor name slug description).Comprises (WritesTo ts) := by
  refine .bind (comprises_requireOrgRole _ _ _) fun _ =>
    .bind (comprises_requireOrgRoleAgain _ _ _ _) fun _ => .bind (comprises_lookup _ _)
      fun project => .bind ?_ fun _ => comprises_exceptIntegrityError (.bind ?_ fun _ =>
        .bind comprises_commit fun _ => trivial) (.bind comprises_rollback fun _ => trivial)
  · split
    · trivial
    · split
      · exact .bind (comprises_selectOne _) fun _ => comprises_raiseIf _ _ _
      · trivial
  · split
    · exact comprises_updateFlushed hp
    · trivial

theorem comprises_delete (hts : ∀ t, t ∈ ts) (id org actor : UUID) :
    (delete uow id org actor).Comprises (WritesTo ts) :=
  .bind (comprises_requireOrgRole _ _ _) fun _ =>
    .bind (comprises_requireOrgRoleAgain _ _ _ _) fun _ => .bind (comprises_lookup _ _) fun _ =>
      .bind (UnitOfWork.comprises_delete hts) fun _ => comprises_commit

end ProjectService

namespace EnvironmentService
variable {kms : LocalKMSProvider}

theorem comprises_getIn (org id : UUID) : (getIn uow org id).Comprises (WritesTo ts) := by
  refine .bind (comprises_get _) fun found => ?_
  cases found with
  | none => trivial
  | some found =>
    exact .bind (comprises_get _) fun _ => .bind (comprises_raiseIf _ _ _) fun _ => trivial

/-- The key of an environment is inserted after it, in the same transaction. -/
theorem comprises_create (he : .environments ∈ ts) (hk : .encryptionKeys ∈ ts) (project org : UUID)
    (name : String) (actor : UUID) :
    (create kms uow project org name actor).Comprises (WritesTo ts) :=
  .bind (comprises_requireOrgRole _ _ _) fun _ => .bind (ProjectService.comprises_lookup _ _)
    fun _ => .bind (comprises_selectOne _) fun _ => .bind (comprises_raiseIf _ _ _) fun _ =>
      .bind (comprises_insertFlushed he fun _ => rfl) fun _ => .bind comprises_readInput fun _ =>
        comprises_exceptIntegrityError
          (.bind (comprises_insertFlushed hk fun _ => rfl) fun _ => .bind comprises_commit
            fun _ => trivial)
          (.bind comprises_rollback fun _ => trivial)

theorem comprises_list (project org actor : UUID) :
    (list uow project org actor).Comprises (WritesTo ts) :=
  .bind (comprises_requireOrgRole _ _ _) fun _ => .bind (ProjectService.comprises_lookup _ _)
    fun _ => .bind (comprises_select _) fun _ => trivial

theorem comprises_get (id org actor : UUID) : (get uow id org actor).Comprises (WritesTo ts) :=
  .bind (comprises_requireOrgRole _ _ _) fun _ => comprises_getIn _ _

theorem comprises_delete (hts : ∀ t, t ∈ ts) (id org actor : UUID) :
    (delete uow id org actor).Comprises (WritesTo ts) :=
  .bind (comprises_requireOrgRole _ _ _) fun _ =>
    .bind (comprises_requireOrgRoleAgain _ _ _ _) fun _ => .bind (comprises_getIn _ _) fun _ =>
      .bind (UnitOfWork.comprises_delete hts) fun _ => comprises_commit

end EnvironmentService

theorem comprises_liftCrypto {α : Type} (r : Except CryptoError α) :
    (liftCrypto r).Comprises (WritesTo ts) := by cases r <;> trivial

namespace SecretService
variable {kms : LocalKMSProvider}

theorem comprises_getOwnedSecret (id org : UUID) :
    (getOwnedSecret uow id org).Comprises (WritesTo ts) := by
  refine .bind (comprises_get _) fun found => ?_
  split
  · trivial
  · exact .bind (.bind (EnvironmentService.comprises_getIn _ _) fun _ => trivial) fun _ => trivial

theorem comprises_activeKey (environment : UUID) :
    (activeKey uow environment).Comprises (WritesTo ts) :=
  .bind (comprises_selectOne _) fun key => by cases key <;> trivial

theorem comprises_encryptSecret (plainValue : String) (encKey : EncryptionKey) :
    (encryptSecret kms plainValue encKey).Comprises (WritesTo ts) :=
  .bind comprises_readInput fun _ => comprises_liftCrypto _

/-- The deferred checks of `current_version_id` write nothing. -/
theorem comprises_commitPointer (hs : .secrets ∈ ts) (secret version : UUID) :
    (commitPointer uow secret version).Comprises (WritesTo ts) := by
  refine .bind (comprises_updateFlushed hs) fun _ => .bind (comprises_of_ok fun inp v ws a h => ?_)
    fun _ => comprises_commit
  split at h
  · cases h
  · split at h
    · cases h
    · simp only [Except.ok.injEq, Prod.mk.injEq] at h
      obtain ⟨rfl, -⟩ := h
      exact writesTo_nil ts inp v

/-- The secret, its first version and the pointer from one to the other. -/
theorem comprises_createSecret (hs : .secrets ∈ ts) (hv : .secretVersions ∈ ts)
    (environment org : UUID) (keyName plainValue : String) (actor : UUID) :
    (createSecret kms uow environment org keyName plainValue actor).Comprises (WritesTo ts) :=
  .bind (comprises_requireOrgRole _ _ _) fun _ =>
    .bind (.bind (EnvironmentService.comprises_getIn _ _) fun _ => trivial) fun _ =>
      .bind (comprises_selectOne _) fun _ => .bind (comprises_raiseIf _ _ _) fun _ =>
        .bind (comprises_activeKey _) fun _ => .bind (comprises_encryptSecret _ _) fun _ =>
          .bind (comprises_insertFlushed hs fun _ => rfl) fun _ =>
            .bind (comprises_insertFlushed hv fun _ => rfl) fun _ =>
              .bind (comprises_commitPointer hs _ _) fun _ => trivial

theorem comprises_addNewVersion (hs : .secrets ∈ ts) (hv : .secretVersions ∈ ts)
    (secret org : UUID) (plainValue : String) (actor : UUID) :
    (addNewVersion kms uow secret org plainValue actor).Comprises (WritesTo ts) :=
  .bind (comprises_requireOrgRole _ _ _) fun _ => .bind (comprises_getOwnedSecret _ _) fun _ =>
    .bind (comprises_activeKey _) fun _ => .bind (comprises_encryptSecret _ _) fun _ =>
      .bind (.bind (comprises_select _) fun _ => trivial) fun _ =>
        .bind (comprises_raiseIf _ _ _) fun _ =>
          .bind (comprises_insertFlushed hv fun _ => rfl) fun _ =>
            .bind (comprises_commitPointer hs _ _) fun _ => trivial

theorem comprises_listSecrets (environment org actor : UUID) :
    (listSecrets uow environment org actor).Comprises (WritesTo ts) :=
  .bind (comprises_requireOrgRole _ _ _) fun _ =>
    .bind (.bind (EnvironmentService.comprises_getIn _ _) fun _ => trivial) fun _ =>
      .bind (comprises_select _) fun _ => trivial

/-- A reveal writes its audit entry. -/
theorem comprises_getDecryptedValue (ha : .auditLogs ∈ ts) (secret org actor : UUID) :
    (getDecryptedValue kms uow secret org actor).Comprises (WritesTo ts) := by
  refine .bind (comprises_requireOrgRole _ _ _) fun _ => .bind (comprises_getOwnedSecret _ _)
    fun secret => ?_
  split
  · trivial
  · refine .bind (comprises_get _) fun version => ?_
    cases version with
    | none => trivial
    | some version =>
      refine .bind (comprises_get _) fun key => ?_
      cases key with
      | none => trivial
      | some key =>
        exact .bind (comprises_liftCrypto _) fun _ =>
          .bind (.bind (comprises_insertFlushed ha fun _ => rfl) fun _ => trivial) fun _ =>
            .bind comprises_commit fun _ => trivial

theorem comprises_deleteSecret (hs : .secrets ∈ ts) (secret org actor : UUID) :
    (deleteSecret uow secret org actor).Comprises (WritesTo ts) :=
  .bind (comprises_requireOrgRole _ _ _) fun _ => .bind (comprises_getOwnedSecret _ _) fun _ =>
    .bind (.bind (comprises_updateById hs) fun _ => trivial) fun _ => comprises_commit

end SecretService

theorem AuditService.comprises_listForOrganization (org actor : UUID) (limit offset : ℕ) :
    (listForOrganization uow org actor limit offset).Comprises (WritesTo ts) :=
  .bind (comprises_requireOrgRole _ _ _) fun _ => .bind (comprises_select _) fun _ => trivial

end

variable {d : Deployment} {uow : UnitOfWork}

/-- The reply of a call is its result under another name. -/
theorem comprises_map {α β : Type} {ts : List Table} {p : Tx α} {f : α → β}
    (h : p.Comprises (WritesTo ts)) : (f <$> p).Comprises (WritesTo ts) :=
  .bind h fun _ => trivial

/-- Every statement of a call is lawful and writes to the tables of its method. -/
theorem Op.comprises (op : Op) : (op.program d uow).Comprises (WritesTo op.tables) := by
  cases op <;> refine comprises_map ?_
  case register => exact AuthService.comprises_register (by simp [tables]) _ _ _
  case login => exact AuthService.comprises_login (by simp [tables]) _ _
  case refresh => exact AuthService.comprises_refresh (by simp [tables]) _
  case logout => exact AuthService.comprises_logout (by simp [tables]) _
  case logoutAll => exact AuthService.comprises_logoutAll (by simp [tables]) _
  case createOrganization =>
    exact OrganizationService.comprises_create (by simp [tables]) (by simp [tables]) _ _ _
  case listOrganizations => exact .bind (UnitOfWork.comprises_select _) fun _ => trivial
  case getOrganization => exact OrganizationService.comprises_get _
  case updateOrganization => exact OrganizationService.comprises_update (by simp [tables]) _ _ _ _
  case deleteOrganization => exact OrganizationService.comprises_delete mem_allTables _ _
  case listMemberships => exact MembershipService.comprises_list _ _
  case invite => exact MembershipService.comprises_invite (by simp [tables]) _ _ _ _
  case updateRole => exact MembershipService.comprises_updateRole (by simp [tables]) _ _ _ _
  case removeMembership => exact MembershipService.comprises_remove (by simp [tables]) _ _ _
  case createProject => exact ProjectService.comprises_create (by simp [tables]) _ _ _ _ _
  case listProjects => exact ProjectService.comprises_list _ _
  case getProject => exact ProjectService.comprises_get _ _ _
  case updateProject => exact ProjectService.comprises_update (by simp [tables]) _ _ _ _ _ _
  case deleteProject => exact ProjectService.comprises_delete mem_allTables _ _ _
  case createEnvironment =>
    exact EnvironmentService.comprises_create (by simp [tables]) (by simp [tables]) _ _ _ _
  case listEnvironments => exact EnvironmentService.comprises_list _ _ _
  case getEnvironment => exact EnvironmentService.comprises_get _ _ _
  case deleteEnvironment => exact EnvironmentService.comprises_delete mem_allTables _ _ _
  case createSecret =>
    exact SecretService.comprises_createSecret (by simp [tables]) (by simp [tables]) _ _ _ _ _
  case addNewVersion =>
    exact SecretService.comprises_addNewVersion (by simp [tables]) (by simp [tables]) _ _ _ _
  case listSecrets => exact SecretService.comprises_listSecrets _ _ _
  case getDecryptedValue => exact SecretService.comprises_getDecryptedValue (by simp [tables]) _ _ _
  case deleteSecret => exact SecretService.comprises_deleteSecret (by simp [tables]) _ _ _
  case listAuditLogs => exact AuditService.comprises_listForOrganization _ _ _ _

/-- No call introduces a key that its input does not supply, or spoils a valid view. -/
theorem ServiceCall.lawful (c : ServiceCall) : vaultSchema.Lawful Input.ids (c.program d) :=
  c.op.comprises.mono fun _ h inp v => (h inp v).1

/-- The keys of a fresh input are not among those of the inputs before it. -/
theorem freshInput_ids {past : List Input} {inp : Input} (h : freshInput past inp = true) :
    ∀ x ∈ inp.ids, ∀ q ∈ past, x ∉ q.ids := by
  simp only [freshInput, Bool.and_eq_true, List.all_eq_true, decide_eq_true_eq] at h
  intro x hx q hq
  have hne := h.2 q hq
  simp only [Input.ids, List.mem_cons, List.not_mem_nil, or_false] at hx
  rcases hx with rfl | rfl
  · exact hne.1
  · exact hne.2

end EnvVault
