import EnvVault.CommitOnce
import EnvVault.StatementRules

/-!
# The shape of the service calls

Every method has one COMMIT, after which only the two `set_config` and the reading of
the clock are left; only `refresh` also raises by design after it.
-/
namespace EnvVault
open EnvVault.Relational EnvVault.Transactions

/-- A method that commits exactly once when it returns, and never raises afterwards. -/
def CommitsToReturn {α : Type} (p : Tx α) : Prop := p.CommitsLast (fun _ => False) fun _ => False

section
variable {uow : UnitOfWork} {t : Table} {α β : Type} {A : Exn → Prop} {B : α → Prop}

theorem preliminary_updateFlushed (id : UUID) (set : RowOf t → RowOf t) :
    (uow.updateFlushed t id set).Preliminary :=
  .bind (Prog.preliminary_statement _) fun _ => (reads_raiseIf _ _ _).preliminary

theorem preliminary_updateEach {cond : RowOf t → Bool} {set : Input → RowOf t → RowOf t}
    (ids : List UUID) : (uow.updateEach t cond set ids).Preliminary := by
  induction ids with
  | nil => trivial
  | cons id ids ih => exact .bind (Prog.preliminary_statement _) fun _ => ih

theorem preliminary_updateWhere {cond : RowOf t → Bool} {set : Input → RowOf t → RowOf t} :
    (uow.updateWhere t cond set).Preliminary :=
  .bind (reads_select _ _).preliminary fun _ => preliminary_updateEach _

/-- A query whose rows are sorted, or cut, before they are returned. -/
theorem preliminary_listed {cond : RowOf t → Bool} {f : List (RowOf t) → List (RowOf t)} :
    (do let rows ← uow.select t cond
        return f rows : Tx (List (RowOf t))).Preliminary :=
  .bind (reads_select _ _).preliminary fun _ => trivial

theorem preliminary_revoke (id : UUID) : (RefreshTokenRepository.revoke uow id).Preliminary :=
  .bind (Prog.preliminary_statement _) fun _ => trivial

theorem settled_readInput : readInput.Settled A :=
  Prog.settled_statement fun inp _ => ⟨([], inp), rfl⟩

theorem settled_setRlsContext : UnitOfWork.setRlsContext.Settled A :=
  .bind (Prog.settled_statement fun _ _ => ⟨_, rfl⟩) fun _ =>
    Prog.settled_statement fun _ _ => ⟨_, rfl⟩

/-- A COMMIT and what follows it. -/
theorem commitsLast_commit_bind {k : Unit → Tx α} (hk : (k ()).Settled A) :
    (UnitOfWork.commit.bind k).CommitsLast A B := by
  rw [UnitOfWork.commit_bind]
  exact Prog.commitsLast_commitNow_bind (settled_setRlsContext.bind fun _ => hk)

theorem commitsLast_commit {B : Unit → Prop} : UnitOfWork.commit.CommitsLast A B := by
  rw [← Prog.bind_ret UnitOfWork.commit]
  exact commitsLast_commit_bind trivial

theorem commitsLast_exceptIntegrityError {body : Tx α} {exn : Exn}
    (hb : body.CommitsLast (fun _ => False) B) :
    (exceptIntegrityError body (do UnitOfWork.rollback; throw exn)).CommitsLast A B := by
  refine Prog.CommitsLast.handle hb fun e => ?_
  split <;> trivial

/-- An INSERT and its COMMIT, with the handler. -/
theorem commitsLast_insertOrConflict {row : Input → RowOf t} {exn : Exn} {B : RowOf t → Prop} :
    (exceptIntegrityError
      (do let r ← uow.insertFlushed t row
          UnitOfWork.commit
          return r)
      (do UnitOfWork.rollback
          throw exn)).CommitsLast A B :=
  commitsLast_exceptIntegrityError ((Prog.preliminary_statement _).bind_commitsLast fun _ =>
    commitsLast_commit_bind trivial)

end

section
variable {uow : UnitOfWork} {d : Deployment} {o u : UUID}
open Prog

namespace AuthService

theorem commitsToReturn_register (email password : String) (fullName : Option String) :
    CommitsToReturn (register d.security uow email password fullName) :=
  (reads_selectOne _ _).preliminary.bind_commitsLast fun _ =>
    (reads_raiseIf _ _ _).preliminary.bind_commitsLast fun _ =>
      commitsLast_insertOrConflict (t := .users)

theorem commitsToReturn_issueTokenPair (userId : UUID) :
    CommitsToReturn (issueTokenPair d.security uow userId) :=
  reads_readInput.preliminary.bind_commitsLast fun _ =>
    (preliminary_statement _).bind_commitsLast fun _ =>
      commitsLast_commit_bind (settled_readInput.bind fun _ => trivial)

theorem commitsToReturn_login (email password : String) :
    CommitsToReturn (login d.security uow email password) := by
  refine (reads_selectOne _ _).preliminary.bind_commitsLast fun user => ?_
  refine (reads_raiseIf _ _ _).preliminary.bind_commitsLast fun _ => ?_
  cases user with
  | none => trivial
  | some user =>
    exact (reads_raiseIf _ _ _).preliminary.bind_commitsLast fun _ =>
      (commitsToReturn_issueTokenPair _).bind fun _ => trivial

/-- The rotation of a refresh token. -/
theorem commitsToReturn_rotate (id : UUID) (user : User) :
    CommitsToReturn (do
      RefreshTokenRepository.revoke uow id
      let tokens ← issueTokenPair d.security uow user.id
      return (⟨user, tokens.1, tokens.2⟩ : TokenPair)) :=
  (preliminary_revoke _).bind_commitsLast fun _ =>
    (commitsToReturn_issueTokenPair _).bind fun _ => trivial

/-- What `refresh` raises after it has revoked. -/
def Refused (e : Exn) : Prop := e.cls = .invalidRefreshTokenError

/-- A refused refresh has committed its revocations. -/
theorem commitsLast_refresh (raw : String) :
    (refresh d.security uow raw).CommitsLast Refused fun _ => False := by
  refine (reads_selectOne _ _).preliminary.bind_commitsLast fun stored => ?_
  cases stored with
  | none => trivial
  | some stored =>
    dsimp only
    split
    · exact preliminary_updateWhere.bind_commitsLast fun _ => commitsLast_commit_bind rfl
    refine reads_readInput.preliminary.bind_commitsLast fun clock => ?_
    split
    · exact (preliminary_revoke _).bind_commitsLast fun _ => commitsLast_commit_bind rfl
    refine (reads_get _ _).preliminary.bind_commitsLast fun user => ?_
    split
    · exact preliminary_updateWhere.bind_commitsLast fun _ => commitsLast_commit_bind rfl
    · exact (commitsToReturn_rotate _ _).mono (fun _ => False.elim) fun _ => id

theorem commitsLast_logout {A : Exn → Prop} (raw : String) :
    (logout d.security uow raw).CommitsLast A fun _ => True := by
  refine (reads_selectOne _ _).preliminary.bind_commitsLast fun stored => ?_
  split
  · trivial
  · exact (preliminary_revoke _).bind_commitsLast fun _ => commitsLast_commit

theorem commitsToReturn_logoutAll (userId : UUID) : CommitsToReturn (logoutAll uow userId) :=
  preliminary_updateWhere.bind_commitsLast fun _ => commitsLast_commit

end AuthService

namespace OrganizationService

theorem preliminary_createWithOwner (name slug : String) (userId : UUID) :
    (OrganizationRepository.createWithOwner uow name slug userId).Preliminary := by
  refine .bind (preliminary_statement _) fun row => .bind (reads_get _ _).preliminary fun org => ?_
  cases org <;> trivial

theorem commitsToReturn_create (name slug : String) (userId : UUID) :
    CommitsToReturn (create uow name slug userId) := by
  refine (reads_selectOne _ _).preliminary.bind_commitsLast fun _ => ?_
  refine (reads_raiseIf _ _ _).preliminary.bind_commitsLast fun _ => ?_
  refine commitsLast_exceptIntegrityError ?_
  exact (preliminary_createWithOwner _ _ _).bind_commitsLast fun _ =>
    commitsLast_commit_bind trivial

theorem commitsToReturn_update (name slug : Option String) :
    CommitsToReturn (update uow o u name slug) := by
  refine (reads_requireOrgRole _ _ _).preliminary.bind_commitsLast fun _ => ?_
  refine (reads_getOrganization _).preliminary.bind_commitsLast fun org => ?_
  refine Preliminary.bind_commitsLast ?_ fun _ => ?_
  · split
    · trivial
    · split
      · exact (reads_selectOne _ _).preliminary.bind fun _ => (reads_raiseIf _ _ _).preliminary
      · trivial
  · refine commitsLast_exceptIntegrityError (Preliminary.bind_commitsLast ?_ fun _ =>
      commitsLast_commit_bind trivial)
    split
    · exact preliminary_updateFlushed _ _
    · trivial

theorem commitsToReturn_delete : CommitsToReturn (delete uow o u) :=
  (reads_requireOrgRole _ _ _).preliminary.bind_commitsLast fun _ =>
    (reads_getOrganization _).preliminary.bind_commitsLast fun _ =>
      (preliminary_statement _).bind_commitsLast fun _ => commitsLast_commit

end OrganizationService

namespace MembershipService

theorem commitsToReturn_invite (email : String) (role : MembershipRole) :
    CommitsToReturn (invite uow o email role u) := by
  refine (reads_raiseIf _ _ _).preliminary.bind_commitsLast fun _ => ?_
  refine (reads_requireOrgRole _ _ _).preliminary.bind_commitsLast fun actor => ?_
  refine (reads_raiseIf _ _ _).preliminary.bind_commitsLast fun _ => ?_
  refine (reads_selectOne _ _).preliminary.bind_commitsLast fun user => ?_
  cases user with
  | none => trivial
  | some user =>
    refine (reads_selectOne _ _).preliminary.bind_commitsLast fun _ => ?_
    exact (reads_raiseIf _ _ _).preliminary.bind_commitsLast fun _ =>
      commitsLast_insertOrConflict (t := .memberships)

/-- Setting the role that the membership has commits nothing. -/
theorem commitsLast_updateRole {A : Exn → Prop} (id : UUID) (newRole : MembershipRole) :
    (updateRole uow o id newRole u).CommitsLast A fun _ => True := by
  refine (reads_requireOrgRole _ _ _).preliminary.bind_commitsLast fun actor => ?_
  refine (reads_getTarget _ _ _).preliminary.bind_commitsLast fun m => ?_
  split
  · trivial
  refine (reads_raiseIf _ _ _).preliminary.bind_commitsLast fun _ => ?_
  refine Preliminary.bind_commitsLast ?_ fun _ => ?_
  · split
    · exact (reads_countOwners _).preliminary.bind fun _ => (reads_raiseIf _ _ _).preliminary
    · trivial
  refine (reads_raiseIf _ _ _).preliminary.bind_commitsLast fun _ => ?_
  exact (preliminary_updateFlushed _ _).bind_commitsLast fun _ => commitsLast_commit_bind trivial

theorem commitsToReturn_remove (id : UUID) : CommitsToReturn (remove uow o id u) := by
  refine (reads_requireOrgRole _ _ _).preliminary.bind_commitsLast fun actor => ?_
  refine (reads_getTarget _ _ _).preliminary.bind_commitsLast fun m => ?_
  refine Preliminary.bind_commitsLast ?_ fun _ => ?_
  · split
    · exact (reads_raiseIf _ _ _).preliminary.bind fun _ =>
        (reads_countOwners _).preliminary.bind fun _ => (reads_raiseIf _ _ _).preliminary
    · trivial
  · exact (preliminary_statement _).bind_commitsLast fun _ => commitsLast_commit

end MembershipService

namespace ProjectService

theorem commitsToReturn_create (name slug : String) (description : Option String) :
    CommitsToReturn (create uow o name slug u description) := by
  refine (reads_requireOrgRole _ _ _).preliminary.bind_commitsLast fun _ => ?_
  refine (reads_selectOne _ _).preliminary.bind_commitsLast fun _ => ?_
  exact (reads_raiseIf _ _ _).preliminary.bind_commitsLast fun _ =>
    commitsLast_insertOrConflict (t := .projects)

theorem commitsToReturn_update (id : UUID) (name slug description : Option String) :
    CommitsToReturn (update uow id o u name slug description) := by
  refine (reads_requireOrgRole _ _ _).preliminary.bind_commitsLast fun actor => ?_
  refine (reads_requireOrgRoleAgain _ _ _ _).preliminary.bind_commitsLast fun _ => ?_
  refine (reads_lookup _ _).preliminary.bind_commitsLast fun project => ?_
  refine Preliminary.bind_commitsLast ?_ fun _ => ?_
  · split
    · trivial
    · split
      · exact (reads_selectOne _ _).preliminary.bind fun _ => (reads_raiseIf _ _ _).preliminary
      · trivial
  · refine commitsLast_exceptIntegrityError (Preliminary.bind_commitsLast ?_ fun _ =>
      commitsLast_commit_bind trivial)
    split
    · exact preliminary_updateFlushed _ _
    · trivial

theorem commitsToReturn_delete (id : UUID) : CommitsToReturn (delete uow id o u) :=
  (reads_requireOrgRole _ _ _).preliminary.bind_commitsLast fun _ =>
    (reads_requireOrgRoleAgain _ _ _ _).preliminary.bind_commitsLast fun _ =>
      (reads_lookup _ _).preliminary.bind_commitsLast fun _ =>
        (preliminary_statement _).bind_commitsLast fun _ => commitsLast_commit

end ProjectService

namespace EnvironmentService

theorem commitsToReturn_create (project : UUID) (name : String) :
    CommitsToReturn (create d.kms uow project o name u) := by
  refine (reads_requireOrgRole _ _ _).preliminary.bind_commitsLast fun _ => ?_
  refine (ProjectService.reads_lookup _ _).preliminary.bind_commitsLast fun _ => ?_
  refine (reads_selectOne _ _).preliminary.bind_commitsLast fun _ => ?_
  refine (reads_raiseIf _ _ _).preliminary.bind_commitsLast fun _ => ?_
  refine (preliminary_statement _).bind_commitsLast fun _ => ?_
  refine reads_readInput.preliminary.bind_commitsLast fun _ => ?_
  exact commitsLast_exceptIntegrityError ((preliminary_statement _).bind_commitsLast fun _ =>
    commitsLast_commit_bind trivial)

theorem commitsToReturn_delete (id : UUID) : CommitsToReturn (delete uow id o u) :=
  (reads_requireOrgRole _ _ _).preliminary.bind_commitsLast fun _ =>
    (reads_requireOrgRoleAgain _ _ _ _).preliminary.bind_commitsLast fun _ =>
      (reads_getIn _ _).preliminary.bind_commitsLast fun _ =>
        (preliminary_statement _).bind_commitsLast fun _ => commitsLast_commit

end EnvironmentService

namespace SecretService

theorem preliminary_getOwnedSecret (id : UUID) : (getOwnedSecret uow id o).Preliminary := by
  refine (reads_get _ _).preliminary.bind fun secret => ?_
  split
  · trivial
  · exact (reads_resolveEnvironmentOrg _ _).preliminary.bind fun _ => trivial

theorem preliminary_activeKey (environment : UUID) : (activeKey uow environment).Preliminary := by
  refine (reads_selectOne _ _).preliminary.bind fun key => ?_
  cases key <;> trivial

/-- The UPDATE of the pointer belongs to the same transaction. -/
theorem commitsLast_commitPointer_bind {α : Type} {B : α → Prop} {A : Exn → Prop}
    (secretId versionId : UUID) {k : Unit → Tx α} (hk : (k ()).Settled A) :
    ((commitPointer uow secretId versionId).bind k).CommitsLast A B := by
  simp only [commitPointer, Prog.bind_eq, Prog.bind_assoc]
  exact (preliminary_updateFlushed _ _).bind_commitsLast fun _ =>
    (reads_checkCurrentVersion _ _).preliminary.bind_commitsLast fun _ => commitsLast_commit_bind hk

theorem commitsToReturn_createSecret (environment : UUID) (keyName plainValue : String) :
    CommitsToReturn (createSecret d.kms uow environment o keyName plainValue u) := by
  refine (reads_requireOrgRole _ _ _).preliminary.bind_commitsLast fun _ => ?_
  refine (reads_resolveEnvironmentOrg _ _).preliminary.bind_commitsLast fun _ => ?_
  refine (reads_selectOne _ _).preliminary.bind_commitsLast fun _ => ?_
  refine (reads_raiseIf _ _ _).preliminary.bind_commitsLast fun _ => ?_
  refine (preliminary_activeKey _).bind_commitsLast fun key => ?_
  refine (reads_encryptSecret plainValue key).preliminary.bind_commitsLast fun _ => ?_
  refine (preliminary_statement _).bind_commitsLast fun secret => ?_
  exact (preliminary_statement _).bind_commitsLast fun version =>
    commitsLast_commitPointer_bind _ _ trivial

theorem commitsToReturn_addNewVersion (secretId : UUID) (plainValue : String) :
    CommitsToReturn (addNewVersion d.kms uow secretId o plainValue u) := by
  refine (reads_requireOrgRole _ _ _).preliminary.bind_commitsLast fun _ => ?_
  refine (preliminary_getOwnedSecret _).bind_commitsLast fun secret => ?_
  refine (preliminary_activeKey _).bind_commitsLast fun key => ?_
  refine (reads_encryptSecret plainValue key).preliminary.bind_commitsLast fun _ => ?_
  refine Preliminary.bind_commitsLast ?_ fun latest => ?_
  · exact (reads_select _ _).preliminary.bind fun _ => trivial
  refine (reads_raiseIf _ _ _).preliminary.bind_commitsLast fun _ => ?_
  exact (preliminary_statement _).bind_commitsLast fun version =>
    commitsLast_commitPointer_bind _ _ trivial

theorem commitsToReturn_getDecryptedValue (secretId : UUID) :
    CommitsToReturn (getDecryptedValue d.kms uow secretId o u) := by
  refine (reads_requireOrgRole _ _ _).preliminary.bind_commitsLast fun _ => ?_
  refine (preliminary_getOwnedSecret _).bind_commitsLast fun secret => ?_
  split
  · trivial
  refine (reads_get _ _).preliminary.bind_commitsLast fun version => ?_
  cases version with
  | none => trivial
  | some version =>
    refine (reads_get _ _).preliminary.bind_commitsLast fun key => ?_
    cases key with
    | none => trivial
    | some key =>
      refine (reads_liftCrypto _).preliminary.bind_commitsLast fun plainValue => ?_
      refine Preliminary.bind_commitsLast ?_ fun _ => commitsLast_commit_bind trivial
      exact (preliminary_statement _).bind fun _ => trivial

theorem commitsToReturn_deleteSecret (secretId : UUID) :
    CommitsToReturn (deleteSecret uow secretId o u) := by
  refine (reads_requireOrgRole _ _ _).preliminary.bind_commitsLast fun _ => ?_
  refine (preliminary_getOwnedSecret _).bind_commitsLast fun secret => ?_
  refine Preliminary.bind_commitsLast ?_ fun _ => commitsLast_commit
  exact (preliminary_statement _).bind fun _ => trivial

end SecretService

namespace Op

/-- The calls that only query. -/
theorem commitsLast_of_preliminary {α β : Type} {p : Tx α} {g : α → β} {A : Exn → Prop}
    (hp : p.Preliminary) : (g <$> p).CommitsLast A fun _ => True :=
  .map (hp.commitsLast fun _ => trivial)

theorem commitsLast_of_toReturn {α β : Type} {p : Tx α} {g : α → β} {A : Exn → Prop}
    (hp : CommitsToReturn p) : (g <$> p).CommitsLast A fun _ => True :=
  .map (hp.mono (fun _ => False.elim) fun _ => False.elim)

/-- Every call but a refresh raises nothing after its COMMIT. -/
theorem commitsLast_of_ne (op : Op) (h : ∀ raw, op ≠ .refresh raw) :
    (op.program d uow).CommitsLast (fun _ => False) fun _ => True := by
  cases op with
  | register => exact commitsLast_of_toReturn (AuthService.commitsToReturn_register _ _ _)
  | login => exact commitsLast_of_toReturn (AuthService.commitsToReturn_login _ _)
  | refresh raw => exact absurd rfl (h raw)
  | logout => exact .map (AuthService.commitsLast_logout _)
  | logoutAll => exact commitsLast_of_toReturn (AuthService.commitsToReturn_logoutAll _)
  | createOrganization =>
    exact commitsLast_of_toReturn (OrganizationService.commitsToReturn_create _ _ _)
  | listOrganizations => exact commitsLast_of_preliminary (preliminary_listed (t := .organizations))
  | getOrganization =>
    exact commitsLast_of_preliminary (OrganizationService.reads_getOrganization _).preliminary
  | updateOrganization =>
    exact commitsLast_of_toReturn (OrganizationService.commitsToReturn_update _ _)
  | deleteOrganization => exact commitsLast_of_toReturn OrganizationService.commitsToReturn_delete
  | listMemberships =>
    exact commitsLast_of_preliminary ((reads_requireOrgRole _ _ _).preliminary.bind fun _ =>
      preliminary_listed (t := .memberships))
  | invite => exact commitsLast_of_toReturn (MembershipService.commitsToReturn_invite _ _)
  | updateRole => exact .map (MembershipService.commitsLast_updateRole _ _)
  | removeMembership => exact commitsLast_of_toReturn (MembershipService.commitsToReturn_remove _)
  | createProject => exact commitsLast_of_toReturn (ProjectService.commitsToReturn_create _ _ _)
  | listProjects =>
    exact commitsLast_of_preliminary ((reads_requireOrgRole _ _ _).preliminary.bind fun _ =>
      preliminary_listed (t := .projects))
  | getProject =>
    exact commitsLast_of_preliminary ((reads_requireOrgRole _ _ _).preliminary.bind fun _ =>
      (ProjectService.reads_lookup _ _).preliminary)
  | updateProject => exact commitsLast_of_toReturn (ProjectService.commitsToReturn_update _ _ _ _)
  | deleteProject => exact commitsLast_of_toReturn (ProjectService.commitsToReturn_delete _)
  | createEnvironment =>
    exact commitsLast_of_toReturn (EnvironmentService.commitsToReturn_create _ _)
  | listEnvironments =>
    exact commitsLast_of_preliminary ((reads_requireOrgRole _ _ _).preliminary.bind fun _ =>
      (ProjectService.reads_lookup _ _).preliminary.bind fun _ =>
        preliminary_listed (t := .environments))
  | getEnvironment =>
    exact commitsLast_of_preliminary ((reads_requireOrgRole _ _ _).preliminary.bind fun _ =>
      (EnvironmentService.reads_getIn _ _).preliminary)
  | deleteEnvironment => exact commitsLast_of_toReturn (EnvironmentService.commitsToReturn_delete _)
  | createSecret => exact commitsLast_of_toReturn (SecretService.commitsToReturn_createSecret _ _ _)
  | addNewVersion => exact commitsLast_of_toReturn (SecretService.commitsToReturn_addNewVersion _ _)
  | listSecrets =>
    exact commitsLast_of_preliminary ((reads_requireOrgRole _ _ _).preliminary.bind fun _ =>
      (SecretService.reads_resolveEnvironmentOrg _ _).preliminary.bind fun _ =>
        preliminary_listed (t := .secrets))
  | getDecryptedValue =>
    exact commitsLast_of_toReturn (SecretService.commitsToReturn_getDecryptedValue _)
  | deleteSecret => exact commitsLast_of_toReturn (SecretService.commitsToReturn_deleteSecret _)
  | listAuditLogs =>
    exact commitsLast_of_preliminary ((reads_requireOrgRole _ _ _).preliminary.bind fun _ =>
      preliminary_listed (t := .auditLogs))

/-- What the method raises by design after its COMMIT. -/
def RaisesCommitted (op : Op) (e : Exn) : Prop := (∃ raw, op = .refresh raw) ∧ AuthService.Refused e

/-- Every call commits at most once, as the last thing but for preparing its result. -/
theorem commitsLast (op : Op) :
    (op.program d uow).CommitsLast op.RaisesCommitted fun _ => True := by
  by_cases h : ∃ raw, op = .refresh raw
  · obtain ⟨raw, rfl⟩ := h
    exact .map ((AuthService.commitsLast_refresh _).mono (fun _ he => ⟨⟨raw, rfl⟩, he⟩)
      fun _ => False.elim)
  · have hne : ∀ raw, op ≠ .refresh raw := fun raw hop => h ⟨raw, hop⟩
    exact (op.commitsLast_of_ne hne).mono (fun _ => False.elim) fun _ => id

end Op

end

end EnvVault
