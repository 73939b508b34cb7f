import EnvVault.Calls
import EnvVault.EscapeAnalysis

/-!
# The exceptions of the service operations

For each operation the classes of the service modules that it can raise when no
statement of it is made to fail: the union over the branches of what it calls.
-/
namespace EnvVault
open EnvVault.Relational EnvVault.Transactions

/-- What an exception of the services tells the client. -/
inductive FailureKind : Type
  | alreadyExists
  | notFound
  | forbidden
  | credentials
  | invalidRole

/-- The status codes of `exception_handlers.py`. -/
def FailureKind.status : FailureKind → ℕ
  | alreadyExists => 409
  | notFound => 404
  | forbidden => 403
  | credentials => 401
  | invalidRole => 422

/-- The classes that the service modules define. -/
def ExnClass.kind : ExnClass → Option FailureKind
  | emailAlreadyRegisteredError => some .alreadyExists
  | organizationAlreadyExistsError => some .alreadyExists
  | membershipAlreadyExistsError => some .alreadyExists
  | projectAlreadyExistsError => some .alreadyExists
  | environmentAlreadyExistsError => some .alreadyExists
  | secretAlreadyExistsError => some .alreadyExists
  | organizationNotFoundError => some .notFound
  | membershipNotFoundError => some .notFound
  | userNotFoundError => some .notFound
  | projectNotFoundError => some .notFound
  | environmentProjectNotFoundError => some .notFound
  | environmentNotFoundError => some .notFound
  | secretNotFoundError => some .notFound
  | encryptionKeyNotFoundError => some .notFound
  | insufficientRoleError => some .forbidden
  | membershipRequiredError => some .forbidden
  | lastOwnerError => some .forbidden
  | inactiveUserError => some .forbidden
  | invalidCredentialsError => some .credentials
  | invalidRefreshTokenError => some .credentials
  | invalidMembershipRoleError => some .invalidRole
  | _ => none

/-- Of the classes of the services the program raises only these. -/
def Raises {α : Type} (cs : List ExnClass) (p : Tx α) : Prop :=
  p.Escapes fun e => e.cls.kind.isSome → e.cls ∈ cs

section
variable {cs : List ExnClass} {α : Type} {uow : UnitOfWork} {t : Table}

theorem raises_throw {cls : ExnClass} {detail : String} (h : cls ∈ cs) :
    Raises cs (.raise ⟨cls, detail⟩ : Tx α) := fun _ => h

/-- An exception of another origin. -/
theorem raises_foreign {e : Exn} (h : e.cls.kind = none) : Raises cs (.raise e : Tx α) := by
  intro hsome
  rw [h] at hsome
  cases hsome

/-- A statement of the database, whose errors are not those of the services. -/
theorem raises_statement {f : Input → Db → Except Exn (List RowWrite × α)}
    (h : ∀ inp v e, f inp v = .error e → e.cls.kind = none) : Raises cs (Prog.statement f) := by
  refine .statement fun inp v e he hsome => ?_
  rw [h inp v e he] at hsome
  cases hsome

theorem raises_raiseIf {cond : Bool} {cls : ExnClass} {detail : String} (h : cls ∈ cs) :
    Raises cs (raiseIf cond cls detail) := by
  unfold raiseIf
  split
  · exact raises_throw h
  · trivial

theorem raises_readInput : Raises cs readInput := raises_statement fun _ _ _ he => nomatch he

theorem raises_liftCrypto (r : Except CryptoError α) : Raises cs (liftCrypto r) := by
  cases r with
  | ok a => trivial
  | error e => cases e <;> exact raises_foreign rfl

/-- The handler answers a violated constraint; any other exception goes on. -/
theorem raises_exceptIntegrityError {body handler : Tx α} (hb : Raises cs body)
    (hh : Raises cs handler) : Raises cs (exceptIntegrityError body handler) := by
  refine .handle hb fun e he => ?_
  split
  · exact hh
  · exact he

namespace UnitOfWork

theorem raises_select (cond : RowOf t → Bool) : Raises cs (uow.select t cond) :=
  raises_statement fun _ _ _ he => nomatch he

theorem raises_selectOne (cond : RowOf t → Bool) : Raises cs (uow.selectOne t cond) := by
  refine .bind (raises_select cond) fun rows => ?_
  unfold scalarOneOrNone
  split
  · trivial
  · trivial
  · exact raises_foreign rfl

theorem raises_get (id : UUID) : Raises cs (uow.get t id) := raises_selectOne _

/-- A policy or a constraint refuses the row. -/
theorem insertRow_error {r : RowOf t} {v : Db} {e : Exn} (h : uow.insertRow t r v = .error e) :
    e.cls.kind = none := by
  simp only [insertRow] at h
  split at h
  · exact Except.error.inj h ▸ rfl
  · split at h
    · exact Except.error.inj h ▸ rfl
    · cases h

theorem updateRow_error {id : UUID} {cond : RowOf t → Bool} {set : RowOf t → RowOf t} {v : Db}
    {e : Exn} (h : uow.updateRow t id cond set v = .error e) : e.cls.kind = none := by
  simp only [updateRow] at h
  split at h
  · cases h
  · split at h
    · exact Except.error.inj h ▸ rfl
    · split at h
      · exact Except.error.inj h ▸ rfl
      · split at h
        · exact Except.error.inj h ▸ rfl
        · cases h

theorem deleteRow_error {id : UUID} {v : Db} {e : Exn} (h : uow.deleteRow t id v = .error e) :
    e.cls.kind = none := by
  simp only [deleteRow] at h
  split at h
  · split at h
    · rename_i e' _
      obtain rfl := Except.error.inj h
      cases e' <;> rfl
    · cases h
  · cases h

theorem raises_insertFlushed (row : Input → RowOf t) : Raises cs (uow.insertFlushed t row) :=
  raises_statement fun _ _ _ he => insertRow_error he

theorem raises_updateById (id : UUID) (cond : RowOf t → Bool) (set : Input → RowOf t → RowOf t) :
    Raises cs (uow.updateById t id cond set) :=
  raises_statement fun _ _ _ he => updateRow_error he

/-- An UPDATE that matches no row is a `StaleDataError` of the ORM. -/
theorem raises_updateFlushed (id : UUID) (set : RowOf t → RowOf t) :
    Raises cs (uow.updateFlushed t id set) := by
  refine .bind (raises_updateById _ _ _) fun count => ?_
  unfold raiseIf
  split
  · exact raises_foreign rfl
  · trivial

theorem raises_updateEach (cond : RowOf t → Bool) (set : Input → RowOf t → RowOf t)
    (ids : List UUID) : Raises cs (uow.updateEach t cond set ids) := by
  induction ids with
  | nil => trivial
  | cons id ids ih => exact .bind (raises_updateById _ _ _) fun _ => ih

theorem raises_updateWhere (cond : RowOf t → Bool) (set : Input → RowOf t → RowOf t) :
    Raises cs (uow.updateWhere t cond set) :=
  .bind (raises_select cond) fun _ => raises_updateEach _ _ _

theorem raises_delete (id : UUID) : Raises cs (uow.delete t id) :=
  raises_statement fun _ _ _ he => deleteRow_error he

theorem raises_rollback : Raises cs rollback := trivial

/-- The settings of the session are set again after a COMMIT. -/
theorem raises_commit : Raises cs commit :=
  .bind (p := .commitNow) trivial fun _ =>
    .bind (raises_statement fun _ _ _ he => nomatch he) fun _ =>
      raises_statement fun _ _ _ he => nomatch he

end UnitOfWork

open UnitOfWork

/-- An INSERT and its COMMIT, with the exception for a violated constraint. -/
theorem raises_insertOrConflict {row : Input → RowOf t} {exn : Exn} (h : exn.cls ∈ cs) :
    Raises cs (exceptIntegrityError
      (do let r ← uow.insertFlushed t row
          UnitOfWork.commit
          return r)
      (do UnitOfWork.rollback
          throw exn)) :=
  raises_exceptIntegrityError
    (.bind (raises_insertFlushed row) fun _ => .bind raises_commit fun _ => trivial)
    (.bind raises_rollback fun _ => raises_throw h)

/-- The exceptions of `require_org_role`. -/
def roleErrors : List ExnClass := [.membershipRequiredError, .insufficientRoleError]

/-- The actor may have no membership. -/
theorem raises_getActorMembership (h : roleErrors ⊆ cs) (org actor : UUID) :
    Raises cs (getActorMembership uow org actor) := by
  refine .bind (raises_selectOne _) fun found => ?_
  cases found with
  | none => exact raises_throw (h (by decide))
  | some m => trivial

theorem raises_requireOrgRole (h : roleErrors ⊆ cs) (org actor : UUID)
    (minimum : MembershipRole) : Raises cs (requireOrgRole uow org actor minimum) :=
  .bind (raises_getActorMembership h org actor) fun _ =>
    .bind (raises_raiseIf (h (by decide))) fun _ => trivial

theorem raises_requireOrgRoleAgain (h : roleErrors ⊆ cs) (loaded : Membership) (org actor : UUID)
    (minimum : MembershipRole) :
    Raises cs (requireOrgRoleAgain uow loaded org actor minimum) :=
  .bind (raises_getActorMembership h org actor) fun _ =>
    .bind (raises_raiseIf (h (by decide))) fun _ => trivial

namespace AuthService
variable {security : SecurityModules}

theorem raises_register (h : .emailAlreadyRegisteredError ∈ cs) (email password : String)
    (fullName : Option String) : Raises cs (register security uow email password fullName) :=
  .bind (raises_selectOne _) fun _ => .bind (raises_raiseIf h) fun _ => raises_insertOrConflict h

theorem raises_issueTokenPair (userId : UUID) : Raises cs (issueTokenPair security uow userId) :=
  .bind raises_readInput fun _ => .bind (raises_insertFlushed _) fun _ =>
    .bind raises_commit fun _ => .bind raises_readInput fun _ => trivial

/-- An unknown address and a wrong password raise the same exception. -/
theorem raises_login (hc : .invalidCredentialsError ∈ cs) (hi : .inactiveUserError ∈ cs)
    (email password : String) : Raises cs (login security uow email password) := by
  refine .bind (raises_selectOne _) fun user => .bind (raises_raiseIf hc) fun _ => ?_
  cases user with
  | none => exact raises_throw hc
  | some user =>
    exact .bind (raises_raiseIf hi) fun _ => .bind (raises_issueTokenPair _) fun _ => trivial

theorem raises_revoke (id : UUID) : Raises cs (RefreshTokenRepository.revoke uow id) :=
  .bind (raises_updateById _ _ _) fun _ => trivial

/-- All tokens of the user are revoked before the exception. -/
theorem raises_revokeAll {exn : Exn} (h : exn.cls ∈ cs) (userId : UUID) :
    Raises cs (do
      RefreshTokenRepository.revokeAllForUser uow userId
      UnitOfWork.commit
      throw exn : Tx α) :=
  .bind (raises_updateWhere _ _) fun _ => .bind raises_commit fun _ => raises_throw h

/-- Each branch of a refresh that gives no tokens raises the same class. -/
theorem raises_refresh (h : .invalidRefreshTokenError ∈ cs) (raw : String) :
    Raises cs (refresh security uow raw) := by
  refine .bind (raises_selectOne _) fun stored => ?_
  cases stored with
  | none => exact raises_throw h
  | some stored =>
    dsimp only
    split
    · exact raises_revokeAll h _
    · refine .bind raises_readInput fun clock => ?_
      split
      · exact .bind (raises_revoke _) fun _ => .bind raises_commit fun _ => raises_throw h
      · refine .bind (raises_get _) fun user => ?_
        split
        · exact raises_revokeAll h _
        · exact .bind (raises_revoke _) fun _ => .bind (raises_issueTokenPair _) fun _ => trivial

theorem raises_logout (raw : String) : Raises cs (logout security uow raw) := by
  refine .bind (raises_selectOne _) fun stored => ?_
  split
  · trivial
  · exact .bind (raises_revoke _) fun _ => raises_commit

theorem raises_logoutAll (userId : UUID) : Raises cs (logoutAll uow userId) :=
  .bind (raises_updateWhere _ _) fun _ => raises_commit

end AuthService

namespace OrganizationService

/-- The function in the database raises errors of its own and those of its INSERTs. -/
theorem createOrganizationWithOwner_error {name slug : String} {userId : UUID} {inp : Input}
    {v : Db} {e : Exn}
    (h : createOrganizationWithOwner uow name slug userId inp v = .error e) :
    e.cls.kind = none := by
  simp only [createOrganizationWithOwner] at h
  split at h
  · exact Except.error.inj h ▸ rfl
  split at h
  · exact Except.error.inj h ▸ rfl
  split at h
  · exact Except.error.inj h ▸ rfl
  split at h
  · exact Except.error.inj h ▸ rfl
  split at h
  · exact Except.error.inj h ▸ rfl
  split at h
  · exact Except.error.inj h ▸ rfl
  split at h
  · exact Except.error.inj h ▸ rfl
  cases h

theorem raises_create (h : .organizationAlreadyExistsError ∈ cs) (name slug : String)
    (userId : UUID) : Raises cs (create uow name slug userId) := by
  have hcreate : Raises cs (OrganizationRepository.createWithOwner uow name slug userId) := by
    refine .bind (raises_statement fun _ _ _ => createOrganizationWithOwner_error) fun row =>
      .bind (raises_get _) fun org => ?_
    cases org with
    | none => exact raises_foreign rfl
    | some org => trivial
  exact .bind (raises_selectOne _) fun _ => .bind (raises_raiseIf h) fun _ =>
    raises_exceptIntegrityError (.bind hcreate fun _ => .bind raises_commit fun _ => trivial)
      (.bind raises_rollback fun _ => raises_throw h)

theorem raises_getOrganization (h : .organizationNotFoundError ∈ cs) (org : UUID) :
    Raises cs (OrganizationService.get uow org) := by
  refine .bind (raises_get _) fun found => ?_
  cases found with
  | none => exact raises_throw h
  | some o => trivial

theorem raises_update (hrole : roleErrors ⊆ cs) (hget : .organizationNotFoundError ∈ cs)
    (hslug : .organizationAlreadyExistsError ∈ cs) (org actor : UUID)
    (name slug : Option String) : Raises cs (update uow org actor name slug) := by
  refine .bind (raises_requireOrgRole hrole _ _ _) fun _ =>
    .bind (raises_getOrganization hget _) fun found => .bind ?_ fun _ =>
      raises_exceptIntegrityError (.bind ?_ fun _ => .bind raises_commit fun _ => trivial)
        (.bind raises_rollback fun _ => raises_throw hslug)
  · split
    · trivial
    · split
      · exact .bind (raises_selectOne _) fun _ => raises_raiseIf hslug
      · trivial
  · split
    · exact raises_updateFlushed _ _
    · trivial

theorem raises_deleteOrganization (hrole : roleErrors ⊆ cs)
    (hget : .organizationNotFoundError ∈ cs) (org actor : UUID) :
    Raises cs (OrganizationService.delete uow org actor) :=
  .bind (raises_requireOrgRole hrole _ _ _) fun _ => .bind (raises_getOrganization hget _)
    fun _ => .bind (raises_delete _) fun _ => raises_commit

end OrganizationService

namespace MembershipService

/-- The checks of an invitation, in their order. -/
theorem raises_invite (hinvalid : .invalidMembershipRoleError ∈ cs) (hrole : roleErrors ⊆ cs)
    (huser : .userNotFoundError ∈ cs) (hmember : .membershipAlreadyExistsError ∈ cs) (org : UUID)
    (email : String) (role : MembershipRole) (actor : UUID) :
    Raises cs (invite uow org email role actor) := by
  refine .bind (raises_raiseIf hinvalid) fun _ => .bind (raises_requireOrgRole hrole _ _ _)
    fun _ => .bind (raises_raiseIf (hrole (by decide))) fun _ => .bind (raises_selectOne _)
      fun user => ?_
  cases user with
  | none => exact raises_throw huser
  | some user =>
    exact .bind (raises_selectOne _) fun _ => .bind (raises_raiseIf hmember) fun _ =>
      raises_insertOrConflict hmember

/-- A membership of another organization counts as none. -/
theorem raises_getTarget (h : .membershipNotFoundError ∈ cs) (actor : Membership)
    (org id : UUID) : Raises cs (getTarget uow actor org id) := by
  refine .bind (raises_get _) fun found => ?_
  cases found with
  | none => exact raises_throw h
  | some found => exact .bind (raises_raiseIf h) fun _ => trivial

theorem raises_countOwners (org : UUID) :
    Raises cs (MembershipRepository.countOwners uow org) :=
  .bind (raises_select _) fun _ => trivial

theorem raises_updateRole (hrole : roleErrors ⊆ cs) (hget : .membershipNotFoundError ∈ cs)
    (hlast : .lastOwnerError ∈ cs) (org id : UUID) (newRole : MembershipRole) (actor : UUID) :
    Raises cs (updateRole uow org id newRole actor) := by
  refine .bind (raises_requireOrgRole hrole _ _ _) fun _ => .bind (raises_getTarget hget _ _ _)
    fun target => ?_
  split
  · trivial
  · refine .bind (raises_raiseIf (hrole (by decide))) fun _ => .bind ?_ fun _ =>
      .bind (raises_raiseIf (hrole (by decide))) fun _ => .bind (raises_updateFlushed _ _)
        fun _ => .bind raises_commit fun _ => trivial
    split
    · exact .bind (raises_countOwners _) fun _ => raises_raiseIf hlast
    · trivial

theorem raises_remove (hrole : roleErrors ⊆ cs) (hget : .membershipNotFoundError ∈ cs)
    (hlast : .lastOwnerError ∈ cs) (org id actor : UUID) :
    Raises cs (remove uow org id actor) := by
  refine .bind (raises_requireOrgRole hrole _ _ _) fun _ => .bind (raises_getTarget hget _ _ _)
    fun target => .bind ?_ fun _ => .bind (raises_delete _) fun _ => raises_commit
  split
  · exact .bind (raises_raiseIf (hrole (by decide))) fun _ => .bind (raises_countOwners _)
      fun _ => raises_raiseIf hlast
  · trivial

end MembershipService

namespace ProjectService

/-- The class is that of the module which looks the project up. -/
theorem raises_lookup {notFound : ExnClass} (h : notFound ∈ cs) (org id : UUID) :
    Raises cs (lookup uow notFound org id) := by
  refine .bind (raises_get _) fun found => ?_
  split
  · exact raises_throw h
  · trivial

theorem raises_create (hrole : roleErrors ⊆ cs) (hslug : .projectAlreadyExistsError ∈ cs)
    (org : UUID) (name slug : String) (actor : UUID) (description : Option String) :
    Raises cs (create uow org name slug actor description) :=
  .bind (raises_requireOrgRole hrole _ _ _) fun _ => .bind (raises_selectOne _) fun _ =>
    .bind (raises_raiseIf hslug) fun _ => raises_insertOrConflict hslug

theorem raises_update (hrole : roleErrors ⊆ cs) (hget : .projectNotFoundError ∈ cs)
    (hslug : .projectAlreadyExistsError ∈ cs) (id org actor : UUID)
    (name slug description : Option String) :
    Raises cs (update uow id org actor name slug description) := by
  refine .bind (raises_requireOrgRole hrole _ _ _) fun _ =>
    .bind (raises_requireOrgRoleAgain hrole _ _ _ _) fun _ => .bind (raises_lookup hget _ _)
      fun project => .bind ?_ fun _ => raises_exceptIntegrityError
        (.bind ?_ fun _ => .bind raises_commit fun _ => trivial)
        (.bind raises_rollback fun _ => raises_throw hslug)
  · split
    · trivial
    · split
      · exact .bind (raises_selectOne _) fun _ => raises_raiseIf hslug
      · trivial
  · split
    · exact raises_updateFlushed _ _
    · trivial

end ProjectService

namespace EnvironmentService
variable {kms : LocalKMSProvider}

/-- What `create` does once it has found the project. -/
theorem raises_createIn (hname : .environmentAlreadyExistsError ∈ cs) (projectId : UUID)
    (name : String) :
    Raises cs (do
      let existing ← EnvironmentRepository.getByProjectAndName uow projectId name
      raiseIf existing.isSome (nameExists name).cls (nameExists name).detail
      let environment ← uow.insertFlushed .environments fun inp =>
        (⟨inp.uuid, projectId, name⟩ : Environment)
      let random ← readInput
      exceptIntegrityError
        (do let _ ← uow.insertFlushed .encryptionKeys fun inp =>
              (⟨inp.uuid, environment.id,
                CryptoService.createWrappedDek kms random.dek random.nonce, 1, "AES-256-GCM",
                true⟩ : EncryptionKey)
            UnitOfWork.commit
            return environment)
        (do UnitOfWork.rollback
            throw (nameExists name))) :=
  .bind (raises_selectOne _) fun _ => .bind (raises_raiseIf hname) fun _ =>
    .bind (raises_insertFlushed _) fun _ => .bind raises_readInput fun _ =>
      raises_exceptIntegrityError
        (.bind (raises_insertFlushed _) fun _ => .bind raises_commit fun _ => trivial)
        (.bind raises_rollback fun _ => raises_throw hname)

theorem raises_getIn (h : .environmentNotFoundError ∈ cs) (org id : UUID) :
    Raises cs (getIn uow org id) := by
  refine .bind (raises_get _) fun found => ?_
  cases found with
  | none => exact raises_throw h
  | some e => exact .bind (raises_get _) fun _ => .bind (raises_raiseIf h) fun _ => trivial

end EnvironmentService

namespace SecretService
variable {kms : LocalKMSProvider}

theorem raises_resolveEnvironmentOrg (h : .environmentNotFoundError ∈ cs) (e org : UUID) :
    Raises cs (resolveEnvironmentOrg uow e org) :=
  .bind (EnvironmentService.raises_getIn h _ _) fun _ => trivial

theorem raises_getOwnedSecret (hs : .secretNotFoundError ∈ cs)
    (he : .environmentNotFoundError ∈ cs) (id org : UUID) :
    Raises cs (getOwnedSecret uow id org) := by
  refine .bind (raises_get _) fun found => ?_
  split
  · exact raises_throw hs
  · exact .bind (raises_resolveEnvironmentOrg he _ _) fun _ => trivial

theorem raises_activeKey (h : .encryptionKeyNotFoundError ∈ cs) (e : UUID) :
    Raises cs (activeKey uow e) := by
  refine .bind (raises_selectOne _) fun found => ?_
  cases found with
  | none => exact raises_throw h
  | some key => trivial

theorem raises_encryptSecret (plainValue : String) (key : EncryptionKey) :
    Raises cs (encryptSecret kms plainValue key) :=
  .bind raises_readInput fun _ => raises_liftCrypto _

theorem raises_commitPointer (secretId versionId : UUID) :
    Raises cs (commitPointer uow secretId versionId) := by
  refine .bind (raises_updateFlushed _ _) fun _ =>
    .bind (raises_statement fun inp v e he => ?_) fun _ => raises_commit
  split at he
  · exact Except.error.inj he ▸ rfl
  · split at he
    · exact Except.error.inj he ▸ rfl
    · cases he

theorem raises_createSecret (hrole : roleErrors ⊆ cs) (he : .environmentNotFoundError ∈ cs)
    (hname : .secretAlreadyExistsError ∈ cs) (hkey : .encryptionKeyNotFoundError ∈ cs)
    (e org : UUID) (keyName plainValue : String) (actor : UUID) :
    Raises cs (createSecret kms uow e org keyName plainValue actor) :=
  .bind (raises_requireOrgRole hrole _ _ _) fun _ => .bind (raises_resolveEnvironmentOrg he _ _)
    fun _ => .bind (raises_selectOne _) fun _ => .bind (raises_raiseIf hname) fun _ =>
      .bind (raises_activeKey hkey _) fun _ => .bind (raises_encryptSecret _ _) fun _ =>
        .bind (raises_insertFlushed _) fun _ => .bind (raises_insertFlushed _) fun _ =>
          .bind (raises_commitPointer _ _) fun _ => trivial

/-- The number of a version beyond the INTEGER column is no exception of the services. -/
theorem raises_addNewVersion (hrole : roleErrors ⊆ cs) (hs : .secretNotFoundError ∈ cs)
    (he : .environmentNotFoundError ∈ cs) (hkey : .encryptionKeyNotFoundError ∈ cs)
    (id org : UUID) (plainValue : String) (actor : UUID) :
    Raises cs (addNewVersion kms uow id org plainValue actor) := by
  refine .bind (raises_requireOrgRole hrole _ _ _) fun _ => .bind (raises_getOwnedSecret hs he _ _)
    fun secret => .bind (raises_activeKey hkey _) fun _ => .bind (raises_encryptSecret _ _)
      fun _ => .bind (.bind (raises_select _) fun _ => trivial) fun latest => .bind ?_ fun _ =>
        .bind (raises_insertFlushed _) fun _ => .bind (raises_commitPointer _ _) fun _ => trivial
  unfold raiseIf
  split
  · exact raises_foreign rfl
  · trivial

theorem raises_getDecryptedValue (hrole : roleErrors ⊆ cs) (hs : .secretNotFoundError ∈ cs)
    (he : .environmentNotFoundError ∈ cs) (hkey : .encryptionKeyNotFoundError ∈ cs)
    (id org actor : UUID) : Raises cs (getDecryptedValue kms uow id org actor) := by
  refine .bind (raises_requireOrgRole hrole _ _ _) fun _ => .bind (raises_getOwnedSecret hs he _ _)
    fun secret => ?_
  split
  · exact raises_foreign rfl
  · refine .bind (raises_get _) fun version => ?_
    split
    · exact raises_foreign rfl
    · refine .bind (raises_get _) fun key => ?_
      split
      · exact raises_throw hkey
      · exact .bind (raises_liftCrypto _) fun _ => .bind (.bind (raises_insertFlushed _)
          fun _ => trivial) fun _ => .bind raises_commit fun _ => trivial

theorem raises_deleteSecret (hrole : roleErrors ⊆ cs) (hs : .secretNotFoundError ∈ cs)
    (he : .environmentNotFoundError ∈ cs) (id org actor : UUID) :
    Raises cs (deleteSecret uow id org actor) :=
  .bind (raises_requireOrgRole hrole _ _ _) fun _ => .bind (raises_getOwnedSecret hs he _ _)
    fun _ => .bind (.bind (raises_updateById _ _ _) fun _ => trivial) fun _ => raises_commit

end SecretService

end

/-- The classes of the services that an operation raises. -/
def Op.raises : Op → List ExnClass
  | register .. => [.emailAlreadyRegisteredError]
  | login .. => [.invalidCredentialsError, .inactiveUserError]
  | refresh .. => [.invalidRefreshTokenError]
  | logout .. | logoutAll .. | listOrganizations => []
  | createOrganization .. => [.organizationAlreadyExistsError]
  | getOrganization .. => [.organizationNotFoundError]
  | updateOrganization .. =>
    roleErrors ++ [.organizationNotFoundError, .organizationAlreadyExistsError]
  | deleteOrganization .. => roleErrors ++ [.organizationNotFoundError]
  | listMemberships .. | listProjects .. | listAuditLogs .. => roleErrors
  | invite .. =>
    roleErrors ++ [.invalidMembershipRoleError, .userNotFoundError, .membershipAlreadyExistsError]
  | updateRole .. | removeMembership .. => roleErrors ++ [.membershipNotFoundError, .lastOwnerError]
  | createProject .. => roleErrors ++ [.projectAlreadyExistsError]
  | getProject .. | deleteProject .. => roleErrors ++ [.projectNotFoundError]
  | updateProject .. => roleErrors ++ [.projectNotFoundError, .projectAlreadyExistsError]
  | createEnvironment .. =>
    roleErrors ++ [.environmentProjectNotFoundError, .environmentAlreadyExistsError]
  | listEnvironments .. => roleErrors ++ [.environmentProjectNotFoundError]
  | getEnvironment .. | deleteEnvironment .. | listSecrets .. =>
    roleErrors ++ [.environmentNotFoundError]
  | createSecret .. => roleErrors ++
      [.environmentNotFoundError, .secretAlreadyExistsError, .encryptionKeyNotFoundError]
  | addNewVersion .. | getDecryptedValue .. => roleErrors ++
      [.secretNotFoundError, .environmentNotFoundError, .encryptionKeyNotFoundError]
  | deleteSecret .. => roleErrors ++ [.secretNotFoundError, .environmentNotFoundError]

open UnitOfWork in
/-- What an operation raises of these classes is among its `raises`. -/
theorem Op.raises_program (d : Deployment) (uow : UnitOfWork) (op : Op) :
    Raises op.raises (op.program d uow) := by
  have hrole : ∀ cs : List ExnClass, roleErrors ⊆ roleErrors ++ cs :=
    fun cs => List.subset_append_left _ _
  cases op with
  | register => exact .bind (AuthService.raises_register (by simp [raises]) _ _ _) fun _ => trivial
  | login =>
    exact .bind (AuthService.raises_login (by simp [raises]) (by simp [raises]) _ _)
      fun _ => trivial
  | refresh => exact .bind (AuthService.raises_refresh (by simp [raises]) _) fun _ => trivial
  | logout => exact .bind (AuthService.raises_logout _) fun _ => trivial
  | logoutAll => exact .bind (AuthService.raises_logoutAll _) fun _ => trivial
  | createOrganization =>
    exact .bind (OrganizationService.raises_create (by simp [raises]) _ _ _) fun _ => trivial
  | listOrganizations => exact .bind (.bind (raises_select _) fun _ => trivial) fun _ => trivial
  | getOrganization =>
    exact .bind (OrganizationService.raises_getOrganization (List.mem_singleton_self _) _)
      fun _ => trivial
  | updateOrganization =>
    exact .bind (OrganizationService.raises_update (hrole _) (by decide) (by decide) _ _ _ _)
      fun _ => trivial
  | deleteOrganization =>
    exact .bind (OrganizationService.raises_deleteOrganization (hrole _) (by decide) _ _)
      fun _ => trivial
  | listMemberships =>
    exact .bind (.bind (raises_requireOrgRole (List.Subset.refl _) _ _ _) fun _ =>
      .bind (raises_select _) fun _ => trivial) fun _ => trivial
  | invite =>
    exact .bind (MembershipService.raises_invite (by decide) (hrole _) (by decide) (by decide)
      _ _ _ _) fun _ => trivial
  | updateRole =>
    exact .bind (MembershipService.raises_updateRole (hrole _) (by decide) (by decide) _ _ _ _)
      fun _ => trivial
  | removeMembership =>
    exact .bind (MembershipService.raises_remove (hrole _) (by decide) (by decide) _ _ _)
      fun _ => trivial
  | createProject =>
    exact .bind (ProjectService.raises_create (hrole _) (by decide) _ _ _ _ _) fun _ => trivial
  | listProjects =>
    exact .bind (.bind (raises_requireOrgRole (List.Subset.refl _) _ _ _) fun _ =>
      .bind (raises_select _) fun _ => trivial) fun _ => trivial
  | getProject =>
    exact .bind (.bind (raises_requireOrgRole (hrole _) _ _ _) fun _ =>
      ProjectService.raises_lookup (by simp [raises]) _ _) fun _ => trivial
  | updateProject =>
    exact .bind (ProjectService.raises_update (hrole _) (by decide) (by decide) _ _ _ _ _ _)
      fun _ => trivial
  | deleteProject =>
    exact .bind (.bind (raises_requireOrgRole (hrole _) _ _ _) fun _ =>
      .bind (raises_requireOrgRoleAgain (hrole _) _ _ _ _) fun _ =>
        .bind (ProjectService.raises_lookup (by simp [raises]) _ _) fun _ =>
          .bind (raises_delete _) fun _ => raises_commit) fun _ => trivial
  | createEnvironment =>
    exact .bind (.bind (raises_requireOrgRole (hrole _) _ _ _) fun _ =>
      .bind (ProjectService.raises_lookup (by simp [raises]) _ _) fun _ =>
        EnvironmentService.raises_createIn (by simp [raises]) _ _) fun _ => trivial
  | listEnvironments =>
    exact .bind (.bind (raises_requireOrgRole (hrole _) _ _ _) fun _ =>
      .bind (ProjectService.raises_lookup (by simp [raises]) _ _) fun _ =>
        .bind (raises_select _) fun _ => trivial) fun _ => trivial
  | getEnvironment =>
    exact .bind (.bind (raises_requireOrgRole (hrole _) _ _ _) fun _ =>
      EnvironmentService.raises_getIn (by simp [raises]) _ _) fun _ => trivial
  | deleteEnvironment =>
    exact .bind (.bind (raises_requireOrgRole (hrole _) _ _ _) fun _ =>
      .bind (raises_requireOrgRoleAgain (hrole _) _ _ _ _) fun _ =>
        .bind (EnvironmentService.raises_getIn (by simp [raises]) _ _) fun _ =>
          .bind (raises_delete _) fun _ => raises_commit) fun _ => trivial
  | createSecret =>
    exact .bind (SecretService.raises_createSecret (hrole _) (by decide) (by decide) (by decide)
      _ _ _ _ _) fun _ => trivial
  | addNewVersion =>
    exact .bind (SecretService.raises_addNewVersion (hrole _) (by decide) (by decide) (by decide)
      _ _ _ _) fun _ => trivial
  | listSecrets =>
    exact .bind (.bind (raises_requireOrgRole (hrole _) _ _ _) fun _ =>
      .bind (SecretService.raises_resolveEnvironmentOrg (by simp [raises]) _ _) fun _ =>
        .bind (raises_select _) fun _ => trivial) fun _ => trivial
  | getDecryptedValue =>
    exact .bind (SecretService.raises_getDecryptedValue (hrole _) (by decide) (by decide)
      (by decide) _ _ _) fun _ => trivial
  | deleteSecret =>
    exact .bind (SecretService.raises_deleteSecret (hrole _) (by decide) (by decide) _ _ _)
      fun _ => trivial
  | listAuditLogs =>
    exact .bind (.bind (raises_requireOrgRole (List.Subset.refl _) _ _ _) fun _ =>
      .bind (raises_select _) fun _ => trivial) fun _ => trivial

end EnvVault
