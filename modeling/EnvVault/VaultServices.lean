import EnvVault.AccessServices

/-!
# Projects, environments and secrets

The services that hold and reveal secrets.
-/
namespace EnvVault
open EnvVault.Relational EnvVault.Transactions

def cryptoExn : CryptoError → Exn
  | .wrappedDekTooShort => ⟨.valueError, "Wrapped DEK is too short to be valid"⟩
  | .keyLength => ⟨.valueError, "AESGCM key must be 128, 192, or 256 bits."⟩
  | .invalidTag => ⟨.invalidTag, ""⟩
  | .notUtf8 => ⟨.unicodeDecodeError, ""⟩

/-- A result of the crypto service, with its errors as exceptions. -/
def liftCrypto {α : Type} : Except CryptoError α → Tx α
  | .ok a => pure a
  | .error e => throw (cryptoExn e)

namespace ProjectService
variable (uow : UnitOfWork)

def slugExists (slug : String) : Exn :=
  ⟨.projectAlreadyExistsError, "Project slug '" ++ slug ++ "' already exists in this organization."⟩

def create (organizationId : UUID) (name slug : String) (actorUserId : UUID)
    (description : Option String) : Tx Project := do
  let _ ← requireOrgRole uow organizationId actorUserId .member
  let existing ← ProjectRepository.getByOrgAndSlug uow organizationId slug
  raiseIf existing.isSome (slugExists slug).cls (slugExists slug).detail
  exceptIntegrityError
    (do let project ← uow.insertFlushed .projects fun inp =>
          (⟨inp.uuid, organizationId, name, slug, description, some actorUserId⟩ : Project)
        UnitOfWork.commit
        return project)
    (do UnitOfWork.rollback
        throw (slugExists slug))

def list (organizationId actorUserId : UUID) : Tx (List Project) := do
  let _ ← requireOrgRole uow organizationId actorUserId .viewer
  ProjectRepository.listByOrganization uow organizationId

/-- The project of this id, if it belongs to the organization. The modules `project` and
`environment` each raise the `ProjectNotFoundError` of their own. -/
def lookup (notFound : ExnClass) (organizationId projectId : UUID) : Tx Project := do
  let project ← ProjectRepository.get uow projectId
  match project.filter fun p => p.organizationId == organizationId with
  | none => throw ⟨notFound, "Project not found."⟩
  | some project => return project

abbrev getIn (organizationId projectId : UUID) : Tx Project :=
  lookup uow .projectNotFoundError organizationId projectId

def get (projectId organizationId actorUserId : UUID) : Tx Project := do
  let _ ← requireOrgRole uow organizationId actorUserId .viewer
  getIn uow organizationId projectId

def update (projectId organizationId actorUserId : UUID) (name slug description : Option String) :
    Tx Project := do
  let actor ← requireOrgRole uow organizationId actorUserId .member
  let _ ← requireOrgRoleAgain uow actor organizationId actorUserId .viewer
  let project ← getIn uow organizationId projectId
  (match slug with
    | none => pure ()
    | some slug =>
      if slug ≠ project.slug then do
        let conflict ← ProjectRepository.getByOrgAndSlug uow organizationId slug
        raiseIf (conflict.any fun c => c.id ≠ project.id) (slugExists slug).cls
          (slugExists slug).detail
      else pure () : Tx Unit)
  let changed : Project := { project with
    name := name.getD project.name
    slug := slug.getD project.slug
    description := description.orElse fun _ => project.description }
  exceptIntegrityError
    (do (if changed ≠ project then
          uow.updateFlushed .projects project.id fun r : Project =>
            { r with
              name := if changed.name ≠ project.name then changed.name else r.name
              slug := if changed.slug ≠ project.slug then changed.slug else r.slug
              description := if changed.description ≠ project.description then changed.description
                else r.description }
        else pure () : Tx Unit)
        UnitOfWork.commit
        return changed)
    (do UnitOfWork.rollback
        throw (slugExists (slug.getD "None")))

def delete (projectId organizationId actorUserId : UUID) : Tx Unit := do
  let actor ← requireOrgRole uow organizationId actorUserId .member
  let _ ← requireOrgRoleAgain uow actor organizationId actorUserId .viewer
  let project ← getIn uow organizationId projectId
  ProjectRepository.delete uow project.id
  UnitOfWork.commit

end ProjectService

namespace EnvironmentService
variable (kms : LocalKMSProvider) (uow : UnitOfWork)

abbrev getProject (organizationId projectId : UUID) : Tx Project :=
  ProjectService.lookup uow .environmentProjectNotFoundError organizationId projectId

def nameExists (name : String) : Exn :=
  ⟨.environmentAlreadyExistsError, "Environment '" ++ name ++ "' already exists in this project."⟩

def create (projectId organizationId : UUID) (name : String) (actorUserId : UUID) :
    Tx Environment := do
  let _ ← requireOrgRole uow organizationId actorUserId .member
  let _ ← getProject uow organizationId projectId
  let existing ← EnvironmentRepository.getByProjectAndName uow projectId name
  raiseIf existing.isSome (nameExists name).cls (nameExists name).detail
  let environment ← uow.insertFlushed .environments fun inp =>
    (⟨inp.uuid, projectId, name⟩ : Environment)
  let random ← readInput
  exceptIntegrityError
    (do let _ ← uow.insertFlushed .encryptionKeys fun inp =>
          (⟨inp.uuid, environment.id, CryptoService.createWrappedDek kms random.dek random.nonce, 1,
            "AES-256-GCM", true⟩ : EncryptionKey)
        UnitOfWork.commit
        return environment)
    (do UnitOfWork.rollback
        throw (nameExists name))

def list (projectId organizationId actorUserId : UUID) : Tx (List Environment) := do
  let _ ← requireOrgRole uow organizationId actorUserId .viewer
  let _ ← getProject uow organizationId projectId
  EnvironmentRepository.getByProject uow projectId

/-- The environment of this id, if its project belongs to the organization. -/
def getIn (organizationId environmentId : UUID) : Tx Environment := do
  let environment ← EnvironmentRepository.get uow environmentId
  match environment with
  | none => throw ⟨.environmentNotFoundError, "Environment not found."⟩
  | some environment =>
    let project ← ProjectRepository.get uow environment.projectId
    raiseIf (!(project.any fun p => p.organizationId == organizationId)) .environmentNotFoundError
      "Environment not found."
    return environment

def get (environmentId organizationId actorUserId : UUID) : Tx Environment := do
  let _ ← requireOrgRole uow organizationId actorUserId .viewer
  getIn uow organizationId environmentId

def delete (environmentId organizationId actorUserId : UUID) : Tx Unit := do
  let actor ← requireOrgRole uow organizationId actorUserId .member
  let _ ← requireOrgRoleAgain uow actor organizationId actorUserId .viewer
  let environment ← getIn uow organizationId environmentId
  EnvironmentRepository.delete uow environment.id
  UnitOfWork.commit

end EnvironmentService

namespace SecretService
variable (kms : LocalKMSProvider) (uow : UnitOfWork)

/-- `_resolve_environment_org`. -/
def resolveEnvironmentOrg (environmentId organizationId : UUID) : Tx Unit := do
  let _ ← EnvironmentService.getIn uow organizationId environmentId

/-- `_get_owned_secret`. -/
def getOwnedSecret (secretId organizationId : UUID) : Tx Secret := do
  let secret ← SecretRepository.get uow secretId
  match secret.filter fun s => !s.isDeleted with
  | none => throw ⟨.secretNotFoundError, "Secret not found or deleted."⟩
  | some secret =>
    resolveEnvironmentOrg uow secret.environmentId organizationId
    return secret

def activeKey (environmentId : UUID) : Tx EncryptionKey := do
  let encKey ← EncryptionKeyRepository.getActiveForEnvironment uow environmentId
  match encKey with
  | none => throw ⟨.encryptionKeyNotFoundError,
      "No active encryption key found for this environment."⟩
  | some encKey => return encKey

/-- The ciphertext and its nonce. -/
def encryptSecret (plainValue : String) (encKey : EncryptionKey) : Tx (Bytes × Bytes) := do
  let random ← readInput
  liftCrypto (CryptoService.encryptSecret kms plainValue encKey.wrappedDek random.nonce)

/-- The checks of the deferred foreign key and the deferred constraint trigger on
`secrets.current_version_id`; the query of the trigger is under row-level security. -/
def checkCurrentVersion (secretId versionId : UUID) : Tx Unit :=
  Prog.statement fun _ v =>
    if !((v .secretVersions).any fun sv : SecretVersion => sv.id == versionId) then
      .error (integrityViolation .secrets)
    else if !((v .secretVersions).any fun sv : SecretVersion => sv.id == versionId &&
        sv.secretId == secretId && uow.may v .select .secretVersions sv) then
      .error ⟨.raisedByTrigger, "current_version_id " ++ toString versionId ++
        " no pertenece al secret " ++ toString secretId⟩
    else .ok ([], ())

/-- The commit that follows `secret.current_version_id = version.id`. -/
def commitPointer (secretId versionId : UUID) : Tx Unit := do
  uow.updateFlushed .secrets secretId fun s : Secret =>
    { s with currentVersionId := some versionId }
  checkCurrentVersion uow secretId versionId
  UnitOfWork.commit

/-- `version_number` is an INTEGER. -/
def maxInteger : ℕ := 2147483647

def createSecret (environmentId organizationId : UUID) (keyName plainValue : String)
    (actorUserId : UUID) : Tx Secret := do
  let _ ← requireOrgRole uow organizationId actorUserId .member
  resolveEnvironmentOrg uow environmentId organizationId
  let existing ← SecretRepository.getByEnvironmentAndName uow environmentId keyName
  raiseIf existing.isSome .secretAlreadyExistsError
    ("Secret '" ++ keyName ++ "' already exists in this environment.")
  let encKey ← activeKey uow environmentId
  let encrypted ← encryptSecret kms plainValue encKey
  let secret ← uow.insertFlushed .secrets fun inp =>
    (⟨inp.uuid, environmentId, keyName, none, false, none⟩ : Secret)
  let version ← uow.insertFlushed .secretVersions fun inp =>
    (⟨inp.uuid, secret.id, encKey.id, encrypted.1, encrypted.2, 1, some actorUserId⟩ :
      SecretVersion)
  commitPointer uow secret.id version.id
  return { secret with currentVersionId := some version.id }

def newVersionNumber : Option SecretVersion → ℕ
  | none => 1
  | some latestVersion => latestVersion.versionNumber + 1

def addNewVersion (secretId organizationId : UUID) (plainValue : String) (actorUserId : UUID) :
    Tx SecretVersion := do
  let _ ← requireOrgRole uow organizationId actorUserId .member
  let secret ← getOwnedSecret uow secretId organizationId
  let encKey ← activeKey uow secret.environmentId
  let encrypted ← encryptSecret kms plainValue encKey
  let latestVersion ← SecretVersionRepository.getLatestForSecret uow secret.id
  let newVersionNumber := newVersionNumber latestVersion
  raiseIf (decide (maxInteger < newVersionNumber)) .numericValueOutOfRange "integer out of range"
  let version ← uow.insertFlushed .secretVersions fun inp =>
    (⟨inp.uuid, secret.id, encKey.id, encrypted.1, encrypted.2, newVersionNumber,
      some actorUserId⟩ : SecretVersion)
  commitPointer uow secret.id version.id
  return version

def listSecrets (environmentId organizationId actorUserId : UUID) : Tx (List Secret) := do
  let _ ← requireOrgRole uow organizationId actorUserId .viewer
  resolveEnvironmentOrg uow environmentId organizationId
  SecretRepository.listByEnvironment uow environmentId

/-- `uow.audit_logs.record` and its flush. -/
def recordReveal (organizationId actorUserId : UUID) (secret : Secret) (version : SecretVersion) :
    Tx Unit := do
  let _ ← uow.insertFlushed .auditLogs fun inp =>
    (⟨inp.uuid, some organizationId, some actorUserId, .reveal, .secret, some secret.id,
      some [("key_name", secret.keyName), ("version_id", toString version.id)], inp.now⟩ : AuditLog)

def getDecryptedValue (secretId organizationId actorUserId : UUID) : Tx String := do
  let _ ← requireOrgRole uow organizationId actorUserId .member
  let secret ← getOwnedSecret uow secretId organizationId
  match secret.currentVersionId with
  | none => throw ⟨.valueError, "Secret has no active versions."⟩
  | some currentVersionId =>
    let version ← SecretVersionRepository.get uow currentVersionId
    match version with
    | none => throw ⟨.valueError, "Current version record is missing."⟩
    | some version =>
      let encKey ← EncryptionKeyRepository.get uow version.encryptionKeyId
      match encKey with
      | none => throw ⟨.encryptionKeyNotFoundError,
          "Encryption key for this version is missing."⟩
      | some encKey =>
        let plainValue ← liftCrypto
          (CryptoService.decryptSecret kms version.encryptedValue version.iv encKey.wrappedDek)
        recordReveal uow organizationId actorUserId secret version
        UnitOfWork.commit
        return plainValue

def deleteSecret (secretId organizationId actorUserId : UUID) : Tx Unit := do
  let _ ← requireOrgRole uow organizationId actorUserId .member
  let secret ← getOwnedSecret uow secretId organizationId
  SecretRepository.softDelete uow secret.id
  UnitOfWork.commit

end SecretService

namespace AuditService
variable (uow : UnitOfWork)

def listForOrganization (organizationId actorUserId : UUID) (limit offset : ℕ) :
    Tx (List AuditLog) := do
  let _ ← requireOrgRole uow organizationId actorUserId .viewer
  AuditLogRepository.listByOrganization uow organizationId limit offset

end AuditService

end EnvVault
