import EnvVault.UnitOfWork

/-!
# Repositories

The queries of the repositories, under the names the services call them by.
-/
namespace EnvVault
open EnvVault.Relational EnvVault.Transactions

/-- The identity map of a session: a row it has loaded before comes back as the
object it already holds. -/
def identityMap {α : Type} (key : α → UUID) (loaded found : α) : α :=
  if key loaded = key found then loaded else found

namespace UserRepository
variable (uow : UnitOfWork)

def get (id : UUID) : Tx (Option User) := uow.get .users id

/-- The column is case-insensitive. -/
def getByEmail (email : String) : Tx (Option User) :=
  uow.selectOne .users fun u => sameEmail u.email email

end UserRepository

namespace RefreshTokenRepository
variable (uow : UnitOfWork)

def getByTokenHash (tokenHash : String) : Tx (Option RefreshToken) :=
  uow.selectOne .refreshTokens fun t => t.tokenHash == tokenHash

/-- The row count is not returned. -/
def revoke (tokenId : UUID) : Tx Unit := do
  let _ ← uow.updateById .refreshTokens tokenId (fun t => t.revokedAt.isNone)
    fun inp t => { t with revokedAt := some inp.now }

/-- Every token of the user that is not revoked yet. -/
def revokeAllForUser (userId : UUID) : Tx Unit :=
  uow.updateWhere .refreshTokens (fun t => t.userId == userId && t.revokedAt.isNone)
    fun inp t => { t with revokedAt := some inp.now }

end RefreshTokenRepository

/-- The body of the SECURITY DEFINER function: it runs as the owner of the schema
with the settings of the caller. -/
def createOrganizationWithOwner (uow : UnitOfWork) (name slug : String) (pUserId : UUID)
    (inp : Input) (v : Db) : Except Exn (List RowWrite × Organization) :=
  let definer := { uow with role := uow.schemaOwner }
  let newOrg : Organization := ⟨inp.uuid, name, slug⟩
  let v' := vaultSchema.apply (.insert .organizations newOrg) v
  let ownership : Membership := ⟨inp.secondUuid, pUserId, newOrg.id, .owner, none, inp.now⟩
  if uow.userId = none then
    .error ⟨.insufficientPrivilege, "app.current_user_id must be set to create an organization"⟩
  else if uow.userId ≠ some pUserId then
    .error ⟨.insufficientPrivilege, "p_user_id must match app.current_user_id"⟩
  else if !((v .users).any fun u : User => u.id == pUserId) then
    .error ⟨.integrityError, "user " ++ toString pUserId ++ " does not exist"⟩
  -- INSERT ... RETURNING * INTO new_org
  else if !(definer.may v .insert .organizations newOrg &&
      definer.may v .select .organizations newOrg) then .error (rlsViolation .organizations)
  else if !vaultSchema.admitsInsert .organizations newOrg v then
    .error (integrityViolation .organizations)
  else if !definer.may v' .insert .memberships ownership then .error (rlsViolation .memberships)
  else if !vaultSchema.admitsInsert .memberships ownership v' then
    .error (integrityViolation .memberships)
  else .ok ([.insert .organizations newOrg, .insert .memberships ownership], newOrg)

namespace OrganizationRepository
variable (uow : UnitOfWork)

def get (id : UUID) : Tx (Option Organization) := uow.get .organizations id

def getBySlug (slug : String) : Tx (Option Organization) :=
  uow.selectOne .organizations fun o => o.slug == slug

/-- Which organizations these are is left to the policies. -/
def listVisible : Tx (List Organization) := do
  let rows ← uow.select .organizations fun _ => true
  return rows.mergeSort fun a b => decide (a.name ≤ b.name)

/-- The new row is read back under the policies of the caller. -/
def createWithOwner (name slug : String) (userId : UUID) : Tx Organization := do
  let row ← Prog.statement (createOrganizationWithOwner uow name slug userId)
  let org ← get uow row.id
  match org with
  | none => throw ⟨.runtimeError, "Organization created but not visible under RLS; ensure " ++
      "app.current_user_id matches the owner user_id."⟩
  | some org => return org

def delete (id : UUID) : Tx Unit := uow.delete .organizations id

end OrganizationRepository

namespace MembershipRepository
variable (uow : UnitOfWork)

def get (id : UUID) : Tx (Option Membership) := uow.get .memberships id

def getByUserAndOrg (userId organizationId : UUID) : Tx (Option Membership) :=
  uow.selectOne .memberships fun m => m.userId == userId && m.organizationId == organizationId

def listByOrganization (organizationId : UUID) : Tx (List Membership) := do
  let rows ← uow.select .memberships fun m => m.organizationId == organizationId
  return rows.mergeSort fun a b => decide (a.createdAt ≤ b.createdAt)

/-- The query takes no lock on the rows that it counts. -/
def countOwners (organizationId : UUID) : Tx ℕ := do
  let rows ← uow.select .memberships fun m =>
    m.organizationId == organizationId && m.role == MembershipRole.owner
  return rows.length

def delete (id : UUID) : Tx Unit := uow.delete .memberships id

end MembershipRepository

namespace ProjectRepository
variable (uow : UnitOfWork)

def get (id : UUID) : Tx (Option Project) := uow.get .projects id

def listByOrganization (organizationId : UUID) : Tx (List Project) := do
  let rows ← uow.select .projects fun p => p.organizationId == organizationId
  return rows.mergeSort fun a b => decide (a.name ≤ b.name)

def getByOrgAndSlug (organizationId : UUID) (slug : String) : Tx (Option Project) :=
  uow.selectOne .projects fun p => p.organizationId == organizationId && p.slug == slug

def delete (id : UUID) : Tx Unit := uow.delete .projects id

end ProjectRepository

namespace EnvironmentRepository
variable (uow : UnitOfWork)

def get (id : UUID) : Tx (Option Environment) := uow.get .environments id

def getByProject (projectId : UUID) : Tx (List Environment) := do
  let rows ← uow.select .environments fun e => e.projectId == projectId
  return rows.mergeSort fun a b => decide (a.name ≤ b.name)

def getByProjectAndName (projectId : UUID) (name : String) : Tx (Option Environment) :=
  uow.selectOne .environments fun e => e.projectId == projectId && e.name == name

def delete (id : UUID) : Tx Unit := uow.delete .environments id

end EnvironmentRepository

namespace SecretRepository
variable (uow : UnitOfWork)

def get (id : UUID) : Tx (Option Secret) := uow.get .secrets id

/-- A deleted secret keeps its row, but not its name. -/
def getByEnvironmentAndName (environmentId : UUID) (keyName : String) : Tx (Option Secret) :=
  uow.selectOne .secrets fun s =>
    s.environmentId == environmentId && s.keyName == keyName && !s.isDeleted

def listByEnvironment (environmentId : UUID) : Tx (List Secret) := do
  let rows ← uow.select .secrets fun s => s.environmentId == environmentId && !s.isDeleted
  return rows.mergeSort fun a b => decide (a.keyName ≤ b.keyName)

/-- The versions of the secret stay. -/
def softDelete (id : UUID) : Tx Unit := do
  let _ ← uow.updateById .secrets id (fun _ => true)
    fun inp s => { s with isDeleted := true, deletedAt := some inp.now }

end SecretRepository

namespace SecretVersionRepository
variable (uow : UnitOfWork)

def get (id : UUID) : Tx (Option SecretVersion) := uow.get .secretVersions id

/-- The first version with the greatest number, as `ORDER BY ... DESC LIMIT 1`. -/
def latest : List SecretVersion → Option SecretVersion
  | [] => none
  | v :: vs =>
    match latest vs with
    | none => some v
    | some w => if w.versionNumber ≤ v.versionNumber then some v else some w

omit uow in
theorem mem_of_latest {vs : List SecretVersion} {v : SecretVersion} (h : latest vs = some v) :
    v ∈ vs := by
  induction vs with
  | nil => cases h
  | cons w vs ih =>
    simp only [latest] at h
    split at h
    · exact Option.some.inj h ▸ List.mem_cons_self
    · rename_i u hu
      split at h
      · exact Option.some.inj h ▸ List.mem_cons_self
      · exact List.mem_cons_of_mem _ (ih (hu.trans h))

def getLatestForSecret (secretId : UUID) : Tx (Option SecretVersion) := do
  let rows ← uow.select .secretVersions fun v => v.secretId == secretId
  return latest rows

end SecretVersionRepository

namespace EncryptionKeyRepository
variable (uow : UnitOfWork)

def get (id : UUID) : Tx (Option EncryptionKey) := uow.get .encryptionKeys id

/-- A partial index keeps a second active key out. -/
def getActiveForEnvironment (environmentId : UUID) : Tx (Option EncryptionKey) :=
  uow.selectOne .encryptionKeys fun k => k.environmentId == environmentId && k.isActive

end EncryptionKeyRepository

namespace AuditLogRepository
variable (uow : UnitOfWork)

/-- The latest entries first. -/
def listByOrganization (organizationId : UUID) (limit offset : ℕ) : Tx (List AuditLog) := do
  let rows ← uow.select .auditLogs fun a => a.organizationId == some organizationId
  return ((rows.mergeSort fun a b => decide (b.createdAt ≤ a.createdAt)).drop offset).take limit

end AuditLogRepository

end EnvVault
