import EnvVault.AuthService
import EnvVault.VaultServices

/-!
# Service calls

A call is one method of a service with its arguments and its unit of work.
-/
namespace EnvVault
open EnvVault.Relational EnvVault.Transactions

/-- The methods of the services, with the arguments of the call. -/
inductive Op : Type
  | register (email password : String) (fullName : Option String)
  | login (email password : String)
  | refresh (rawRefreshToken : String)
  | logout (rawRefreshToken : String)
  | logoutAll (userId : UUID)
  | createOrganization (name slug : String) (userId : UUID)
  | listOrganizations
  | getOrganization (organizationId : UUID)
  | updateOrganization (organizationId actorUserId : UUID) (name slug : Option String)
  | deleteOrganization (organizationId actorUserId : UUID)
  | listMemberships (organizationId actorUserId : UUID)
  | invite (organizationId : UUID) (email : String) (role : MembershipRole) (actorUserId : UUID)
  | updateRole (organizationId membershipId : UUID) (newRole : MembershipRole) (actorUserId : UUID)
  | removeMembership (organizationId membershipId actorUserId : UUID)
  | createProject (organizationId : UUID) (name slug : String) (actorUserId : UUID)
      (description : Option String)
  | listProjects (organizationId actorUserId : UUID)
  | getProject (projectId organizationId actorUserId : UUID)
  | updateProject (projectId organizationId actorUserId : UUID)
      (name slug description : Option String)
  | deleteProject (projectId organizationId actorUserId : UUID)
  | createEnvironment (projectId organizationId : UUID) (name : String) (actorUserId : UUID)
  | listEnvironments (projectId organizationId actorUserId : UUID)
  | getEnvironment (environmentId organizationId actorUserId : UUID)
  | deleteEnvironment (environmentId organizationId actorUserId : UUID)
  | createSecret (environmentId organizationId : UUID) (keyName plainValue : String)
      (actorUserId : UUID)
  | addNewVersion (secretId organizationId : UUID) (plainValue : String) (actorUserId : UUID)
  | listSecrets (environmentId organizationId actorUserId : UUID)
  | getDecryptedValue (secretId organizationId actorUserId : UUID)
  | deleteSecret (secretId organizationId actorUserId : UUID)
  | listAuditLogs (organizationId actorUserId : UUID) (limit offset : ℕ)
deriving DecidableEq

/-- What a call returns. -/
inductive Reply : Type
  | unit
  | user (user : User)
  | tokens (tokens : TokenPair)
  | organization (organization : Organization)
  | organizations (organizations : List Organization)
  | membership (membership : Membership)
  | memberships (memberships : List Membership)
  | project (project : Project)
  | projects (projects : List Project)
  | environment (environment : Environment)
  | environments (environments : List Environment)
  | secret (secret : Secret)
  | secrets (secrets : List Secret)
  | version (version : SecretVersion)
  | value (plainValue : String)
  | auditLogs (entries : List AuditLog)
deriving DecidableEq

/-- The security modules and the KMS provider a deployment runs with. -/
structure Deployment where
  security : SecurityModules
  kms : LocalKMSProvider

structure ServiceCall where
  op : Op
  uow : UnitOfWork

namespace Op
variable (d : Deployment) (uow : UnitOfWork)

/-- The program of the method, with its result as a reply. -/
def program : Op → Tx Reply
  | register email password fullName =>
    Reply.user <$> AuthService.register d.security uow email password fullName
  | login email password => Reply.tokens <$> AuthService.login d.security uow email password
  | refresh raw => Reply.tokens <$> AuthService.refresh d.security uow raw
  | logout raw => (fun _ => Reply.unit) <$> AuthService.logout d.security uow raw
  | logoutAll userId => (fun _ => Reply.unit) <$> AuthService.logoutAll uow userId
  | createOrganization name slug userId =>
    Reply.organization <$> OrganizationService.create uow name slug userId
  | listOrganizations => Reply.organizations <$> OrganizationService.listForUser uow
  | getOrganization org => Reply.organization <$> OrganizationService.get uow org
  | updateOrganization org actor name slug =>
    Reply.organization <$> OrganizationService.update uow org actor name slug
  | deleteOrganization org actor =>
    (fun _ => Reply.unit) <$> OrganizationService.delete uow org actor
  | listMemberships org actor => Reply.memberships <$> MembershipService.list uow org actor
  | invite org email role actor =>
    Reply.membership <$> MembershipService.invite uow org email role actor
  | updateRole org id newRole actor =>
    Reply.membership <$> MembershipService.updateRole uow org id newRole actor
  | removeMembership org id actor =>
    (fun _ => Reply.unit) <$> MembershipService.remove uow org id actor
  | createProject org name slug actor description =>
    Reply.project <$> ProjectService.create uow org name slug actor description
  | listProjects org actor => Reply.projects <$> ProjectService.list uow org actor
  | getProject id org actor => Reply.project <$> ProjectService.get uow id org actor
  | updateProject id org actor name slug description =>
    Reply.project <$> ProjectService.update uow id org actor name slug description
  | deleteProject id org actor => (fun _ => Reply.unit) <$> ProjectService.delete uow id org actor
  | createEnvironment project org name actor =>
    Reply.environment <$> EnvironmentService.create d.kms uow project org name actor
  | listEnvironments project org actor =>
    Reply.environments <$> EnvironmentService.list uow project org actor
  | getEnvironment id org actor => Reply.environment <$> EnvironmentService.get uow id org actor
  | deleteEnvironment id org actor =>
    (fun _ => Reply.unit) <$> EnvironmentService.delete uow id org actor
  | createSecret environment org keyName plainValue actor =>
    Reply.secret <$> SecretService.createSecret d.kms uow environment org keyName plainValue actor
  | addNewVersion secret org plainValue actor =>
    Reply.version <$> SecretService.addNewVersion d.kms uow secret org plainValue actor
  | listSecrets environment org actor =>
    Reply.secrets <$> SecretService.listSecrets uow environment org actor
  | getDecryptedValue secret org actor =>
    Reply.value <$> SecretService.getDecryptedValue d.kms uow secret org actor
  | deleteSecret secret org actor =>
    (fun _ => Reply.unit) <$> SecretService.deleteSecret uow secret org actor
  | listAuditLogs org actor limit offset =>
    Reply.auditLogs <$> AuditService.listForOrganization uow org actor limit offset

/-- The tables a method writes to; the DELETE of a container can
reach any table. -/
def tables : Op → List Table
  | register .. => [.users]
  | login .. => [.refreshTokens]
  | refresh .. => [.refreshTokens]
  | logout .. => [.refreshTokens]
  | logoutAll .. => [.refreshTokens]
  | createOrganization .. => [.organizations, .memberships]
  | updateOrganization .. => [.organizations]
  | invite .. => [.memberships]
  | updateRole .. => [.memberships]
  | removeMembership .. => [.memberships]
  | createProject .. => [.projects]
  | updateProject .. => [.projects]
  | createEnvironment .. => [.environments, .encryptionKeys]
  | createSecret .. => [.secrets, .secretVersions]
  | addNewVersion .. => [.secrets, .secretVersions]
  | getDecryptedValue .. => [.auditLogs]
  | deleteSecret .. => [.secrets]
  | deleteOrganization .. => allTables
  | deleteProject .. => allTables
  | deleteEnvironment .. => allTables
  | _ => []

/-- The calls that issue and revoke refresh tokens, and the registration. -/
def authenticates : Op → Bool
  | .register .. => true
  | .login .. => true
  | .refresh .. => true
  | .logout .. => true
  | .logoutAll .. => true
  | _ => false

end Op

def ServiceCall.program (d : Deployment) (c : ServiceCall) : Tx Reply := c.op.program d c.uow

end EnvVault
