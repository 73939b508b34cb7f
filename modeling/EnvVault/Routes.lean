import EnvVault.SerialCalls

/-!
# The routes

A request has passed authentication, the validation of its schema and the rate limit: it is one
route with its path ids and its body, and comes with the current user. A route
opens the unit of work of its dependency, calls one service operation and answers
with a status code, and the exceptions that leave it go through the handlers that
`register_exception_handlers` has installed.
-/
namespace EnvVault
open EnvVault.Relational EnvVault.Transactions

/-- The modules the server runs with, and the roles of its database. -/
structure Server where
  deployment : Deployment
  role : DbRole
  schemaOwner : DbRole

inductive Request : Type
  | register (email password : String) (fullName : Option String)
  | login (email password : String)
  | refresh (refreshToken : String)
  | logout (refreshToken : String)
  | logoutAll
  | createOrganization (name slug : String)
  | listOrganizations
  | getOrganization (orgId : UUID)
  | updateOrganization (orgId : UUID) (name slug : Option String)
  | deleteOrganization (orgId : UUID)
  | listMemberships (orgId : UUID)
  | inviteMember (orgId : UUID) (email : String) (role : MembershipRole)
  | updateMembershipRole (orgId membershipId : UUID) (role : MembershipRole)
  | removeMember (orgId membershipId : UUID)
  | createProject (orgId : UUID) (name slug : String) (description : Option String)
  | listProjects (orgId : UUID)
  | getProject (orgId projectId : UUID)
  | updateProject (orgId projectId : UUID) (name slug description : Option String)
  | deleteProject (orgId projectId : UUID)
  | createEnvironment (orgId projectId : UUID) (name : String)
  | listEnvironments (orgId projectId : UUID)
  | getEnvironment (orgId projectId environmentId : UUID)
  | deleteEnvironment (orgId projectId environmentId : UUID)
  | listSecrets (orgId environmentId : UUID)
  | createSecret (orgId environmentId : UUID) (keyName value : String)
  | rotateSecret (orgId environmentId secretId : UUID) (value : String)
  | revealSecret (orgId environmentId secretId : UUID)
  | deleteSecret (orgId environmentId secretId : UUID)
  | listAuditLogs (orgId : UUID) (limit offset : ℕ)
deriving DecidableEq

/-- The body of an answer: the result of the operation, which the response model of the
route reads, or the detail of an error. -/
inductive Body : Type
  | reply (reply : Reply)
  | revealed (id : UUID) (keyName value : String)
  | detail (text : String)
deriving DecidableEq

structure Response where
  status : ℕ
  body : Body
deriving DecidableEq

namespace Request

/-- The path parameter of `get_org_uow`. -/
def orgId : Request → Option UUID
  | register .. | login .. | refresh .. | logout .. | logoutAll | createOrganization ..
  | listOrganizations => none
  | getOrganization orgId => orgId
  | updateOrganization orgId .. => orgId
  | deleteOrganization orgId => orgId
  | listMemberships orgId => orgId
  | inviteMember orgId .. => orgId
  | updateMembershipRole orgId .. => orgId
  | removeMember orgId .. => orgId
  | createProject orgId .. => orgId
  | listProjects orgId => orgId
  | getProject orgId .. => orgId
  | updateProject orgId .. => orgId
  | deleteProject orgId .. => orgId
  | createEnvironment orgId .. => orgId
  | listEnvironments orgId .. => orgId
  | getEnvironment orgId .. => orgId
  | deleteEnvironment orgId .. => orgId
  | listSecrets orgId .. => orgId
  | createSecret orgId .. => orgId
  | rotateSecret orgId .. => orgId
  | revealSecret orgId .. => orgId
  | deleteSecret orgId .. => orgId
  | listAuditLogs orgId .. => orgId

/-- The unit of work of the route: `get_auth_uow`, `get_user_uow` or `get_org_uow`. -/
def session (server : Server) (currentUser : UUID) (r : Request) : UnitOfWork :=
  match r with
  | register .. | login .. | refresh .. | logout .. =>
    ⟨none, none, server.role, server.schemaOwner⟩
  | r => ⟨some currentUser, r.orgId, server.role, server.schemaOwner⟩

/-- The service operation that the route invokes. The ids that name the parents of an
environment or of a secret do not reach it. -/
def op (currentUser : UUID) : Request → Op
  | register email password fullName => .register email password fullName
  | login email password => .login email password
  | refresh refreshToken => .refresh refreshToken
  | logout refreshToken => .logout refreshToken
  | logoutAll => .logoutAll currentUser
  | createOrganization name slug => .createOrganization name slug currentUser
  | listOrganizations => .listOrganizations
  | getOrganization orgId => .getOrganization orgId
  | updateOrganization orgId name slug => .updateOrganization orgId currentUser name slug
  | deleteOrganization orgId => .deleteOrganization orgId currentUser
  | listMemberships orgId => .listMemberships orgId currentUser
  | inviteMember orgId email role => .invite orgId email role currentUser
  | updateMembershipRole orgId membershipId role =>
    .updateRole orgId membershipId role currentUser
  | removeMember orgId membershipId => .removeMembership orgId membershipId currentUser
  | createProject orgId name slug description =>
    .createProject orgId name slug currentUser description
  | listProjects orgId => .listProjects orgId currentUser
  | getProject orgId projectId => .getProject projectId orgId currentUser
  | updateProject orgId projectId name slug description =>
    .updateProject projectId orgId currentUser name slug description
  | deleteProject orgId projectId => .deleteProject projectId orgId currentUser
  | createEnvironment orgId projectId name =>
    .createEnvironment projectId orgId name currentUser
  | listEnvironments orgId projectId => .listEnvironments projectId orgId currentUser
  | getEnvironment orgId _ environmentId => .getEnvironment environmentId orgId currentUser
  | deleteEnvironment orgId _ environmentId =>
    .deleteEnvironment environmentId orgId currentUser
  | listSecrets orgId environmentId => .listSecrets environmentId orgId currentUser
  | createSecret orgId environmentId keyName value =>
    .createSecret environmentId orgId keyName value currentUser
  | rotateSecret orgId _ secretId value => .addNewVersion secretId orgId value currentUser
  | revealSecret orgId _ secretId => .getDecryptedValue secretId orgId currentUser
  | deleteSecret orgId _ secretId => .deleteSecret secretId orgId currentUser
  | listAuditLogs orgId limit offset => .listAuditLogs orgId currentUser limit offset

def operation (d : Deployment) (uow : UnitOfWork) (currentUser : UUID) (r : Request) : Tx Reply :=
  (r.op currentUser).program d uow

/-- `secret = await uow.secrets.get(secret_id)` and `assert secret is not None`. -/
def reload (uow : UnitOfWork) (secretId : UUID) : Tx Secret := do
  let secret ← SecretRepository.get uow secretId
  match secret with
  | none => throw ⟨.assertionError, ""⟩
  | some secret => return secret

/-- What the route makes of the result. -/
def present (uow : UnitOfWork) : Request → Reply → Tx Body
  | rotateSecret _ _ secretId _, _ => do
    let secret ← reload uow secretId
    return .reply (.secret secret)
  | revealSecret _ _ secretId, .value value => do
    let secret ← reload uow secretId
    return .revealed secret.id secret.keyName value
  | _, reply => return .reply reply

def successStatus : Request → ℕ
  | register .. | createOrganization .. | inviteMember .. | createProject .. | createEnvironment ..
  | createSecret .. => 201
  | logout .. | logoutAll | deleteOrganization .. | removeMember .. | deleteProject ..
  | deleteEnvironment .. | deleteSecret .. => 204
  | _ => 200

def run (server : Server) (currentUser : UUID) (r : Request) : Tx Response := do
  let uow := r.session server currentUser
  let reply ← r.operation server.deployment uow currentUser
  let body ← r.present uow reply
  return ⟨r.successStatus, body⟩

/-- `get_org_uow` turns away a user who is not a member of the organization. -/
def handle (server : Server) (currentUser : UUID) (r : Request) : Tx Response :=
  match r.orgId with
  | none => r.run server currentUser
  | some orgId => do
    let membership ← MembershipRepository.getByUserAndOrg (r.session server currentUser)
      currentUser orgId
    if membership.isNone then return ⟨403, .detail "Not a member of this organization"⟩
    else r.run server currentUser

end Request

/-- `_STATUS_MAP`. -/
def statusMap : List (ExnClass × ℕ) :=
  [(.invalidCredentialsError, 401),
   (.invalidRefreshTokenError, 401),
   (.inactiveUserError, 403),
   (.insufficientRoleError, 403),
   (.membershipRequiredError, 403),
   (.lastOwnerError, 403),
   (.emailAlreadyRegisteredError, 409),
   (.organizationAlreadyExistsError, 409),
   (.membershipAlreadyExistsError, 409),
   (.projectAlreadyExistsError, 409),
   (.environmentAlreadyExistsError, 409),
   (.secretAlreadyExistsError, 409),
   (.organizationNotFoundError, 404),
   (.membershipNotFoundError, 404),
   (.userNotFoundError, 404),
   (.projectNotFoundError, 404),
   (.environmentNotFoundError, 404),
   (.secretNotFoundError, 404),
   (.encryptionKeyNotFoundError, 404),
   (.invalidMembershipRoleError, 422)]

def domainExceptionHandler (e : Exn) : Response :=
  ⟨(statusMap.lookup e.cls).getD 500, .detail e.detail⟩

/-- The handler is found by the class of the exception, which has no registered class among
its bases; an exception without a handler is an internal server error. -/
def respond : Except Exn Response → Response
  | .ok response => response
  | .error e =>
    if e.cls ∈ statusMap.map Prod.fst then domainExceptionHandler e
    else ⟨500, .detail "Internal Server Error"⟩

namespace Request

/-- The answer to a request that nothing else runs beside. -/
def response (server : Server) (inputs : ℕ → Input) (currentUser : UUID) (r : Request) (db : Db) :
    Response :=
  respond (alone inputs (r.handle server currentUser) db).1

end Request

/-- A server on the local database. -/
def sampleServer : Server := ⟨sampleDeployment, .envvaultApp, .superuser⟩

end EnvVault
