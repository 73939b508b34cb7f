import EnvVault.RowSecurity
import EnvVault.Schema

/-!
# The row-level security policies of env-vault

The policies in force at the migration head, read from the memberships up: a
sub-SELECT of a policy sees the rows that the SELECT policies of its table let
through.
-/
namespace EnvVault
open EnvVault.Relational EnvVault.RowSecurity

/-- The database roles: the superuser of local deployments, the owner of the
schema in staging and production, and the role the application connects as. -/
inductive DbRole : Type
  | superuser
  | envvaultMigrate
  | envvaultApp
deriving DecidableEq

/-- FORCE ROW LEVEL SECURITY leaves the superuser alone outside the policies. -/
def DbRole.bypassesRls : DbRole → Bool
  | .superuser => true
  | .envvaultMigrate => false
  | .envvaultApp => false

/-- `app_setting_uuid` of the two settings: an empty setting is NULL. -/
structure RlsContext where
  currentUserId : Option UUID
  currentOrgId : Option UUID
deriving DecidableEq

def exists' {ρ : Type} (rows : List ρ) (cond : ρ → Truth) : Truth :=
  some (rows.any fun r => (cond r).passes)

/-- `x IN (SELECT ...)` over ids, which are never NULL. -/
def isIn (x : UUID) (ids : List UUID) : Truth := some (decide (x ∈ ids))

section
variable (owner : DbRole) (ctx : RlsContext) (db : Db)

/-- The policy `org_memberships_select`, given what `user_is_org_member` answers. -/
def orgMembershipsSelect (isMember : Truth) (r : Membership) : Truth :=
  (Truth.eq (some r.userId) ctx.currentUserId).or
    ((Truth.eq (some r.organizationId) ctx.currentOrgId).and isMember)

/-- `WHERE m.user_id = p_user_id AND m.organization_id = p_org_id`. -/
def isRowOf (pUserId pOrgId : Option UUID) (m : Membership) : Truth :=
  (Truth.eq (some m.userId) pUserId).and (Truth.eq (some m.organizationId) pOrgId)

/-- `user_is_org_member` is SECURITY DEFINER. An owner under FORCE ROW LEVEL
SECURITY reads `memberships` through `org_memberships_select`, which calls the
function again; the equalities of the query are leakproof and come first. -/
def userIsOrgMember : ℕ → Option UUID → Option UUID → Truth
  | 0, pUserId, pOrgId =>
    if owner.bypassesRls then exists' (db .memberships) (isRowOf pUserId pOrgId) else none
  | depth + 1, pUserId, pOrgId =>
    exists' ((db .memberships).filter fun m => (isRowOf pUserId pOrgId m).passes) fun m =>
      if owner.bypassesRls then some true
      else orgMembershipsSelect ctx
        (userIsOrgMember depth ctx.currentUserId ctx.currentOrgId) m

/-- How often the policy and the function may enter each other. -/
def maxPolicyDepth : ℕ := 8

def visibleMemberships : List Membership :=
  (db .memberships).filter fun m => (orgMembershipsSelect ctx
    (userIsOrgMember owner ctx db maxPolicyDepth ctx.currentUserId ctx.currentOrgId) m).passes

/-- A membership of the current user in this organization with one of these roles,
as far as the current user sees memberships. -/
def actorIn (organizationId : UUID) (roles : List MembershipRole) : Truth :=
  exists' (visibleMemberships owner ctx db) fun actor =>
    ((Truth.eq (some actor.organizationId) (some organizationId)).and
      (Truth.eq (some actor.userId) ctx.currentUserId)).and (some (decide (actor.role ∈ roles)))

def membershipPolicies : List (Policy Membership) :=
  let select := orgMembershipsSelect ctx
    (userIsOrgMember owner ctx db maxPolicyDepth ctx.currentUserId ctx.currentOrgId)
  let insert := fun r : Membership =>
    ((actorIn owner ctx db r.organizationId [.owner, .admin]).and
      (some (decide (r.role ∈ [.admin, .member, .viewer])))).or
    (((Truth.eq (some r.userId) ctx.currentUserId).and (some (decide (r.role = .owner)))).and
      (exists' (visibleMemberships owner ctx db) fun existing =>
        Truth.eq (some existing.organizationId) (some r.organizationId)).not)
  let update := fun r : Membership => actorIn owner ctx db r.organizationId [.owner, .admin]
  let delete := fun r : Membership =>
    (actorIn owner ctx db r.organizationId [.owner, .admin]).and
      ((Truth.eq (some r.userId) ctx.currentUserId).not.or
        (actorIn owner ctx db r.organizationId [.owner]))
  let updateCheck := fun r : Membership => (update r).and
    (Truth.or (some (decide (r.role ≠ .owner))) (actorIn owner ctx db r.organizationId [.owner]))
  perCommand select insert update updateCheck delete

def organizationPolicies : List (Policy Organization) :=
  let select := fun r : Organization => exists' (visibleMemberships owner ctx db) fun m =>
    (Truth.eq (some m.organizationId) (some r.id)).and (Truth.eq (some m.userId) ctx.currentUserId)
  let insert := fun _ : Organization => some ctx.currentUserId.isSome
  let update := fun r : Organization => actorIn owner ctx db r.id [.owner, .admin]
  let delete := fun r : Organization => actorIn owner ctx db r.id [.owner]
  perCommand select insert update update delete

def currentUserBelongsToCurrentOrg : Truth :=
  exists' (visibleMemberships owner ctx db) fun m =>
    (Truth.eq (some m.organizationId) ctx.currentOrgId).and
      (Truth.eq (some m.userId) ctx.currentUserId)

/-- The `org_isolation_*` policies of a table, one for each command with the same
condition, and its restrictive `org_context_member_*` policy. -/
def isolationPolicies {ρ : Type} (cond : ρ → Truth) : List (Policy ρ) :=
  let belongs := fun _ : ρ => currentUserBelongsToCurrentOrg owner ctx db
  ⟨.all, true, belongs, belongs⟩ :: perCommand cond cond cond cond cond

def projectPolicies : List (Policy Project) :=
  isolationPolicies owner ctx db fun r => Truth.eq (some r.organizationId) ctx.currentOrgId

def visibleProjects : List Project :=
  (db .projects).filter fun r => admits (projectPolicies owner ctx db) .select r

/-- `SELECT id FROM projects WHERE organization_id = ...`. -/
def currentProjectIds : List UUID :=
  ((visibleProjects owner ctx db).filter fun p =>
    (Truth.eq (some p.organizationId) ctx.currentOrgId).passes).map Project.id

def environmentPolicies : List (Policy Environment) :=
  isolationPolicies owner ctx db fun r => isIn r.projectId (currentProjectIds owner ctx db)

def visibleEnvironments : List Environment :=
  (db .environments).filter fun r => admits (environmentPolicies owner ctx db) .select r

/-- `SELECT e.id FROM environments e JOIN projects p ... WHERE p.organization_id = ...`. -/
def currentEnvironmentIds : List UUID :=
  ((visibleEnvironments owner ctx db).filter fun e =>
    decide (e.projectId ∈ currentProjectIds owner ctx db)).map Environment.id

def secretPolicies : List (Policy Secret) :=
  isolationPolicies owner ctx db fun r => isIn r.environmentId (currentEnvironmentIds owner ctx db)

def visibleSecrets : List Secret :=
  (db .secrets).filter fun r => admits (secretPolicies owner ctx db) .select r

/-- `SELECT s.id FROM secrets s JOIN environments e ... JOIN projects p ... WHERE ...`. -/
def currentSecretIds : List UUID :=
  ((visibleSecrets owner ctx db).filter fun s =>
    decide (s.environmentId ∈ currentEnvironmentIds owner ctx db)).map Secret.id

def secretVersionPolicies : List (Policy SecretVersion) :=
  isolationPolicies owner ctx db fun r => isIn r.secretId (currentSecretIds owner ctx db)

def encryptionKeyPolicies : List (Policy EncryptionKey) :=
  isolationPolicies owner ctx db fun r => isIn r.environmentId (currentEnvironmentIds owner ctx db)

def apiTokenPolicies : List (Policy ApiToken) :=
  isolationPolicies owner ctx db fun r => isIn r.projectId (currentProjectIds owner ctx db)

def auditLogPolicies : List (Policy AuditLog) :=
  isolationPolicies owner ctx db fun r => Truth.eq r.organizationId ctx.currentOrgId

/-- What the policies let a role outside the superuser do with a row; `users` and
`refresh_tokens` have no row-level security. -/
def policiesAdmit (a : Access) : (t : Table) → RowOf t → Bool
  | .users, _ => true
  | .refreshTokens, _ => true
  | .organizations, r => admits (organizationPolicies owner ctx db) a r
  | .memberships, r => admits (membershipPolicies owner ctx db) a r
  | .projects, r => admits (projectPolicies owner ctx db) a r
  | .environments, r => admits (environmentPolicies owner ctx db) a r
  | .encryptionKeys, r => admits (encryptionKeyPolicies owner ctx db) a r
  | .secrets, r => admits (secretPolicies owner ctx db) a r
  | .secretVersions, r => admits (secretVersionPolicies owner ctx db) a r
  | .apiTokens, r => admits (apiTokenPolicies owner ctx db) a r
  | .auditLogs, r => admits (auditLogPolicies owner ctx db) a r

end

/-- The role may access the row in this way. -/
def mayAccess (role owner : DbRole) (ctx : RlsContext) (db : Db) (a : Access) (t : Table)
    (r : RowOf t) : Bool :=
  role.bypassesRls || policiesAdmit owner ctx db a t r

@[simp] theorem passes_exists' {ρ : Type} (rows : List ρ) (cond : ρ → Truth) :
    (exists' rows cond).passes = true ↔ ∃ r ∈ rows, (cond r).passes = true := by
  simp [exists']

@[simp] theorem passes_isIn (x : UUID) (ids : List UUID) :
    (isIn x ids).passes = true ↔ x ∈ ids := by simp [isIn]

/-- The user of the context is a member of its organization. -/
def IsMember (ctx : RlsContext) (db : Db) : Prop :=
  ∃ m ∈ db .memberships, ctx.currentUserId = some m.userId ∧
    ctx.currentOrgId = some m.organizationId

section
variable {owner : DbRole} {ctx : RlsContext} {db : Db}

/-- For both owners of the schema the function answers as if it read past the
policies: the rows it asks for are the current user's own. -/
theorem passes_userIsOrgMember (depth : ℕ) :
    (userIsOrgMember owner ctx db (depth + 1) ctx.currentUserId ctx.currentOrgId).passes = true ↔
      IsMember ctx db := by
  have hrow : ∀ m : Membership, (isRowOf ctx.currentUserId ctx.currentOrgId m).passes = true ↔
      ctx.currentUserId = some m.userId ∧ ctx.currentOrgId = some m.organizationId := by
    simp [isRowOf, Truth.passes_eq_some]
  simp only [userIsOrgMember, passes_exists', List.mem_filter, hrow]
  constructor
  · rintro ⟨m, ⟨hm, hu⟩, -⟩
    exact ⟨m, hm, hu⟩
  · rintro ⟨m, hm, hu⟩
    refine ⟨m, ⟨hm, hu⟩, ?_⟩
    split
    · rfl
    · simp [orgMembershipsSelect, Truth.passes_eq_some, hu.1]

theorem passes_orgMembershipsSelect (depth : ℕ) (r : Membership) :
    (orgMembershipsSelect ctx
      (userIsOrgMember owner ctx db (depth + 1) ctx.currentUserId ctx.currentOrgId) r).passes =
        true ↔ ctx.currentUserId = some r.userId ∨
          ctx.currentOrgId = some r.organizationId ∧ IsMember ctx db := by
  rw [orgMembershipsSelect]
  simp only [Truth.passes_or, Truth.passes_and, Truth.passes_eq_some, Bool.or_eq_true,
    Bool.and_eq_true, decide_eq_true_eq, passes_userIsOrgMember]

/-- A user sees its own memberships, and those of the current organization when
it is a member of it. -/
theorem mem_visibleMemberships {m : Membership} : m ∈ visibleMemberships owner ctx db ↔
    m ∈ db .memberships ∧ (ctx.currentUserId = some m.userId ∨
      ctx.currentOrgId = some m.organizationId ∧ IsMember ctx db) := by
  rw [visibleMemberships, List.mem_filter]
  exact and_congr_right fun _ => passes_orgMembershipsSelect 7 m

/-- Membership questions about the current user are answered in full. -/
theorem passes_actorIn {organizationId : UUID} {roles : List MembershipRole} :
    (actorIn owner ctx db organizationId roles).passes = true ↔
      ∃ m ∈ db .memberships, m.organizationId = organizationId ∧
        ctx.currentUserId = some m.userId ∧ m.role ∈ roles := by
  simp only [actorIn, passes_exists', Truth.passes_and, Truth.passes_eq_some, Truth.passes_some,
    Bool.and_eq_true, decide_eq_true_eq, mem_visibleMemberships, Option.some.injEq]
  constructor
  · rintro ⟨m, ⟨hm, -⟩, ⟨ho, hu⟩, hr⟩
    exact ⟨m, hm, ho.symm, hu, hr⟩
  · rintro ⟨m, hm, ho, hu, hr⟩
    exact ⟨m, ⟨hm, Or.inl hu⟩, ⟨ho.symm, hu⟩, hr⟩

theorem passes_currentUserBelongsToCurrentOrg :
    (currentUserBelongsToCurrentOrg owner ctx db).passes = true ↔ IsMember ctx db := by
  simp only [currentUserBelongsToCurrentOrg, passes_exists', Truth.passes_and,
    Truth.passes_eq_some, Bool.and_eq_true, decide_eq_true_eq, mem_visibleMemberships, IsMember]
  constructor
  · rintro ⟨m, ⟨hm, -⟩, ho, hu⟩
    exact ⟨m, hm, hu, ho⟩
  · rintro ⟨m, hm, hu, ho⟩
    exact ⟨m, ⟨hm, Or.inl hu⟩, ho, hu⟩

/-- The isolation policies let a row through, whatever the command, when the user
belongs to the current organization and the condition is true of the row. -/
theorem admits_isolationPolicies {ρ : Type} (cond : ρ → Truth) (a : Access) (r : ρ) :
    admits (isolationPolicies owner ctx db cond) a r = true ↔
      IsMember ctx db ∧ (cond r).passes = true := by
  rw [isolationPolicies, admits_restrictive, Bool.and_eq_true,
    passes_currentUserBelongsToCurrentOrg, admits_perCommand]
  cases a <;> rfl

end

end EnvVault
