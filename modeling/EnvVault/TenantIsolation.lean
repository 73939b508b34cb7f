import EnvVault.Policies

/-!
# Tenant isolation

The organization of a row is found at the end of its parent chain. The policies
of the seven tenant tables let the application role at a row exactly when the
context names a member and the organization of the row is that of the context.
-/
namespace EnvVault
open EnvVault.Relational EnvVault.RowSecurity

def tenantTables : List Table :=
  [.projects, .environments, .secrets, .secretVersions, .encryptionKeys, .apiTokens, .auditLogs]

section
variable (db : Db) (o : UUID)

def ProjectIn (projectId : UUID) : Prop :=
  ∃ p ∈ db .projects, p.id = projectId ∧ p.organizationId = o

def EnvironmentIn (environmentId : UUID) : Prop :=
  ∃ e ∈ db .environments, e.id = environmentId ∧ ProjectIn db o e.projectId

def SecretIn (secretId : UUID) : Prop :=
  ∃ s ∈ db .secrets, s.id = secretId ∧ EnvironmentIn db o s.environmentId

/-- The parent chain of the row, existing or proposed, ends in organization `o`. -/
def InOrganization : (t : Table) → RowOf t → Prop
  | .projects, r => r.organizationId = o
  | .environments, r => ProjectIn db o r.projectId
  | .secrets, r => EnvironmentIn db o r.environmentId
  | .secretVersions, r => SecretIn db o r.secretId
  | .encryptionKeys, r => EnvironmentIn db o r.environmentId
  | .apiTokens, r => ProjectIn db o r.projectId
  | .auditLogs, r => r.organizationId = some o
  | .organizations, r => r.id = o
  | .memberships, r => r.organizationId = o
  | .users, _ => False
  | .refreshTokens, _ => False

end

section
variable {owner : DbRole} {ctx : RlsContext} {db : Db}

/-- The context names a member of organization `o`. -/
def MemberOf (ctx : RlsContext) (db : Db) (o : UUID) : Prop :=
  IsMember ctx db ∧ ctx.currentOrgId = some o

theorem mem_currentProjectIds {x : UUID} : x ∈ currentProjectIds owner ctx db ↔
    ∃ o, MemberOf ctx db o ∧ ProjectIn db o x := by
  simp only [currentProjectIds, visibleProjects, List.mem_map, List.mem_filter, projectPolicies,
    admits_isolationPolicies, Truth.passes_eq_some, decide_eq_true_eq, MemberOf, ProjectIn]
  constructor
  · rintro ⟨p, ⟨⟨hp, hm, ho⟩, -⟩, rfl⟩
    exact ⟨p.organizationId, ⟨hm, ho⟩, p, hp, rfl, rfl⟩
  · rintro ⟨o, ⟨hm, ho⟩, p, hp, rfl, rfl⟩
    exact ⟨p, ⟨⟨hp, hm, ho⟩, ho⟩, rfl⟩

theorem mem_currentEnvironmentIds {x : UUID} : x ∈ currentEnvironmentIds owner ctx db ↔
    ∃ o, MemberOf ctx db o ∧ EnvironmentIn db o x := by
  simp only [currentEnvironmentIds, visibleEnvironments, List.mem_map, List.mem_filter,
    environmentPolicies, admits_isolationPolicies, passes_isIn, decide_eq_true_eq,
    mem_currentProjectIds]
  constructor
  · rintro ⟨e, ⟨⟨he, -⟩, o, hm, hp⟩, rfl⟩
    exact ⟨o, hm, e, he, rfl, hp⟩
  · rintro ⟨o, hm, e, he, rfl, hp⟩
    exact ⟨e, ⟨⟨he, hm.1, o, hm, hp⟩, o, hm, hp⟩, rfl⟩

theorem mem_currentSecretIds {x : UUID} : x ∈ currentSecretIds owner ctx db ↔
    ∃ o, MemberOf ctx db o ∧ SecretIn db o x := by
  simp only [currentSecretIds, visibleSecrets, List.mem_map, List.mem_filter, secretPolicies,
    admits_isolationPolicies, passes_isIn, decide_eq_true_eq, mem_currentEnvironmentIds]
  constructor
  · rintro ⟨s, ⟨⟨hs, -⟩, o, hm, he⟩, rfl⟩
    exact ⟨o, hm, s, hs, rfl, he⟩
  · rintro ⟨o, hm, s, hs, rfl, he⟩
    exact ⟨s, ⟨⟨hs, hm.1, o, hm, he⟩, o, hm, he⟩, rfl⟩

/-- The policies of a tenant table, whatever the command. -/
theorem policiesAdmit_tenant {t : Table} (ht : t ∈ tenantTables) (a : Access) (r : RowOf t) :
    policiesAdmit owner ctx db a t r = true ↔ ∃ o, MemberOf ctx db o ∧ InOrganization db o t r := by
  have hand : ∀ p : UUID → Prop, (IsMember ctx db ∧ ∃ o, MemberOf ctx db o ∧ p o) ↔
      ∃ o, MemberOf ctx db o ∧ p o := by
    intro p
    refine and_iff_right_of_imp ?_
    rintro ⟨_, hm, _⟩
    exact hm.1
  simp only [tenantTables, List.mem_cons, List.not_mem_nil, or_false] at ht
  rcases ht with rfl | rfl | rfl | rfl | rfl | rfl | rfl
  · simp only [policiesAdmit, projectPolicies, admits_isolationPolicies, Truth.passes_eq_some,
      decide_eq_true_eq, InOrganization, MemberOf]
    constructor
    · rintro ⟨hm, ho⟩
      exact ⟨_, ⟨hm, ho⟩, rfl⟩
    · rintro ⟨o, ⟨hm, ho⟩, rfl⟩
      exact ⟨hm, ho⟩
  · simp only [policiesAdmit, environmentPolicies, admits_isolationPolicies, passes_isIn,
      mem_currentProjectIds, InOrganization, hand]
  · simp only [policiesAdmit, secretPolicies, admits_isolationPolicies, passes_isIn,
      mem_currentEnvironmentIds, InOrganization, hand]
  · simp only [policiesAdmit, secretVersionPolicies, admits_isolationPolicies, passes_isIn,
      mem_currentSecretIds, InOrganization, hand]
  · simp only [policiesAdmit, encryptionKeyPolicies, admits_isolationPolicies, passes_isIn,
      mem_currentEnvironmentIds, InOrganization, hand]
  · simp only [policiesAdmit, apiTokenPolicies, admits_isolationPolicies, passes_isIn,
      mem_currentProjectIds, InOrganization, hand]
  · simp only [policiesAdmit, auditLogPolicies, admits_isolationPolicies, Truth.passes_eq,
      InOrganization, MemberOf]
    constructor
    · rintro ⟨hm, o, hr, ho⟩
      exact ⟨o, ⟨hm, ho⟩, hr⟩
    · rintro ⟨o, ⟨hm, ho⟩, hr⟩
      exact ⟨hm, o, hr, ho⟩

end

/-- Row-level security isolates tenants exactly: the application role may read,
insert, update from, update to or delete a row of a tenant table if and only if
the context is a membership of the database and the organization of the row is
the one of the context. -/
theorem rowSecurity_isolates_tenants (owner : DbRole) (ctx : RlsContext) (db : Db) (t : Table)
    (ht : t ∈ tenantTables) (a : Access) (r : RowOf t) :
    mayAccess .envvaultApp owner ctx db a t r = true ↔
      ∃ u o, ctx.currentUserId = some u ∧ ctx.currentOrgId = some o ∧
        (∃ m ∈ db .memberships, m.userId = u ∧ m.organizationId = o) ∧
          InOrganization db o t r := by
  have happ : mayAccess .envvaultApp owner ctx db a t r = policiesAdmit owner ctx db a t r := by
    simp [mayAccess, DbRole.bypassesRls]
  rw [happ, policiesAdmit_tenant ht]
  constructor
  · rintro ⟨o, ⟨⟨m, hm, hu, ho'⟩, ho⟩, hr⟩
    refine ⟨m.userId, o, hu, ho, ⟨m, hm, rfl, ?_⟩, hr⟩
    exact Option.some.inj (ho'.symm.trans ho)
  · rintro ⟨u, o, hu, ho, ⟨m, hm, rfl, rfl⟩, hr⟩
    exact ⟨m.organizationId, ⟨⟨m, hm, hu, ho⟩, ho⟩, hr⟩

/-- Organization 10 with member 1 and project 20. -/
def oneProjectDb : Db
  | .memberships => [⟨11, 1, 10, .viewer, none, 0⟩]
  | .projects => [⟨20, 10, "billing", "billing", none, none⟩]
  | _ => []

theorem rowSecurity_isolates_tenants_oneProject :
    mayAccess .envvaultApp .envvaultMigrate ⟨some 1, some 10⟩ oneProjectDb .select .environments
      (⟨30, 20, "prod"⟩ : Environment) = true :=
  (rowSecurity_isolates_tenants .envvaultMigrate ⟨some 1, some 10⟩ oneProjectDb .environments
    (by decide) .select ⟨30, 20, "prod"⟩).mpr
    ⟨1, 10, rfl, rfl, ⟨⟨11, 1, 10, .viewer, none, 0⟩, List.mem_singleton.mpr rfl, rfl, rfl⟩,
      ⟨20, 10, "billing", "billing", none, none⟩, List.mem_singleton.mpr rfl, rfl, rfl⟩

end EnvVault
