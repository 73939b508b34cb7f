import EnvVault.CascadeLevels

/-!
# The schema of env-vault

Tables, columns, constraints and foreign keys as the migrations leave them.
-/
namespace EnvVault
open EnvVault.Relational

abbrev UUID : Type := ℕ

abbrev Timestamp : Type := ℕ

abbrev Bytes : Type := List UInt8

/-- The enum `membership_role`. -/
inductive MembershipRole : Type
  | owner
  | admin
  | member
  | viewer
deriving DecidableEq, Repr

/-- The enum `audit_action`. -/
inductive AuditAction : Type
  | create
  | update
  | delete
  | reveal
  | rollback
  | login
  | loginFailed
  | invite
  | roleChange
deriving DecidableEq, Repr

/-- The enum `audit_resource_type`. -/
inductive AuditResourceType : Type
  | organization
  | project
  | environment
  | secret
  | membership
  | apiToken
deriving DecidableEq, Repr

structure User where
  id : UUID
  email : String
  passwordHash : Option String
  fullName : Option String
  isActive : Bool
deriving DecidableEq, Repr

structure RefreshToken where
  id : UUID
  userId : UUID
  tokenHash : String
  expiresAt : Timestamp
  revokedAt : Option Timestamp
deriving DecidableEq, Repr

structure Organization where
  id : UUID
  name : String
  slug : String
deriving DecidableEq, Repr

structure Membership where
  id : UUID
  userId : UUID
  organizationId : UUID
  role : MembershipRole
  invitedBy : Option UUID
  createdAt : Timestamp
deriving DecidableEq, Repr

structure Project where
  id : UUID
  organizationId : UUID
  name : String
  slug : String
  description : Option String
  createdBy : Option UUID
deriving DecidableEq, Repr

structure Environment where
  id : UUID
  projectId : UUID
  name : String
deriving DecidableEq, Repr

structure ApiToken where
  id : UUID
  projectId : UUID
  tokenHash : String
  createdBy : Option UUID
deriving DecidableEq, Repr

structure EncryptionKey where
  id : UUID
  environmentId : UUID
  wrappedDek : Bytes
  keyVersion : ℕ
  algorithm : String
  isActive : Bool
deriving DecidableEq, Repr

structure Secret where
  id : UUID
  environmentId : UUID
  keyName : String
  currentVersionId : Option UUID
  isDeleted : Bool
  deletedAt : Option Timestamp
deriving DecidableEq, Repr

structure SecretVersion where
  id : UUID
  secretId : UUID
  encryptionKeyId : UUID
  encryptedValue : Bytes
  iv : Bytes
  versionNumber : ℕ
  createdBy : Option UUID
deriving DecidableEq, Repr

structure AuditLog where
  id : UUID
  organizationId : Option UUID
  userId : Option UUID
  action : AuditAction
  resourceType : AuditResourceType
  resourceId : Option UUID
  metadata : Option (List (String × String))
  createdAt : Timestamp
deriving DecidableEq, Repr

inductive Table : Type
  | users
  | refreshTokens
  | organizations
  | memberships
  | projects
  | environments
  | encryptionKeys
  | secrets
  | secretVersions
  | apiTokens
  | auditLogs
deriving DecidableEq, Repr

def allTables : List Table :=
  [.users, .refreshTokens, .organizations, .memberships, .projects, .environments, .encryptionKeys,
    .secrets, .secretVersions, .apiTokens, .auditLogs]

theorem mem_allTables (t : Table) : t ∈ allTables := by cases t <;> decide

@[reducible] def RowOf : Table → Type
  | .users => User
  | .refreshTokens => RefreshToken
  | .organizations => Organization
  | .memberships => Membership
  | .projects => Project
  | .environments => Environment
  | .encryptionKeys => EncryptionKey
  | .secrets => Secret
  | .secretVersions => SecretVersion
  | .apiTokens => ApiToken
  | .auditLogs => AuditLog

def rowId : (t : Table) → RowOf t → UUID
  | .users, r => r.id
  | .refreshTokens, r => r.id
  | .organizations, r => r.id
  | .memberships, r => r.id
  | .projects, r => r.id
  | .environments, r => r.id
  | .encryptionKeys, r => r.id
  | .secrets, r => r.id
  | .secretVersions, r => r.id
  | .apiTokens, r => r.id
  | .auditLogs, r => r.id

abbrev Db : Type := Store RowOf

abbrev RowWrite : Type := Write RowOf UUID

/-- `email` is CITEXT: compared without regard to case. -/
def sameEmail (a b : String) : Bool := a.toLower == b.toLower

/-- The unique constraints and unique indexes of a table. -/
def uniqueOf : (t : Table) → List (RowOf t → RowOf t → Bool)
  | .users => [fun a b => sameEmail a.email b.email]
  | .refreshTokens => [fun a b => a.tokenHash == b.tokenHash]
  | .organizations => [fun a b => a.slug == b.slug]
  | .memberships => [fun a b => a.userId == b.userId && a.organizationId == b.organizationId]
  | .projects => [fun a b => a.organizationId == b.organizationId && a.slug == b.slug]
  | .environments => [fun a b => a.projectId == b.projectId && a.name == b.name]
  | .encryptionKeys =>
    [fun a b => a.environmentId == b.environmentId && a.keyVersion == b.keyVersion,
      -- uq_one_active_key_per_env is a partial index
      fun a b => a.isActive && b.isActive && a.environmentId == b.environmentId]
  | .secrets => [fun a b => a.environmentId == b.environmentId && a.keyName == b.keyName]
  | .secretVersions =>
    [fun a b => a.encryptionKeyId == b.encryptionKeyId && a.iv == b.iv,
      fun a b => a.secretId == b.secretId && a.versionNumber == b.versionNumber]
  | .apiTokens => [fun a b => a.tokenHash == b.tokenHash]
  | .auditLogs => []

/-- The foreign keys in the order the migrations create them; the one from
`secret_versions` to `secrets` was dropped and created again. -/
def foreignKeyList : List (ForeignKey RowOf UUID) :=
  [⟨.memberships, .users, Membership.invitedBy,
      .setNull (fun r : Membership => { r with invitedBy := none }), false⟩,
    ⟨.memberships, .organizations, fun r : Membership => some r.organizationId, .cascade, false⟩,
    ⟨.memberships, .users, fun r : Membership => some r.userId, .cascade, false⟩,
    ⟨.projects, .users, Project.createdBy,
      .setNull (fun r : Project => { r with createdBy := none }), false⟩,
    ⟨.projects, .organizations, fun r : Project => some r.organizationId, .cascade, false⟩,
    ⟨.environments, .projects, fun r : Environment => some r.projectId, .cascade, false⟩,
    ⟨.encryptionKeys, .environments, fun r : EncryptionKey => some r.environmentId, .cascade,
      false⟩,
    ⟨.secrets, .environments, fun r : Secret => some r.environmentId, .cascade, false⟩,
    ⟨.secretVersions, .users, SecretVersion.createdBy,
      .setNull (fun r : SecretVersion => { r with createdBy := none }), false⟩,
    ⟨.secretVersions, .encryptionKeys, fun r : SecretVersion => some r.encryptionKeyId, .noAction,
      false⟩,
    ⟨.secrets, .secretVersions, Secret.currentVersionId,
      .setNull (fun r : Secret => { r with currentVersionId := none }), true⟩,
    ⟨.apiTokens, .users, ApiToken.createdBy,
      .setNull (fun r : ApiToken => { r with createdBy := none }), false⟩,
    ⟨.apiTokens, .projects, fun r : ApiToken => some r.projectId, .cascade, false⟩,
    ⟨.refreshTokens, .users, fun r : RefreshToken => some r.userId, .cascade, false⟩,
    ⟨.auditLogs, .organizations, AuditLog.organizationId,
      .setNull (fun r : AuditLog => { r with organizationId := none }), false⟩,
    ⟨.auditLogs, .users, AuditLog.userId,
      .setNull (fun r : AuditLog => { r with userId := none }), false⟩,
    ⟨.secretVersions, .secrets, fun r : SecretVersion => some r.secretId, .cascade, false⟩]

def vaultSchema : Schema RowOf UUID where
  id := rowId
  unique := uniqueOf
  foreignKeys := foreignKeyList
  appendOnly t := decide (t = .auditLogs)

@[simp] theorem vaultSchema_id : vaultSchema.id = rowId := rfl

/-- The parents of a row under the immediate foreign keys. -/
def referencesOf : (t : Table) → RowOf t → List (Table × Option UUID)
  | .users, _ => []
  | .refreshTokens, r => [(.users, some r.userId)]
  | .organizations, _ => []
  | .memberships, r =>
    [(.users, r.invitedBy), (.organizations, some r.organizationId), (.users, some r.userId)]
  | .projects, r => [(.users, r.createdBy), (.organizations, some r.organizationId)]
  | .environments, r => [(.projects, some r.projectId)]
  | .encryptionKeys, r => [(.environments, some r.environmentId)]
  | .secrets, r => [(.environments, some r.environmentId)]
  | .secretVersions, r =>
    [(.users, r.createdBy), (.encryptionKeys, some r.encryptionKeyId), (.secrets, some r.secretId)]
  | .apiTokens, r => [(.users, r.createdBy), (.projects, some r.projectId)]
  | .auditLogs, r => [(.organizations, r.organizationId), (.users, r.userId)]

theorem referencesOf_eq (t : Table) (r : RowOf t) : referencesOf t r =
    vaultSchema.foreignKeys.filterMap fun fk =>
      if fk.child = t ∧ fk.deferred = false then some (fk.parent, fk.ref t r) else none := by
  cases t <;> rfl

theorem mem_referencesOf {t : Table} {r : RowOf t} {p : Table × Option UUID} :
    p ∈ referencesOf t r ↔ ∃ fk ∈ vaultSchema.foreignKeys, (fk.child = t ∧ fk.deferred = false) ∧
      (fk.parent, fk.ref t r) = p := by
  rw [referencesOf_eq, List.mem_filterMap]
  refine exists_congr fun fk => and_congr_right fun _ => ?_
  split <;> simp_all

theorem vaultSchema_referencesHold {t : Table} {r : RowOf t} {v : Db} :
    vaultSchema.referencesHold t r v = true ↔ ∀ p ∈ referencesOf t r, ∀ x, p.2 = some x →
      ∃ q ∈ v p.1, rowId p.1 q = x := by
  rw [Schema.referencesHold_iff]
  constructor
  · intro h p hp x hx
    obtain ⟨fk, hfk, ⟨-, hdef⟩, rfl⟩ := mem_referencesOf.mp hp
    exact h fk hfk hdef x hx
  · intro h fk hfk hdef x hx
    refine h _ (mem_referencesOf.mpr ⟨fk, hfk, ⟨?_, hdef⟩, rfl⟩) x hx
    by_contra hne
    simp [ForeignKey.ref, hne] at hx

/-- The parent of a row of a valid database exists. -/
theorem parent_exists {v : Db} (hv : vaultSchema.Valid v) {t : Table} {r : RowOf t} (hr : r ∈ v t)
    {p : Table} {x : UUID} (hp : (p, some x) ∈ referencesOf t r) :
    ∃ q ∈ v p, rowId p q = x := by
  obtain ⟨fk, hfk, ⟨rfl, hdef⟩, heq⟩ := mem_referencesOf.mp hp
  simp only [ForeignKey.ref_self, Prod.mk.injEq] at heq
  obtain ⟨rfl, hx⟩ := heq
  exact hv.references fk hfk hdef r hr x hx

/-- SET NULL keeps every other column. -/
theorem vaultSchema_clearsOk : vaultSchema.ClearsOk := by
  intro fk hfk clear hclear
  simp only [vaultSchema, foreignKeyList, List.mem_cons, List.not_mem_nil, or_false] at hfk
  rcases hfk with rfl | rfl | rfl | rfl | rfl | rfl | rfl | rfl | rfl | rfl | rfl | rfl | rfl |
    rfl | rfl | rfl | rfl <;> cases hclear
  all_goals
    refine ⟨fun _ => rfl, fun _ => rfl, ?_, ?_⟩
    · simp [vaultSchema, uniqueOf]
    · intro fk' hfk'
      simp only [vaultSchema, foreignKeyList, List.mem_cons, List.not_mem_nil, or_false] at hfk'
      rcases hfk' with rfl | rfl | rfl | rfl | rfl | rfl | rfl | rfl | rfl | rfl | rfl | rfl | rfl |
        rfl | rfl | rfl | rfl <;> simp [ForeignKey.ref]

end EnvVault
