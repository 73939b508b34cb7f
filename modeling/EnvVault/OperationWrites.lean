import EnvVault.RouteCalls
import EnvVault.StatementWrites
import EnvVault.TenantAuthorization

/-!
# What each operation writes and shows

For every operation of the services the row writes that it may make, with all their
columns and with the rows they rest on, given that the rows it finds satisfy a predicate of
the caller's choice. The log of a run then says of every row in the database which
operation put it there, and for which organization; and of every row in a reply where it
was found.
-/
namespace EnvVault
open EnvVault.Relational EnvVault.Transactions

namespace Op

/-- The operations that issue a refresh token. -/
def issuesTokens : Op → Bool
  | .login .. => true
  | .refresh .. => true
  | _ => false

/-- The operations that revoke refresh tokens. -/
def revokesTokens : Op → Bool
  | .refresh .. => true
  | .logout .. => true
  | .logoutAll .. => true
  | _ => false

/-- The operations that delete a row and what references it. -/
def deletes : Op → Bool
  | .deleteOrganization .. => true
  | .removeMembership .. => true
  | .deleteProject .. => true
  | .deleteEnvironment .. => true
  | _ => false

/-- The organization that the operation is about. -/
def organizationId : Op → Option UUID
  | .getOrganization organizationId => some organizationId
  | op => op.asks.map Prod.fst

/-- The row writes of an operation that finds rows with `K`. -/
inductive MayWrite (d : Deployment) (K : RowPred) : Op → RowWrite → Prop
  | registered (email password : String) (fullName : Option String) (id : UUID) :
      MayWrite d K (.register email password fullName) (.insert .users
        ⟨id, email, some (d.security.hashPassword password), fullName, true⟩)
  | issued (op : Op) (hop : op.issuesTokens = true) (id userId : UUID) (raw : String)
      (now : Timestamp) : MayWrite d K op (.insert .refreshTokens ⟨id, userId,
        d.security.hashRefreshToken raw, now + d.security.refreshTokenLifetime, none⟩)
  | revoked (op : Op) (hop : op.revokesTokens = true) (r : RefreshToken) (hr : K .refreshTokens r)
      (now : Timestamp) :
      MayWrite d K op (.update .refreshTokens { r with revokedAt := some now })
  | organizationCreated (name slug : String) (userId id : UUID) :
      MayWrite d K (.createOrganization name slug userId) (.insert .organizations ⟨id, name, slug⟩)
  | ownerAdded (name slug : String) (userId : UUID) (m : Membership) (huser : m.userId = userId)
      (hrole : m.role = .owner) :
      MayWrite d K (.createOrganization name slug userId) (.insert .memberships m)
  | organizationUpdated (organizationId actorUserId : UUID) (name slug : Option String)
      (r r' : Organization) (hr : K .organizations r) (horg : r.id = organizationId)
      (hid : r'.id = r.id)
      (hname : r'.name = r.name ∨ name = some r'.name)
      (hslug : r'.slug = r.slug ∨ slug = some r'.slug) :
      MayWrite d K (.updateOrganization organizationId actorUserId name slug)
        (.update .organizations r')
  | invited (organizationId : UUID) (email : String) (role : MembershipRole) (actorUserId : UUID)
      (hrole : role ≠ .owner) (id userId : UUID) (now : Timestamp) :
      MayWrite d K (.invite organizationId email role actorUserId) (.insert .memberships
        ⟨id, userId, organizationId, role, some actorUserId, now⟩)
  | roleUpdated (organizationId membershipId : UUID) (newRole : MembershipRole)
      (actorUserId : UUID) (r : Membership) (hr : K .memberships r)
      (hin : KeyOf K organizationId .memberships r.id) :
      MayWrite d K (.updateRole organizationId membershipId newRole actorUserId)
        (.update .memberships { r with role := newRole })
  | projectCreated (organizationId : UUID) (name slug : String) (actorUserId : UUID)
      (description : Option String) (id : UUID) :
      MayWrite d K (.createProject organizationId name slug actorUserId description)
        (.insert .projects ⟨id, organizationId, name, slug, description, some actorUserId⟩)
  | projectUpdated (projectId organizationId actorUserId : UUID) (name slug : Option String)
      (description : Option String) (r r' : Project) (hr : K .projects r)
      (hin : ProjectOf K organizationId r.id) (hid : r'.id = r.id)
      (horg : r'.organizationId = r.organizationId)
      (hname : r'.name = r.name ∨ name = some r'.name)
      (hslug : r'.slug = r.slug ∨ slug = some r'.slug)
      (hdescription : r'.description = r.description ∨ description = r'.description) :
      MayWrite d K (.updateProject projectId organizationId actorUserId name slug description)
        (.update .projects r')
  | environmentCreated (projectId organizationId : UUID) (name : String) (actorUserId id : UUID)
      (hin : ProjectOf K organizationId projectId) :
      MayWrite d K (.createEnvironment projectId organizationId name actorUserId)
        (.insert .environments ⟨id, projectId, name⟩)
  | keyCreated (projectId organizationId : UUID) (name : String) (actorUserId id : UUID)
      (environmentId : UUID) (hin : EnvironmentOf K organizationId environmentId) (dek : Dek)
      (nonce : Nonce) :
      MayWrite d K (.createEnvironment projectId organizationId name actorUserId)
        (.insert .encryptionKeys ⟨id, environmentId,
          CryptoService.createWrappedDek d.kms dek nonce, 1, "AES-256-GCM", true⟩)
  | secretCreated (environmentId organizationId : UUID) (keyName plainValue : String)
      (actorUserId id : UUID) (hin : EnvironmentOf K organizationId environmentId) :
      MayWrite d K (.createSecret environmentId organizationId keyName plainValue actorUserId)
        (.insert .secrets ⟨id, environmentId, keyName, none, false, none⟩)
  | versionStored (op : Op) (plainValue : String) (hop : op.plainValue = some plainValue)
      (o : UUID) (ho : op.organizationId = some o) (id secretId : UUID)
      (hin : SecretOf K o secretId) (key : EncryptionKey) (hkey : K .encryptionKeys key)
      (nonce : Nonce)
      (encrypted : Bytes × Bytes) (henc : CryptoService.encryptSecret d.kms plainValue
        key.wrappedDek nonce = .ok encrypted) (number : ℕ) (hpos : 1 ≤ number)
      (hmax : number ≤ SecretService.maxInteger) (createdBy : Option UUID) :
      MayWrite d K op (.insert .secretVersions ⟨id, secretId, key.id, encrypted.1, encrypted.2,
        number, createdBy⟩)
  | pointed (op : Op) (plainValue : String) (hop : op.plainValue = some plainValue) (o : UUID)
      (ho : op.organizationId = some o) (r : Secret) (hr : K .secrets r) (hin : SecretOf K o r.id)
      (v : SecretVersion) (hv : K .secretVersions v) (hsecret : v.secretId = r.id) :
      MayWrite d K op (.update .secrets { r with currentVersionId := some v.id })
  | secretDeleted (secretId organizationId actorUserId : UUID) (r : Secret) (hr : K .secrets r)
      (hin : SecretOf K organizationId r.id) (now : Timestamp) :
      MayWrite d K (.deleteSecret secretId organizationId actorUserId)
        (.update .secrets { r with isDeleted := true, deletedAt := some now })
  | revealRecorded (secretId organizationId actorUserId : UUID) (secret : Secret)
      (hs : K .secrets secret) (version : SecretVersion) (hv : K .secretVersions version)
      (id : UUID) (now : Timestamp) :
      MayWrite d K (.getDecryptedValue secretId organizationId actorUserId) (.insert .auditLogs
        ⟨id, some organizationId, some actorUserId, .reveal, .secret, some secret.id,
          some [("key_name", secret.keyName), ("version_id", toString version.id)], now⟩)
  | cascaded (op : Op) (hop : op.deletes = true) (o : UUID) (ho : op.organizationId = some o)
      (t : Table) (id : UUID) (hin : KeyOf K o t id) (w : RowWrite)
      (hw : vaultSchema.CascadeWrite K t id w) : MayWrite d K op w

end Op

/-- The row with the columns blanked that may change. -/
def settled : (t : Table) → RowOf t → RowOf t
  | .users, r => r
  | .refreshTokens, r => { r with revokedAt := none }
  | .organizations, r => { r with name := "", slug := "" }
  | .memberships, r => { r with role := .viewer, invitedBy := none }
  | .projects, r => { r with name := "", slug := "", description := none, createdBy := none }
  | .environments, r => r
  | .encryptionKeys, r => r
  | .secrets, r => { r with currentVersionId := none, isDeleted := false, deletedAt := none }
  | .secretVersions, r => { r with createdBy := none }
  | .apiTokens, r => { r with createdBy := none }
  | .auditLogs, r => r

section
variable (K : RowPred) (o : UUID)

/-- The key of the row is tied to the organization, and some row with `K` is this row up to
the columns that may change. -/
def ShownIn (t : Table) (r : RowOf t) : Prop :=
  KeyOf K o t (rowId t r) ∧ ∃ r', K t r' ∧ settled t r' = settled t r

variable {K o}

theorem ShownIn.of_belongsTo {t : Table} {r : RowOf t} (hr : K t r) (h : BelongsTo K o t r) :
    ShownIn K o t r :=
  ⟨⟨r, hr, rfl, h⟩, r, hr, rfl⟩

/-- The secret that the route reloads for its answer. -/
def Op.reloads : Op → Option UUID
  | .addNewVersion secretId .. => some secretId
  | .getDecryptedValue secretId .. => some secretId
  | _ => none

variable (K) in
/-- What an operation returns that finds rows with `K`. -/
structure Op.Shows (op : Op) (reply : Reply) : Prop where
  rows : ∀ o, op.organizationId = some o → ∀ t, ∀ r : RowOf t, ⟨t, r⟩ ∈ reply.rows →
    ShownIn K o t r
  reloaded : ∀ o x, op.organizationId = some o → op.reloads = some x → SecretOf K o x

end

section
variable {d : Deployment} {uow : UnitOfWork} {K : RowPred}

open Op in
/-- An INSERT that ends in COMMIT or in the domain error. -/
theorem writes_insertOrConflict {op : Op} {t : Table} {row : Input → RowOf t} {exn : Exn}
    {B : RowOf t → Prop} (hJ : ∀ inp, MayWrite d K op (.insert t (row inp)))
    (hB : ∀ inp, K t (row inp) → B (row inp)) :
    (exceptIntegrityError (do
        let r ← uow.insertFlushed t row
        UnitOfWork.commit
        return r) (do UnitOfWork.rollback; throw exn)).WritesOn K (MayWrite d K op) B :=
  writes_conflict (writes_insertFlushed_bind hJ fun inp hr => writes_commit_bind (hB inp hr))

/-- A listing shows rows that its query has found, arranged in some way. -/
theorem shows_arranged {o : UUID} {t : Table} {cond : RowOf t → Bool}
    {arrange : List (RowOf t) → List (RowOf t)} {J : RowWrite → Prop}
    (harrange : ∀ rows, arrange rows ⊆ rows)
    (h : ∀ r, K t r → cond r = true → ShownIn K o t r) :
    ((uow.select t cond).bind fun rows => .ret (arrange rows)).WritesOn K J
      fun rows => ∀ r ∈ rows, ShownIn K o t r := by
  refine writes_select_bind fun rows hrows r hr => ?_
  obtain ⟨hk, hcond⟩ := hrows r (harrange rows hr)
  exact h r hk hcond

/-- A column after an update is what it was or what the caller asked for. -/
theorem changedColumn_cases {α : Type} [DecidableEq α] (requested : Option α) (loaded stored : α) :
    (if requested.getD loaded ≠ loaded then requested.getD loaded else stored) = stored ∨
      requested =
        some (if requested.getD loaded ≠ loaded then requested.getD loaded else stored) := by
  cases requested with
  | none => exact Or.inl (if_neg fun h => h rfl)
  | some value =>
    by_cases h : value = loaded
    · exact Or.inl (if_neg fun hne => hne h)
    · exact Or.inr (by simp [h])

namespace AuthService
open Op

theorem writes_register (email password : String) (fullName : Option String) :
    (register d.security uow email password fullName).WritesOn K
      (MayWrite d K (.register email password fullName)) fun _ => True :=
  (reads_selectOne _ _).bind_writes fun _ _ => (reads_raiseIf _ _ _).bind_writes fun _ _ =>
    writes_insertOrConflict (fun inp => .registered email password fullName inp.uuid)
      fun _ _ => trivial

theorem writes_issueTokenPair {op : Op} (hop : op.issuesTokens = true) (userId : UUID) :
    (issueTokenPair d.security uow userId).WritesOn K (MayWrite d K op) fun _ => True :=
  reads_readInput.bind_writes fun inp _ =>
    writes_insertFlushed_bind (fun row => .issued op hop row.uuid userId inp.rawToken inp.now)
      fun _ _ => writes_commit_bind (reads_readInput.bind_writes fun _ _ => trivial)

theorem writes_login (email password : String) :
    (login d.security uow email password).WritesOn K
      (MayWrite d K (.login email password)) fun _ => True := by
  refine (reads_selectOne _ _).bind_writes fun user _ => (reads_raiseIf _ _ _).bind_writes
    fun _ _ => ?_
  cases user with
  | none => trivial
  | some user =>
    exact (reads_raiseIf _ _ _).bind_writes fun _ _ =>
      .bind (writes_issueTokenPair rfl user.id) fun _ _ => trivial

theorem writes_revoke_bind {op : Op} (hop : op.revokesTokens = true) {β : Type} {B : β → Prop}
    {k : Unit → Tx β} (hk : (k ()).WritesOn K (MayWrite d K op) B) (id : UUID) :
    ((RefreshTokenRepository.revoke uow id).bind k).WritesOn K (MayWrite d K op) B := by
  rw [RefreshTokenRepository.revoke]
  simp only [Prog.bind_eq, Prog.bind_assoc, Prog.pure_eq, Prog.ret_bind]
  exact writes_updateById_bind (fun inp r hr _ => .revoked op hop r hr inp.now) fun _ => hk

theorem writes_revokeAll_bind {op : Op} (hop : op.revokesTokens = true) {β : Type}
    {B : β → Prop} {k : Unit → Tx β} (hk : (k ()).WritesOn K (MayWrite d K op) B)
    (userId : UUID) : ((RefreshTokenRepository.revokeAllForUser uow userId).bind k).WritesOn K
      (MayWrite d K op) B :=
  writes_updateWhere_bind (fun inp r hr => .revoked op hop r hr inp.now) hk

theorem writes_refresh (raw : String) :
    (refresh d.security uow raw).WritesOn K (MayWrite d K (.refresh raw)) fun _ => True := by
  refine (reads_selectOne _ _).bind_writes fun stored _ => ?_
  cases stored with
  | none => trivial
  | some stored =>
    dsimp only
    split
    · refine writes_revokeAll_bind rfl (writes_commit_bind ?_) _
      trivial
    refine reads_readInput.bind_writes fun clock _ => ?_
    split
    · refine writes_revoke_bind rfl (writes_commit_bind ?_) _
      trivial
    refine (reads_get _ _).bind_writes fun user _ => ?_
    split
    · refine writes_revokeAll_bind rfl (writes_commit_bind ?_) _
      trivial
    · refine writes_revoke_bind rfl (.bind (writes_issueTokenPair rfl _) fun _ _ => ?_) _
      trivial

theorem writes_logout (raw : String) :
    (logout d.security uow raw).WritesOn K (MayWrite d K (.logout raw)) fun _ => True := by
  refine (reads_selectOne _ _).bind_writes fun stored _ => ?_
  split
  · trivial
  · exact writes_revoke_bind rfl writes_commit _

theorem writes_logoutAll (userId : UUID) :
    (logoutAll uow userId).WritesOn K (MayWrite d K (.logoutAll userId)) fun _ => True :=
  writes_revokeAll_bind rfl writes_commit _

end AuthService

namespace OrganizationService
open Op

theorem writes_create (name slug : String) (userId : UUID) :
    (create uow name slug userId).WritesOn K
      (MayWrite d K (.createOrganization name slug userId)) fun _ => True := by
  refine (reads_selectOne _ _).bind_writes fun _ _ => (reads_raiseIf _ _ _).bind_writes
    fun _ _ => writes_conflict ?_
  rw [OrganizationRepository.createWithOwner]
  simp only [Prog.bind_eq, Prog.bind_assoc]
  refine Prog.writes_statement_bind fun inp v ws org _ hf => ⟨fun w hw => ?_, fun _ => ?_⟩
  · obtain ⟨rfl, m, -, huser, -, hrole, rfl, -⟩ := createOrganizationWithOwner_ok hf
    simp only [List.mem_cons, List.not_mem_nil, or_false] at hw
    rcases hw with rfl | rfl
    · exact .organizationCreated name slug userId inp.uuid
    · exact .ownerAdded name slug userId m huser hrole
  · refine (reads_get _ _).bind_writes fun found _ => ?_
    cases found with
    | none => trivial
    | some org => exact writes_commit_bind trivial

theorem writes_update (organizationId actorUserId : UUID) (name slug : Option String) :
    (update uow organizationId actorUserId name slug).WritesOn K
      (MayWrite d K (.updateOrganization organizationId actorUserId name slug))
      (ShownIn K organizationId .organizations) := by
  refine (reads_requireOrgRole _ _ _).bind_writes fun _ _ => writes_getOrganization_bind
    fun org hk horg => Prog.Writes.bind (B := fun _ => True) ?_ fun _ _ => writes_conflict ?_
  · cases slug with
    | none => trivial
    | some slug =>
      dsimp only
      split
      · exact (reads_selectOne _ _).bind_writes fun _ _ => (reads_raiseIf _ _ _).writes_true
      · trivial
  · have hshown : ShownIn K organizationId .organizations
        { org with name := name.getD org.name, slug := slug.getD org.slug } :=
      ⟨⟨org, hk, rfl, horg⟩, org, hk, rfl⟩
    dsimp only
    split
    · exact writes_updateFlushed_bind (fun r hr hid => .organizationUpdated organizationId
        actorUserId name slug r _ hr (hid.trans horg) rfl
        (changedColumn_cases name org.name r.name) (changedColumn_cases slug org.slug r.slug))
        (writes_commit_bind hshown)
    · exact writes_commit_bind hshown

theorem writes_delete (hK : K.Clearable vaultSchema) (organizationId actorUserId : UUID) :
    (delete uow organizationId actorUserId).WritesOn K
      (MayWrite d K (.deleteOrganization organizationId actorUserId)) fun _ => True :=
  (reads_requireOrgRole _ _ _).bind_writes fun _ _ => writes_getOrganization_bind
    fun org horg hid => writes_delete_bind hK
      (fun w hw => .cascaded _ rfl organizationId rfl .organizations org.id
        ⟨org, horg, rfl, hid⟩ w hw) writes_commit

end OrganizationService

namespace MembershipService
open Op

theorem writes_invite (organizationId : UUID) (email : String) (role : MembershipRole)
    (actorUserId : UUID) : (invite uow organizationId email role actorUserId).WritesOn K
      (MayWrite d K (.invite organizationId email role actorUserId))
      (ShownIn K organizationId .memberships) := by
  refine (reads_raiseIf _ _ _).bind_writes fun _ hrole => (reads_requireOrgRole _ _ _).bind_writes
    fun _ _ => (reads_raiseIf _ _ _).bind_writes fun _ _ => (reads_selectOne _ _).bind_writes
      fun user _ => ?_
  cases user with
  | none => trivial
  | some user =>
    exact (reads_selectOne _ _).bind_writes fun _ _ => (reads_raiseIf _ _ _).bind_writes
      fun _ _ => writes_insertOrConflict (fun inp => .invited organizationId email role
        actorUserId (by simpa using hrole) inp.uuid user.id inp.now)
        fun _ hr => .of_belongsTo hr rfl

theorem writes_updateRole (organizationId membershipId : UUID) (newRole : MembershipRole)
    (actorUserId : UUID) :
    (updateRole uow organizationId membershipId newRole actorUserId).WritesOn K
      (MayWrite d K (.updateRole organizationId membershipId newRole actorUserId))
      (ShownIn K organizationId .memberships) := by
  refine writes_requireOrgRole_bind fun actor hactor _ => writes_getTarget_bind hactor
    fun target htarget hid horg => ?_
  have hshown : ShownIn K organizationId .memberships target := .of_belongsTo htarget horg
  split
  · exact hshown
  refine (reads_raiseIf _ _ _).bind_writes fun _ _ => Prog.Writes.bind (B := fun _ => True) ?_
    fun _ _ => (reads_raiseIf _ _ _).bind_writes fun _ _ =>
      writes_updateFlushed_bind (fun r hr hrid => ?_) (writes_commit_bind hshown)
  · split
    · exact (reads_countOwners _).bind_writes fun _ _ => (reads_raiseIf _ _ _).writes_true
    · trivial
  · exact .roleUpdated organizationId membershipId newRole actorUserId r hr
      ⟨target, htarget, hrid.symm, horg⟩

theorem writes_remove (hK : K.Clearable vaultSchema)
    (organizationId membershipId actorUserId : UUID) :
    (remove uow organizationId membershipId actorUserId).WritesOn K
      (MayWrite d K (.removeMembership organizationId membershipId actorUserId))
      fun _ => True := by
  refine writes_requireOrgRole_bind fun actor hactor _ => writes_getTarget_bind hactor
    fun target htarget hid horg => Prog.Writes.bind (B := fun _ => True) ?_ fun _ _ =>
      writes_delete_bind hK (fun w hw => ?_) writes_commit
  · split
    · exact (reads_raiseIf _ _ _).bind_writes fun _ _ => (reads_countOwners _).bind_writes
        fun _ _ => (reads_raiseIf _ _ _).writes_true
    · trivial
  · exact .cascaded _ rfl organizationId rfl .memberships target.id ⟨target, htarget, rfl, horg⟩
      w hw

theorem shows_list (organizationId actorUserId : UUID) {J : RowWrite → Prop} :
    (list uow organizationId actorUserId).WritesOn K J
      fun rows => ∀ r ∈ rows, ShownIn K organizationId .memberships r := by
  refine (reads_requireOrgRole _ _ _).bind_writes fun _ _ =>
    shows_arranged (fun rows => (List.mergeSort_perm rows _).subset) fun r hk hin => ?_
  exact .of_belongsTo hk (beq_iff_eq.mp hin)

end MembershipService

namespace ProjectService
open Op

theorem writes_create (organizationId : UUID) (name slug : String) (actorUserId : UUID)
    (description : Option String) :
    (create uow organizationId name slug actorUserId description).WritesOn K
      (MayWrite d K (.createProject organizationId name slug actorUserId description))
      (ShownIn K organizationId .projects) :=
  (reads_requireOrgRole _ _ _).bind_writes fun _ _ => (reads_selectOne _ _).bind_writes
    fun _ _ => (reads_raiseIf _ _ _).bind_writes fun _ _ => writes_insertOrConflict
      (fun inp => .projectCreated organizationId name slug actorUserId description inp.uuid)
      fun _ hr => .of_belongsTo hr rfl

theorem shows_list (organizationId actorUserId : UUID) {J : RowWrite → Prop} :
    (list uow organizationId actorUserId).WritesOn K J
      fun rows => ∀ r ∈ rows, ShownIn K organizationId .projects r := by
  refine (reads_requireOrgRole _ _ _).bind_writes fun _ _ =>
    shows_arranged (fun rows => (List.mergeSort_perm rows _).subset) fun r hk hin => ?_
  exact .of_belongsTo hk (beq_iff_eq.mp hin)

theorem shows_get (projectId organizationId actorUserId : UUID) {J : RowWrite → Prop} :
    (get uow projectId organizationId actorUserId).WritesOn K J
      (ShownIn K organizationId .projects) := by
  refine (reads_requireOrgRole _ _ _).bind_writes fun _ _ => ?_
  rw [← Prog.bind_ret (getIn uow organizationId projectId)]
  exact writes_lookup_bind fun p hp _ horg => .of_belongsTo hp horg

theorem writes_update (projectId organizationId actorUserId : UUID)
    (name slug description : Option String) :
    (update uow projectId organizationId actorUserId name slug description).WritesOn K
      (MayWrite d K (.updateProject projectId organizationId actorUserId name slug
        description)) (ShownIn K organizationId .projects) := by
  refine (reads_requireOrgRole _ _ _).bind_writes fun _ _ =>
    (reads_requireOrgRoleAgain _ _ _ _).bind_writes fun _ _ => writes_lookup_bind
      fun project hproject _ horg => Prog.Writes.bind (B := fun _ => True) ?_
        fun _ _ => writes_conflict ?_
  · cases slug with
    | none => trivial
    | some slug =>
      dsimp only
      split
      · exact (reads_selectOne _ _).bind_writes fun _ _ => (reads_raiseIf _ _ _).writes_true
      · trivial
  · have hshown : ShownIn K organizationId .projects { project with
        name := name.getD project.name
        slug := slug.getD project.slug
        description := description.orElse fun _ => project.description } :=
      ⟨⟨project, hproject, rfl, horg⟩, project, hproject, rfl⟩
    dsimp only
    split
    · refine writes_updateFlushed_bind (fun r hr hid => ?_) (writes_commit_bind hshown)
      refine .projectUpdated projectId organizationId actorUserId name slug description r _ hr
        ⟨project, hproject, hid.symm, horg⟩ rfl rfl ?_ ?_ ?_
      · exact changedColumn_cases name project.name r.name
      · exact changedColumn_cases slug project.slug r.slug
      · dsimp only
        split
        · rename_i hne
          cases description with
          | none => exact absurd rfl hne
          | some description => exact Or.inr rfl
        · exact Or.inl rfl
    · exact writes_commit_bind hshown

theorem writes_delete (hK : K.Clearable vaultSchema)
    (projectId organizationId actorUserId : UUID) :
    (delete uow projectId organizationId actorUserId).WritesOn K
      (MayWrite d K (.deleteProject projectId organizationId actorUserId)) fun _ => True :=
  (reads_requireOrgRole _ _ _).bind_writes fun _ _ =>
    (reads_requireOrgRoleAgain _ _ _ _).bind_writes fun _ _ => writes_lookup_bind
      fun p hp _ horg => writes_delete_bind hK
        (fun w hw => .cascaded _ rfl organizationId rfl .projects p.id ⟨p, hp, rfl, horg⟩ w hw)
        writes_commit

end ProjectService

namespace EnvironmentService
open Op

theorem writes_create (projectId organizationId : UUID) (name : String) (actorUserId : UUID) :
    (create d.kms uow projectId organizationId name actorUserId).WritesOn K
      (MayWrite d K (.createEnvironment projectId organizationId name actorUserId))
      (ShownIn K organizationId .environments) :=
  (reads_requireOrgRole _ _ _).bind_writes fun _ _ => writes_lookup_bind fun p hp hid horg =>
    (reads_selectOne _ _).bind_writes fun _ _ => (reads_raiseIf _ _ _).bind_writes fun _ _ =>
      writes_insertFlushed_bind (fun inp => .environmentCreated projectId organizationId name
        actorUserId inp.uuid ⟨p, hp, hid, horg⟩)
        fun env henv => reads_readInput.bind_writes fun random _ => writes_conflict
          (writes_insertFlushed_bind (fun inp => .keyCreated projectId organizationId name
            actorUserId inp.uuid env.uuid ⟨_, henv, rfl, p, hp, hid, horg⟩ random.dek random.nonce)
            fun _ _ => writes_commit_bind (.of_belongsTo henv ⟨p, hp, hid, horg⟩))

theorem shows_list (projectId organizationId actorUserId : UUID) {J : RowWrite → Prop} :
    (list uow projectId organizationId actorUserId).WritesOn K J
      fun rows => ∀ r ∈ rows, ShownIn K organizationId .environments r := by
  refine (reads_requireOrgRole _ _ _).bind_writes fun _ _ => writes_lookup_bind
    fun p hp hid horg => shows_arranged (fun rows => (List.mergeSort_perm rows _).subset)
      fun r hk hin => ?_
  exact .of_belongsTo hk ⟨p, hp, hid.trans (beq_iff_eq.mp hin).symm, horg⟩

theorem shows_get (environmentId organizationId actorUserId : UUID) {J : RowWrite → Prop} :
    (get uow environmentId organizationId actorUserId).WritesOn K J
      (ShownIn K organizationId .environments) := by
  refine (reads_requireOrgRole _ _ _).bind_writes fun _ _ => ?_
  rw [← Prog.bind_ret (getIn uow organizationId environmentId)]
  exact writes_getEnvironment_bind fun e he _ hp => .of_belongsTo he hp

theorem writes_delete (hK : K.Clearable vaultSchema)
    (environmentId organizationId actorUserId : UUID) :
    (delete uow environmentId organizationId actorUserId).WritesOn K
      (MayWrite d K (.deleteEnvironment environmentId organizationId actorUserId))
      fun _ => True :=
  (reads_requireOrgRole _ _ _).bind_writes fun _ _ =>
    (reads_requireOrgRoleAgain _ _ _ _).bind_writes fun _ _ => writes_getEnvironment_bind
      fun e he _ hp => writes_delete_bind hK
        (fun w hw => .cascaded _ rfl organizationId rfl .environments e.id ⟨e, he, rfl, hp⟩ w hw)
        writes_commit

end EnvironmentService

namespace SecretService
open Op

/-- What the KMS and the cipher have made of the value. -/
theorem reads_encryptSecret_nonce (plainValue : String) (key : EncryptionKey) :
    (encryptSecret d.kms plainValue key).Reads fun encrypted => ∃ nonce : Nonce,
      CryptoService.encryptSecret d.kms plainValue key.wrappedDek nonce = .ok encrypted :=
  .bind reads_readInput fun inp _ => (reads_liftCrypto _).mono fun _ h => ⟨inp.nonce, h⟩

theorem writes_createSecret (environmentId organizationId : UUID) (keyName plainValue : String)
    (actorUserId : UUID) :
    (createSecret d.kms uow environmentId organizationId keyName plainValue actorUserId).WritesOn K
      (MayWrite d K (.createSecret environmentId organizationId keyName plainValue
        actorUserId)) (ShownIn K organizationId .secrets) := by
  refine (reads_requireOrgRole _ _ _).bind_writes fun _ _ => writes_resolveEnvironmentOrg_bind
    fun henv => (reads_selectOne _ _).bind_writes fun _ _ => (reads_raiseIf _ _ _).bind_writes
      fun _ _ => writes_activeKey_bind fun key hkey =>
        (reads_encryptSecret_nonce _ _).bind_writes fun encrypted hencrypted => ?_
  obtain ⟨nonce, hnonce⟩ := hencrypted
  refine writes_insertFlushed_bind (fun inp => .secretCreated environmentId organizationId keyName
    plainValue actorUserId inp.uuid henv) fun secret hsecret => ?_
  have hin : SecretOf K organizationId secret.uuid := ⟨_, hsecret, rfl, henv⟩
  refine writes_insertFlushed_bind (fun inp => .versionStored _ plainValue rfl organizationId rfl
    inp.uuid secret.uuid hin key hkey nonce encrypted hnonce 1 le_rfl (by decide) _)
      fun version hversion => ?_
  refine writes_commitPointer_bind (fun r hr hid => ?_)
    ⟨⟨_, hsecret, rfl, henv⟩, _, hsecret, rfl⟩
  exact .pointed _ plainValue rfl organizationId rfl r hr (hid.symm ▸ hin) _ hversion hid.symm

theorem shows_listSecrets (environmentId organizationId actorUserId : UUID)
    {J : RowWrite → Prop} :
    (listSecrets uow environmentId organizationId actorUserId).WritesOn K J
      fun rows => ∀ r ∈ rows, ShownIn K organizationId .secrets r := by
  refine (reads_requireOrgRole _ _ _).bind_writes fun _ _ => writes_resolveEnvironmentOrg_bind
    fun henv => shows_arranged (fun rows => (List.mergeSort_perm rows _).subset) fun r hk hin => ?_
  simp only [Bool.and_eq_true, beq_iff_eq] at hin
  have hsame : EnvironmentOf K organizationId r.environmentId := by
    rw [hin.1]
    exact henv
  exact .of_belongsTo hk hsame

theorem writes_addNewVersion (secretId organizationId : UUID) (plainValue : String)
    (actorUserId : UUID) :
    (addNewVersion d.kms uow secretId organizationId plainValue actorUserId).WritesOn K
      (MayWrite d K (.addNewVersion secretId organizationId plainValue actorUserId))
      fun version => ShownIn K organizationId .secretVersions version ∧
        SecretOf K organizationId secretId := by
  refine (reads_requireOrgRole _ _ _).bind_writes fun _ _ => writes_getOwnedSecret_bind
    fun secret hsecret hsid henv => writes_activeKey_bind fun key hkey =>
      (reads_encryptSecret_nonce _ _).bind_writes fun encrypted hencrypted =>
        Prog.Reads.bind_writes (P := fun _ => True) (.bind (reads_select _ _) fun _ _ => trivial)
          fun latest _ => (reads_raiseIf _ _ _).bind_writes fun _ hmax => ?_
  obtain ⟨nonce, hnonce⟩ := hencrypted
  have hin : SecretOf K organizationId secret.id := ⟨secret, hsecret, rfl, henv⟩
  refine writes_insertFlushed_bind (fun inp => .versionStored _ plainValue rfl organizationId rfl
    inp.uuid secret.id hin key hkey nonce encrypted hnonce _ ?_ (by simpa using hmax) _)
      fun version hversion => ?_
  · cases latest with
    | none => exact le_rfl
    | some v => exact Nat.le_add_left 1 _
  · refine writes_commitPointer_bind (fun r hr hid => ?_)
      ⟨.of_belongsTo hversion hin, hsid ▸ hin⟩
    exact .pointed _ plainValue rfl organizationId rfl r hr (hid.symm ▸ hin) _ hversion hid.symm

theorem writes_getDecryptedValue (secretId organizationId actorUserId : UUID) :
    (getDecryptedValue d.kms uow secretId organizationId actorUserId).WritesOn K
      (MayWrite d K (.getDecryptedValue secretId organizationId actorUserId))
      fun _ => SecretOf K organizationId secretId := by
  refine (reads_requireOrgRole _ _ _).bind_writes fun _ _ => writes_getOwnedSecret_bind
    fun secret hs hsid henv => ?_
  split
  · trivial
  refine writes_selectOne_bind (t := .secretVersions) trivial fun version hv _ => ?_
  refine (reads_get _ _).bind_writes fun key _ => ?_
  cases key with
  | none => trivial
  | some key =>
    refine (reads_liftCrypto _).bind_writes fun plainValue _ => ?_
    simp only [recordReveal, Prog.bind_eq, Prog.bind_assoc, Prog.pure_eq, Prog.ret_bind]
    exact writes_insertFlushed_bind (fun inp => .revealRecorded secretId organizationId
      actorUserId secret hs version hv inp.uuid inp.now)
        fun _ _ => writes_commit_bind ⟨secret, hs, hsid, henv⟩

theorem writes_deleteSecret (secretId organizationId actorUserId : UUID) :
    (deleteSecret uow secretId organizationId actorUserId).WritesOn K
      (MayWrite d K (.deleteSecret secretId organizationId actorUserId)) fun _ => True := by
  refine (reads_requireOrgRole _ _ _).bind_writes fun _ _ => writes_getOwnedSecret_bind
    fun secret hsecret _ henv => ?_
  simp only [SecretRepository.softDelete, Prog.bind_eq, Prog.bind_assoc, Prog.pure_eq,
    Prog.ret_bind]
  exact writes_updateById_bind (t := .secrets) (fun inp r hr hid => .secretDeleted secretId
    organizationId actorUserId r hr ⟨secret, hsecret, hid.symm, henv⟩ inp.now)
    fun _ => writes_commit

end SecretService

theorem AuditService.shows_listForOrganization (organizationId actorUserId : UUID)
    (limit offset : ℕ) {J : RowWrite → Prop} :
    (listForOrganization uow organizationId actorUserId limit offset).WritesOn K J
      fun rows => ∀ r ∈ rows, ShownIn K organizationId .auditLogs r := by
  refine (reads_requireOrgRole _ _ _).bind_writes fun _ _ =>
    shows_arranged (fun rows r hr => ?_) fun r hk hin => ?_
  · exact List.mem_mergeSort.mp (List.mem_of_mem_drop (List.mem_of_mem_take hr))
  · exact .of_belongsTo hk (beq_iff_eq.mp hin)

/-- The operations without an organization. -/
theorem Op.Shows.of_none {op : Op} (h : op.organizationId = none) (reply : Reply) :
    op.Shows K reply where
  rows o ho := by rw [h] at ho; cases ho
  reloaded o x ho := by rw [h] at ho; cases ho

/-- The rows of one table, in a reply to an operation on an organization. -/
theorem shown_rows {o o' : UUID} {t : Table} {rs : List (RowOf t)} {op : Op} {reply : Reply}
    (ho : op.organizationId = some o) (hrows : reply.rows = rs.map fun r => ⟨t, r⟩)
    (hrs : ∀ r ∈ rs, ShownIn K o t r) (ho' : op.organizationId = some o') (t' : Table)
    (r' : RowOf t') (hr' : ⟨t', r'⟩ ∈ reply.rows) : ShownIn K o' t' r' := by
  obtain rfl : o = o' := Option.some.inj (ho.symm.trans ho')
  rw [hrows] at hr'
  obtain ⟨r, hr, heq⟩ := List.mem_map.mp hr'
  cases heq
  exact hrs r hr

theorem Op.Shows.of_rows {op : Op} {o : UUID} {t : Table} {rs : List (RowOf t)} {reply : Reply}
    (ho : op.organizationId = some o) (hrows : reply.rows = rs.map fun r => ⟨t, r⟩)
    (hreloads : op.reloads = none) (hrs : ∀ r ∈ rs, ShownIn K o t r) : op.Shows K reply where
  rows _ ho' := shown_rows ho hrows hrs ho'
  reloaded o' x _ hx := by rw [hreloads] at hx; cases hx

theorem Op.Shows.of_row {op : Op} {o : UUID} {t : Table} {r : RowOf t} {reply : Reply}
    (ho : op.organizationId = some o) (hrows : reply.rows = [⟨t, r⟩])
    (hreloads : op.reloads = none) (hr : ShownIn K o t r) : op.Shows K reply :=
  .of_rows ho (hrows.trans (List.map_singleton (a := r)).symm) hreloads (by simpa using hr)

theorem Op.Shows.of_nil {op : Op} {reply : Reply} (hrows : reply.rows = [])
    (hreloads : op.reloads = none) : op.Shows K reply where
  rows o _ t r hr := by rw [hrows] at hr; cases hr
  reloaded o' x _ hx := by rw [hreloads] at hx; cases hx

/-- The operations on a secret that the route reloads. -/
theorem Op.Shows.of_reloads {op : Op} {o x : UUID} {t : Table} (rs : List (RowOf t))
    {reply : Reply} (ho : op.organizationId = some o)
    (hrows : reply.rows = rs.map fun r => ⟨t, r⟩) (hreloads : op.reloads = some x)
    (hx : SecretOf K o x) (hrs : ∀ r ∈ rs, ShownIn K o t r) : op.Shows K reply where
  rows _ ho' := shown_rows ho hrows hrs ho'
  reloaded o' x' ho' hx' := by
    obtain rfl : o = o' := Option.some.inj (ho.symm.trans ho')
    obtain rfl : x = x' := Option.some.inj (hreloads.symm.trans hx')
    exact hx

/-- Every operation writes only what it may and shows only what it found. -/
theorem Op.writes (hK : K.Clearable vaultSchema) (op : Op) :
    (op.program d uow).WritesOn K (op.MayWrite d K) (op.Shows K) := by
  cases op
  case register => exact .bind (AuthService.writes_register _ _ _) fun _ _ => .of_none rfl _
  case login => exact .bind (AuthService.writes_login _ _) fun _ _ => .of_none rfl _
  case refresh => exact .bind (AuthService.writes_refresh _) fun _ _ => .of_none rfl _
  case logout => exact .bind (AuthService.writes_logout _) fun _ _ => .of_none rfl _
  case logoutAll => exact .bind (AuthService.writes_logoutAll _) fun _ _ => .of_none rfl _
  case createOrganization =>
    exact .bind (OrganizationService.writes_create _ _ _) fun _ _ => .of_none rfl _
  case listOrganizations =>
    refine Prog.Writes.bind (Prog.Reads.writes_true (P := fun _ => True) ?_)
      fun _ _ => .of_none rfl _
    exact .bind (reads_select _ _) fun _ _ => trivial
  case getOrganization =>
    exact writes_getOrganization_bind fun _ hr hid =>
      .of_row rfl rfl rfl (.of_belongsTo hr hid)
  case updateOrganization =>
    exact .bind (OrganizationService.writes_update _ _ _ _) fun _ hr => .of_row rfl rfl rfl hr
  case deleteOrganization =>
    exact .bind (OrganizationService.writes_delete hK _ _) fun _ _ => .of_nil rfl rfl
  case listMemberships =>
    exact .bind (MembershipService.shows_list _ _) fun _ hrs => .of_rows rfl rfl rfl hrs
  case invite =>
    exact .bind (MembershipService.writes_invite _ _ _ _) fun _ hr => .of_row rfl rfl rfl hr
  case updateRole =>
    exact .bind (MembershipService.writes_updateRole _ _ _ _) fun _ hr => .of_row rfl rfl rfl hr
  case removeMembership =>
    exact .bind (MembershipService.writes_remove hK _ _ _) fun _ _ => .of_nil rfl rfl
  case createProject =>
    exact .bind (ProjectService.writes_create _ _ _ _ _) fun _ hr => .of_row rfl rfl rfl hr
  case listProjects =>
    exact .bind (ProjectService.shows_list _ _) fun _ hrs => .of_rows rfl rfl rfl hrs
  case getProject =>
    exact .bind (ProjectService.shows_get _ _ _) fun _ hr => .of_row rfl rfl rfl hr
  case updateProject =>
    exact .bind (ProjectService.writes_update _ _ _ _ _ _) fun _ hr => .of_row rfl rfl rfl hr
  case deleteProject =>
    exact .bind (ProjectService.writes_delete hK _ _ _) fun _ _ => .of_nil rfl rfl
  case createEnvironment =>
    exact .bind (EnvironmentService.writes_create _ _ _ _) fun _ hr => .of_row rfl rfl rfl hr
  case listEnvironments =>
    exact .bind (EnvironmentService.shows_list _ _ _) fun _ hrs => .of_rows rfl rfl rfl hrs
  case getEnvironment =>
    exact .bind (EnvironmentService.shows_get _ _ _) fun _ hr => .of_row rfl rfl rfl hr
  case deleteEnvironment =>
    exact .bind (EnvironmentService.writes_delete hK _ _ _) fun _ _ => .of_nil rfl rfl
  case createSecret =>
    exact .bind (SecretService.writes_createSecret _ _ _ _ _) fun _ hr => .of_row rfl rfl rfl hr
  case addNewVersion =>
    exact .bind (SecretService.writes_addNewVersion _ _ _ _) fun _ hr =>
      .of_reloads [_] rfl rfl rfl hr.2 (by simpa using hr.1)
  case listSecrets =>
    exact .bind (SecretService.shows_listSecrets _ _ _) fun _ hrs => .of_rows rfl rfl rfl hrs
  case getDecryptedValue =>
    exact .bind (SecretService.writes_getDecryptedValue _ _ _) fun _ hs =>
      .of_reloads (t := .users) [] rfl rfl rfl hs nofun
  case deleteSecret =>
    exact .bind (SecretService.writes_deleteSecret _ _ _) fun _ _ => .of_nil rfl rfl
  case listAuditLogs =>
    exact .bind (AuditService.shows_listForOrganization _ _ _ _) fun _ hrs =>
      .of_rows rfl rfl rfl hrs

end

/-- The rows that a body shows whole. -/
def Body.rows : Body → List (Σ t, RowOf t)
  | .reply result => result.rows
  | _ => []

namespace Request

/-- The row writes that a route may make. -/
def MayWrite (server : Server) (currentUser : UUID) (K : RowPred) (r : Request) (w : RowWrite) :
    Prop :=
  (r.op currentUser).MayWrite server.deployment K w

variable {K : RowPred} {o : UUID}

/-- What an answer shows to a request on the organization. -/
structure Shows (K : RowPred) (o : UUID) (body : Body) : Prop where
  rows : ∀ t, ∀ r : RowOf t, ⟨t, r⟩ ∈ body.rows → ShownIn K o t r
  revealed : ∀ id keyName value, body = .revealed id keyName value →
    ∃ secret, ShownIn K o .secrets secret ∧ secret.id = id ∧ secret.keyName = keyName

theorem Shows.detail (text : String) : Shows K o (.detail text) where
  rows t r hr := absurd hr List.not_mem_nil
  revealed id keyName value h := by cases h

theorem Shows.reply {reply : Reply}
    (h : ∀ t, ∀ r : RowOf t, ⟨t, r⟩ ∈ reply.rows → ShownIn K o t r) :
    Shows K o (.reply reply) where
  rows := h
  revealed id keyName value h := by cases h

theorem writes_reload {uow : UnitOfWork} {secretId : UUID} {J : RowWrite → Prop}
    (h : SecretOf K o secretId) : (reload uow secretId).WritesOn K J (ShownIn K o .secrets) := by
  obtain ⟨secret, hsecret, rfl, henv⟩ := h
  refine writes_selectOne_bind (t := .secrets) trivial fun found hfound hid => ?_
  have hfid : found.id = secret.id := beq_iff_eq.mp hid
  exact ⟨⟨secret, hsecret, hfid.symm, henv⟩, found, hfound, rfl⟩

/-- What the route makes of a result of its operation. -/
theorem shows_present {uow : UnitOfWork} {currentUser : UUID} {r : Request} {op : Op}
    {reply : Reply} {J : RowWrite → Prop} (hop : r.op currentUser = op)
    (ho : op.organizationId = some o) (h : op.Shows K reply) :
    (r.present uow reply).WritesOn K J (Shows K o) := by
  have hreply : Shows K o (.reply reply) := .reply (h.rows o ho)
  cases r <;> try exact hreply
  case rotateSecret =>
    cases hop
    exact .bind (writes_reload (h.reloaded o _ ho rfl)) fun secret hsecret =>
      .reply fun t r hr => by
        cases List.mem_singleton.mp hr
        exact hsecret
  case revealSecret =>
    cases hop
    cases reply <;> try exact hreply
    case value value =>
      refine .bind (writes_reload (h.reloaded o _ ho rfl)) fun secret hsecret => ?_
      refine ⟨fun t r hr => absurd hr List.not_mem_nil, fun id keyName value h => ?_⟩
      cases h
      exact ⟨secret, hsecret, rfl, rfl⟩

theorem organizationId_op (currentUser : UUID) (r : Request) :
    (r.op currentUser).organizationId = r.orgId := by
  cases r <;> rfl

/-- A request on an organization is answered with rows of it. -/
def ShowsOwn (K : RowPred) (r : Request) (response : Response) : Prop :=
  ∀ o, r.orgId = some o → Shows K o response.body

/-- A route writes only what its operation may, and shows rows of its organization. -/
theorem writes_handle (hK : K.Clearable vaultSchema) (server : Server) (currentUser : UUID)
    (r : Request) : (r.handle server currentUser).WritesOn K (r.MayWrite server currentUser K)
      (r.ShowsOwn K) := by
  have hrun : (r.run server currentUser).WritesOn K (r.MayWrite server currentUser K)
      (r.ShowsOwn K) := by
    rw [run_eq]
    cases ho : r.orgId with
    | none =>
      refine Prog.Writes.bind (B := fun _ => True) ?_ fun _ _ =>
        (reads_finish _ _).writes.mono (fun _ hw => hw) fun _ _ o ho' => by
          rw [ho] at ho'
          cases ho'
      exact (Op.writes hK _).mono (fun _ hw => hw) fun _ _ => trivial
    | some o =>
      refine Prog.Writes.bind (B := fun reply => (r.present (r.session server currentUser)
        reply).WritesOn K (r.MayWrite server currentUser K) (Shows K o)) ?_ fun reply hpresent =>
          .bind hpresent fun body hbody o' ho' => Option.some.inj (ho.symm.trans ho') ▸ hbody
      exact (Op.writes hK _).mono (fun _ hw => hw) fun reply hreply =>
        shows_present rfl ((organizationId_op currentUser r).trans ho) hreply
  unfold handle
  split
  · exact hrun
  · refine (reads_selectOne _ _).bind_writes fun membership _ => ?_
    split
    · exact fun o _ => .detail _
    · exact hrun

end Request

end EnvVault
