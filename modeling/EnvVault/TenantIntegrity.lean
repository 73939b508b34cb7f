import EnvVault.CommitLists
import EnvVault.SettledColumns

/-!
# The data of an organization under the requests on others

The parent chain that ties a row to its organization consists of settled columns, so in a
run of requests every key belongs to one organization for good. What a request on an
organization writes is about keys of that organization, whatever the others do between its
lookups and its commit. Hence no request on another organization changes, adds or removes
a row of it.
-/
namespace EnvVault
open EnvVault.Relational EnvVault.Transactions

/-- The current version that a secret names is one of its own. -/
def PointsHome (R : RowRegistry) : RowPred
  | .secrets, r => ∀ x, r.currentVersionId = some x →
      ∃ v : SecretVersion, AsRegistered R .secretVersions v ∧ v.id = x ∧ v.secretId = r.id
  | _, _ => True

/-- AsRegistered rows, the secrets among them with versions of their own. -/
def Tied (R : RowRegistry) : RowPred := fun t r => AsRegistered R t r ∧ PointsHome R t r

/-- The pointers of a database lead to versions of the same secret. -/
def PointersHome (db : Db) : Prop :=
  ∀ s ∈ db .secrets, ∀ x, s.currentVersionId = some x →
    ∃ v ∈ db .secretVersions, v.id = x ∧ v.secretId = s.id

section
variable {R : RowRegistry} {o o' x : UUID} {db : Db}

theorem Tied.settled_eq {t : Table} {r r' : RowOf t} (h : Tied R t r) (h' : Tied R t r')
    (hid : rowId t r = rowId t r') : settled t r = settled t r' := by
  have hr : R t (rowId t r) = some (settled t r) := h.1
  have hr' : R t (rowId t r') = some (settled t r') := h'.1
  rw [hid] at hr
  exact Option.some.inj (hr.symm.trans hr')

theorem project_settled {p p' : Project} (h : settled .projects p = settled .projects p') :
    p.organizationId = p'.organizationId :=
  (congrArg Project.organizationId h :)

theorem environment_settled {e e' : Environment}
    (h : settled .environments e = settled .environments e') : e.projectId = e'.projectId :=
  (congrArg Environment.projectId h :)

theorem secret_settled {s s' : Secret} (h : settled .secrets s = settled .secrets s') :
    s.environmentId = s'.environmentId :=
  (congrArg Secret.environmentId h :)

theorem version_settled {v v' : SecretVersion}
    (h : settled .secretVersions v = settled .secretVersions v') : v.secretId = v'.secretId :=
  (congrArg SecretVersion.secretId h :)

/-- The columns that tie a row to its organization are settled. -/
theorem belongsTo_congr {t : Table} {r r' : RowOf t} (h : settled t r = settled t r')
    (hb : BelongsTo (Tied R) o t r) : BelongsTo (Tied R) o t r' := by
  cases t with
  | users => exact hb
  | refreshTokens => exact hb.elim
  | organizations => exact (congrArg Organization.id h :).symm.trans hb
  | memberships => exact (congrArg Membership.organizationId h :).symm.trans hb
  | projects => exact (project_settled h).symm.trans hb
  | environments => exact (congrArg (ProjectOf (Tied R) o) (environment_settled h)).mp hb
  | encryptionKeys =>
    exact (congrArg (EnvironmentOf (Tied R) o) (congrArg EncryptionKey.environmentId h :)).mp hb
  | secrets => exact (congrArg (EnvironmentOf (Tied R) o) (secret_settled h)).mp hb
  | secretVersions => exact (congrArg (SecretOf (Tied R) o) (version_settled h)).mp hb
  | apiTokens =>
    exact (congrArg (ProjectOf (Tied R) o) (congrArg ApiToken.projectId h :)).mp hb
  | auditLogs => exact (congrArg AuditLog.organizationId h :).symm.trans hb

theorem belongsTo_of_keyOf {t : Table} {r : RowOf t} (hr : Tied R t r)
    (h : KeyOf (Tied R) o t (rowId t r)) : BelongsTo (Tied R) o t r := by
  obtain ⟨r', hr', hid, hb⟩ := h
  exact belongsTo_congr (hr'.settled_eq hr hid) hb

theorem projectOf_unique (h : ProjectOf (Tied R) o x) (h' : ProjectOf (Tied R) o' x) : o = o' := by
  obtain ⟨p, hp, rfl, rfl⟩ := h
  obtain ⟨p', hp', hid, rfl⟩ := h'
  exact project_settled (hp.settled_eq hp' hid.symm)

theorem environmentOf_unique (h : EnvironmentOf (Tied R) o x) (h' : EnvironmentOf (Tied R) o' x) :
    o = o' := by
  obtain ⟨e, he, rfl, hp⟩ := h
  obtain ⟨e', he', hid, hp'⟩ := h'
  have hsame : e.projectId = e'.projectId :=
    environment_settled (he.settled_eq he' hid.symm)
  rw [← hsame] at hp'
  exact projectOf_unique hp hp'

theorem secretOf_unique (h : SecretOf (Tied R) o x) (h' : SecretOf (Tied R) o' x) : o = o' := by
  obtain ⟨s, hs, rfl, he⟩ := h
  obtain ⟨s', hs', hid, he'⟩ := h'
  have hsame : s.environmentId = s'.environmentId :=
    secret_settled (hs.settled_eq hs' hid.symm)
  rw [← hsame] at he'
  exact environmentOf_unique he he'

theorem belongsTo_unique {t : Table} {r : RowOf t} (h : BelongsTo (Tied R) o t r)
    (h' : BelongsTo (Tied R) o' t r) : o = o' := by
  cases t with
  | users => exact h.elim
  | refreshTokens => exact h.elim
  | organizations => exact h.symm.trans h'
  | memberships => exact h.symm.trans h'
  | projects => exact h.symm.trans h'
  | environments => exact projectOf_unique h h'
  | encryptionKeys => exact environmentOf_unique h h'
  | secrets => exact environmentOf_unique h h'
  | secretVersions => exact secretOf_unique h h'
  | apiTokens => exact projectOf_unique h h'
  | auditLogs => exact Option.some.inj (h.symm.trans h')

theorem keyOf_unique {t : Table} (h : KeyOf (Tied R) o t x) (h' : KeyOf (Tied R) o' t x) :
    o = o' := by
  obtain ⟨r, hr, rfl, hb⟩ := h
  exact belongsTo_unique hb (belongsTo_of_keyOf hr h')

/-- In a valid database of registered rows the parent chain of a row is as registered. -/
theorem inOrganization_iff (hdb : vaultSchema.Valid db) (hK : Stored (Tied R) db) {t : Table}
    {r : RowOf t} (hr : r ∈ db t) : InOrganization db o t r ↔ KeyOf (Tied R) o t (rowId t r) := by
  have hproject : ∀ y, ProjectIn db o y → ProjectOf (Tied R) o y := by
    rintro y ⟨p, hp, hid, ho⟩
    exact ⟨p, hK .projects p hp, hid, ho⟩
  have henv : ∀ y, EnvironmentIn db o y → EnvironmentOf (Tied R) o y := by
    rintro y ⟨e, he, hid, hp⟩
    exact ⟨e, hK .environments e he, hid, hproject _ hp⟩
  have hsecret : ∀ y, SecretIn db o y → SecretOf (Tied R) o y := by
    rintro y ⟨s, hs, hid, he⟩
    exact ⟨s, hK .secrets s hs, hid, henv _ he⟩
  -- a parent that the database has is the registered one
  have hproject' : ∀ y, (∃ p ∈ db .projects, p.id = y) → ProjectOf (Tied R) o y →
      ProjectIn db o y := by
    rintro y ⟨p, hp, rfl⟩ h
    exact ⟨p, hp, rfl, projectOf_unique ⟨p, hK .projects p hp, rfl, rfl⟩ h⟩
  have henv' : ∀ y, (∃ e ∈ db .environments, e.id = y) → EnvironmentOf (Tied R) o y →
      EnvironmentIn db o y := by
    rintro y ⟨e, he, rfl⟩ ⟨e', he', hid, hp⟩
    have hsame : e'.projectId = e.projectId :=
      environment_settled (he'.settled_eq (hK .environments e he) hid)
    exact ⟨e, he, rfl, hproject' _ (parent_exists hdb he (by simp [referencesOf] :
      (.projects, some e.projectId) ∈ referencesOf .environments e)) (hsame ▸ hp)⟩
  have hsecret' : ∀ y, (∃ s ∈ db .secrets, s.id = y) → SecretOf (Tied R) o y →
      SecretIn db o y := by
    rintro y ⟨s, hs, rfl⟩ ⟨s', hs', hid, he⟩
    have hsame : s'.environmentId = s.environmentId :=
      secret_settled (hs'.settled_eq (hK .secrets s hs) hid)
    exact ⟨s, hs, rfl, henv' _ (parent_exists hdb hs (by simp [referencesOf] :
      (.environments, some s.environmentId) ∈ referencesOf .secrets s)) (hsame ▸ he)⟩
  have hbelongs : InOrganization db o t r ↔ BelongsTo (Tied R) o t r := by
    cases t with
    | users => exact Iff.rfl
    | refreshTokens => exact Iff.rfl
    | organizations => exact Iff.rfl
    | memberships => exact Iff.rfl
    | projects => exact Iff.rfl
    | auditLogs => exact Iff.rfl
    | environments =>
      exact ⟨hproject _, hproject' _ (parent_exists hdb hr (by simp [referencesOf] :
        (.projects, some r.projectId) ∈ referencesOf .environments r))⟩
    | apiTokens =>
      exact ⟨hproject _, hproject' _ (parent_exists hdb hr (by simp [referencesOf] :
        (.projects, some r.projectId) ∈ referencesOf .apiTokens r))⟩
    | encryptionKeys =>
      exact ⟨henv _, henv' _ (parent_exists hdb hr (by simp [referencesOf] :
        (.environments, some r.environmentId) ∈ referencesOf .encryptionKeys r))⟩
    | secrets =>
      exact ⟨henv _, henv' _ (parent_exists hdb hr (by simp [referencesOf] :
        (.environments, some r.environmentId) ∈ referencesOf .secrets r))⟩
    | secretVersions =>
      exact ⟨hsecret _, hsecret' _ (parent_exists hdb hr (by simp [referencesOf] :
        (.secrets, some r.secretId) ∈ referencesOf .secretVersions r))⟩
  rw [hbelongs]
  exact ⟨fun h => ⟨r, hK t r hr, rfl, h⟩, belongsTo_of_keyOf (hK t r hr)⟩

/-- The referential actions go from keys of an organization to keys of it. -/
theorem keyOf_child {fk : ForeignKey RowOf UUID} (hfk : fk ∈ vaultSchema.foreignKeys)
    (hact : fk.onDelete ≠ .noAction) {r : RowOf fk.child} (hr : Tied R fk.child r)
    (hx : fk.column r = some x) (h : KeyOf (Tied R) o fk.parent x) :
    KeyOf (Tied R) o fk.child (rowId fk.child r) := by
  refine ⟨r, hr, rfl, ?_⟩
  obtain ⟨q, hq, rfl, hb⟩ := h
  simp only [vaultSchema, foreignKeyList, List.mem_cons, List.not_mem_nil, or_false] at hfk
  rcases hfk with rfl | rfl | rfl | rfl | rfl | rfl | rfl | rfl | rfl | rfl | rfl | rfl | rfl |
    rfl | rfl | rfl | rfl
  · exact hb.elim
  · exact (Option.some.inj hx).trans hb
  · exact hb.elim
  · exact hb.elim
  · exact (Option.some.inj hx).trans hb
  · exact ⟨q, hq, (Option.some.inj hx).symm, hb⟩
  · exact ⟨q, hq, (Option.some.inj hx).symm, hb⟩
  · exact ⟨q, hq, (Option.some.inj hx).symm, hb⟩
  · exact hb.elim
  · exact absurd rfl hact
  -- the version at which a secret points is one of its own
  · obtain ⟨v, hv, hid, hsecret⟩ := hr.2 _ hx
    have hsame : q.secretId = r.id :=
      (version_settled (hq.settled_eq (t := .secretVersions) ⟨hv, trivial⟩ hid.symm)).trans hsecret
    obtain ⟨s, hs, hsid, he⟩ := hb
    exact (congrArg (EnvironmentOf (Tied R) o)
      (secret_settled (hs.settled_eq hr (hsid.trans hsame)))).mp he
  · exact hb.elim
  · exact ⟨q, hq, (Option.some.inj hx).symm, hb⟩
  · exact hb.elim
  · exact hx.trans (congrArg some hb)
  · exact hb.elim
  · exact ⟨q, hq, (Option.some.inj hx).symm, hb⟩

theorem keyOf_reached {t₀ t : Table} {x₀ : UUID} (h : KeyOf (Tied R) o t₀ x₀)
    (hreached : vaultSchema.Reached (Tied R) t₀ x₀ t x) : KeyOf (Tied R) o t x := by
  induction hreached with
  | root => exact h
  | child fk hfk hact r hr x hx _ ih => exact keyOf_child hfk hact hr hx ih

/-- SET NULL keeps a tied row tied. -/
theorem tied_clearable : (Tied R).Clearable vaultSchema := by
  intro fk hfk hupdates clear hclear r hr
  refine ⟨registered_clearable fk hfk hupdates clear hclear r hr.1, ?_⟩
  simp only [vaultSchema, foreignKeyList, List.mem_cons, List.not_mem_nil, or_false] at hfk
  rcases hfk with rfl | rfl | rfl | rfl | rfl | rfl | rfl | rfl | rfl | rfl | rfl | rfl | rfl |
    rfl | rfl | rfl | rfl <;> cases hclear <;> first | trivial | (intro x hx; cases hx)

/-- The tables without an organization. -/
def accountTables : List Table := [.users, .refreshTokens]

theorem not_keyOf_account {K : RowPred} {t : Table} (ht : t ∈ accountTables) :
    ¬ KeyOf K o t x := by
  rintro ⟨r, -, -, hb⟩
  simp only [accountTables, List.mem_cons, List.not_mem_nil, or_false] at ht
  rcases ht with rfl | rfl <;> exact hb

/-- What an operation writes on tied rows. -/
structure TiedWrite (R : RowRegistry) (op : Op) (w : RowWrite) : Prop where
  admits : (Tied R).Admits w
  within : (∃ o, op.organizationId = some o ∧
      KeyOf (Tied R) o (vaultSchema.target w).1 (vaultSchema.target w).2) ∨
    (vaultSchema.target w).1 ∈ accountTables ∨
    ∃ name slug userId, op = .createOrganization name slug userId

/-- A write is about a key of the organization of its operation, if it has one. -/
theorem Op.MayWrite.tied {d : Deployment} {op : Op} {w : RowWrite}
    (hw : op.MayWrite d (Tied R) w) (hR : (AsRegistered R).Admits w) : TiedWrite R op w := by
  cases hw with
  | registered email password fullName id =>
    exact ⟨⟨hR, trivial⟩, Or.inr (Or.inl List.mem_cons_self)⟩
  | issued op hissues id userId raw now =>
    exact ⟨⟨hR, trivial⟩, Or.inr (Or.inl (List.mem_cons_of_mem _ List.mem_cons_self))⟩
  | revoked op hrevokes r hr now =>
    exact ⟨⟨hR, trivial⟩, Or.inr (Or.inl (List.mem_cons_of_mem _ List.mem_cons_self))⟩
  | organizationCreated name slug userId id =>
    exact ⟨⟨hR, trivial⟩, Or.inr (Or.inr ⟨name, slug, userId, rfl⟩)⟩
  | ownerAdded name slug userId m huser hrole =>
    exact ⟨⟨hR, trivial⟩, Or.inr (Or.inr ⟨name, slug, userId, rfl⟩)⟩
  | organizationUpdated o u name slug r r' hr horg hid hname hslug =>
    exact ⟨⟨hR, trivial⟩, Or.inl ⟨o, rfl, r', ⟨hR, trivial⟩, rfl, hid.trans horg⟩⟩
  | invited o email role u hrole id userId now =>
    exact ⟨⟨hR, trivial⟩, Or.inl ⟨o, rfl, _, ⟨hR, trivial⟩, rfl, rfl⟩⟩
  | roleUpdated o id role u r hr hin => exact ⟨⟨hR, trivial⟩, Or.inl ⟨o, rfl, hin⟩⟩
  | projectCreated o name slug u description id =>
    exact ⟨⟨hR, trivial⟩, Or.inl ⟨o, rfl, _, ⟨hR, trivial⟩, rfl, rfl⟩⟩
  | projectUpdated p o u name slug description r r' hr hin hid horg hname hslug hdescription =>
    refine ⟨⟨hR, trivial⟩, Or.inl ⟨o, rfl, r', ⟨hR, trivial⟩, rfl, ?_⟩⟩
    exact horg.trans (projectOf_unique ⟨r, hr, rfl, rfl⟩ hin)
  | environmentCreated p o name u id hin =>
    exact ⟨⟨hR, trivial⟩, Or.inl ⟨o, rfl, _, ⟨hR, trivial⟩, rfl, hin⟩⟩
  | keyCreated p o name u id environmentId hin dek nonce =>
    exact ⟨⟨hR, trivial⟩, Or.inl ⟨o, rfl, _, ⟨hR, trivial⟩, rfl, hin⟩⟩
  | secretCreated e o keyName plainValue u id hin =>
    have hnone : PointsHome R .secrets ⟨id, e, keyName, none, false, none⟩ := by
      intro x hx
      cases hx
    exact ⟨⟨hR, hnone⟩, Or.inl ⟨o, rfl, _, ⟨hR, hnone⟩, rfl, hin⟩⟩
  | versionStored op plainValue hvalue o ho id secretId hin key hkey nonce encrypted henc number
      hpos hmax => exact ⟨⟨hR, trivial⟩, Or.inl ⟨o, ho, _, ⟨hR, trivial⟩, rfl, hin⟩⟩
  | pointed op plainValue hvalue o ho r hr hin v hv hsecret =>
    have hhome : PointsHome R .secrets { r with currentVersionId := some v.id } := fun x hx =>
      ⟨v, hv.1, Option.some.inj hx, hsecret⟩
    obtain ⟨s, hs, hid, he⟩ := hin
    exact ⟨⟨hR, hhome⟩, Or.inl ⟨o, ho, s, hs, hid, he⟩⟩
  | secretDeleted s o u r hr hin now =>
    obtain ⟨s', hs', hid, he⟩ := hin
    exact ⟨⟨hR, hr.2⟩, Or.inl ⟨o, rfl, s', hs', hid, he⟩⟩
  | revealRecorded s o u secret hs version hv id now =>
    exact ⟨⟨hR, trivial⟩, Or.inl ⟨o, rfl, _, ⟨hR, trivial⟩, rfl, rfl⟩⟩
  | cascaded op hdeletes o ho t id hin w hw =>
    refine ⟨hw.admits, Or.inl ⟨o, ho, ?_⟩⟩
    cases hw with
    | delete t x h => exact keyOf_reached hin h
    | clear t r hr h => exact keyOf_reached hin h

end

/-- An organization and the membership of its owner. -/
def Founds (ws : List RowWrite) : Prop :=
  ∃ (org : Organization) (m : Membership),
    ws = [.insert .organizations org, .insert .memberships m] ∧ m.organizationId = org.id

theorem OrganizationService.founds_create {uow : UnitOfWork} (name slug : String) (userId : UUID) :
    (create uow name slug userId).CommitsOnly Founds [] := by
  refine (reads_selectOne _ _).bind_commitsOnly fun _ _ =>
    (reads_raiseIf _ _ _).bind_commitsOnly fun _ _ => commitsOnly_conflict ?_
  rw [OrganizationRepository.createWithOwner]
  simp only [Prog.bind_eq, Prog.bind_assoc]
  refine Prog.commitsOnly_statement_bind fun inp v ws org hf => ?_
  obtain ⟨rfl, m, -, -, hin, -, rfl, -⟩ := createOrganizationWithOwner_ok hf
  refine (reads_get _ _).bind_commitsOnly fun found _ => ?_
  cases found with
  | none => trivial
  | some org => exact commitsOnly_commit_bind ⟨_, m, rfl, hin⟩ trivial

namespace Request

/-- The request creates an organization. -/
def IsFounding (r : Request) : Prop := ∃ name slug, r = .createOrganization name slug

theorem founds_handle (server : Server) (currentUser : UUID) (r : Request) :
    (r.handle server currentUser).CommitsOnly (fun ws => r.IsFounding → Founds ws) [] := by
  by_cases h : r.IsFounding
  · obtain ⟨name, slug, rfl⟩ := h
    have hop : ((Op.createOrganization name slug currentUser).program server.deployment
        (Request.session server currentUser (.createOrganization name slug))).CommitsOnly
          Founds [] :=
      (OrganizationService.founds_create name slug currentUser).bind fun org vs => by trivial
    have hrun : (Request.run server currentUser (.createOrganization name slug)).CommitsOnly
        Founds [] := hop.bind fun reply _ => (reads_finish server reply).commitsOnly
    exact hrun.mono fun ws hws _ => hws
  · exact Prog.commitsOnly_of_forall fun ws hr => absurd hr h

theorem isFounding_of_op {currentUser : UUID} {r : Request} {name slug : String} {userId : UUID}
    (h : r.op currentUser = .createOrganization name slug userId) : r.IsFounding := by
  cases r <;> cases h
  exact ⟨_, _, rfl⟩

end Request

section
variable {n : ℕ} {server : Server} {users : Fin n → UUID} {requests : Fin n → Request}
  {W : VaultWorld n} {as bs : Schedule n} {s t : Sys n Input Db RowWrite Exn Response}
  {R : RowRegistry} {o : UUID}

/-- In a run that the registry covers every write is one of its request, on tied rows, and so
is what the request is answered with. -/
theorem attributed_tied (hlog : W.log = []) (hpoint : PointersHome W.db)
    (hR : ∀ cs u, cs <+: as → (handling server users requests W).run vaultEngine cs = some u →
      R.Covers vaultSchema settled u)
    (hr : (handling server users requests W).run vaultEngine as = some s) :
    s.Attributed (Stored (Tied R)) (Tied R).Admits
      (fun i => (requests i).MayWrite server (users i) (Tied R))
      fun i => (requests i).ShowsOwn (Tied R) := by
  have hW := hR [] _ List.nil_prefix rfl
  have hdb : Stored (Tied R) W.db := by
    refine fun τ r hr => ⟨hW.db τ r hr, ?_⟩
    cases τ with
    | secrets =>
      intro x hx
      obtain ⟨v, hv, hid, hsecret⟩ := hpoint r hr x hx
      exact ⟨v, hW.db .secretVersions v hv, hid, hsecret⟩
    | _ => trivial
  have hinit : (handling server users requests W).Attributed (Stored (Tied R)) (Tied R).Admits
      (fun i => (requests i).MayWrite server (users i) (Tied R))
      fun i => (requests i).ShowsOwn (Tied R) :=
    .initial hdb hlog fun i => Request.writes_handle tied_clearable server (users i) _
  refine hinit.run (fun w db hw hdb => hdb.apply vaultSchema hw) hr ?_
  intro cs u hcs hu i w hw hmay
  exact (Op.MayWrite.tied hmay ((hR cs u hcs hu).pending i w hw)).admits

/-- Keys that have been used stay used. -/
theorem ever_of_run {base : Table × UUID → Prop} (hr : s.run vaultEngine as = some t)
    {p : Table × UUID} (h : vaultSchema.Ever base s.world p) :
    vaultSchema.Ever base t.world p := by
  refine h.imp_right ?_
  rintro ⟨e, he, hp⟩
  exact ⟨e, (Sys.run_log_prefix hr).subset he, hp⟩

/-- A commit of a request on no other organization leaves the keys of this one alone. -/
theorem not_touches_of_other {base : Table × UUID → Prop} {k : Fin n} {ws : List RowWrite}
    (hlawful : vaultSchema.LawfulCommit base s.world ws)
    (hused : vaultSchema.Ever base s.world (.organizations, o))
    (hws : ∀ w ∈ ws, (requests k).MayWrite server (users k) (Tied R) w ∧ (Tied R).Admits w)
    (hfounds : (requests k).IsFounding → Founds ws) (hother : (requests k).orgId ≠ some o)
    {τ : Table} {x : UUID} (hx : KeyOf (Tied R) o τ x) : ¬ vaultSchema.Touches ws τ x := by
  rintro ⟨w, hw, htarget⟩
  obtain ⟨hmay, hadmits⟩ := hws w hw
  rw [Request.MayWrite] at hmay
  generalize hop : (requests k).op (users k) = op at hmay
  have hkey : KeyOf (Tied R) o (vaultSchema.target w).1 (vaultSchema.target w).2 := by
    rw [htarget]
    exact hx
  rcases (hmay.tied (hadmits.mono fun _ _ h => h.1)).within with
    ⟨o', ho', hkey'⟩ | haccount | ⟨name, slug, userId, rfl⟩
  · obtain rfl := keyOf_unique hkey hkey'
    exact hother ((Request.organizationId_op (users k) _).symm.trans (hop ▸ ho'))
  · exact not_keyOf_account haccount hkey
  · obtain ⟨org, m, rfl, hin⟩ := hfounds (Request.isFounding_of_op hop)
    have hnew : o = org.id → False := by
      rintro rfl
      exact hlawful.unused (.organizations, org.id) (by simp [rowId]) hused
    simp only [List.mem_cons, List.not_mem_nil, or_false] at hw
    rcases hw with rfl | rfl
    · exact hnew (keyOf_unique hkey ⟨org, hadmits, rfl, rfl⟩)
    · exact hnew (keyOf_unique hkey ⟨m, hadmits, rfl, hin⟩)

/-- From any state of a run on: as long as the requests that commit are on other
organizations or on none, the organization has exactly the rows that it had. -/
theorem tenant_data_untouched (hb : Begins W) (hpoint : PointersHome W.db)
    (hs : (handling server users requests W).run vaultEngine as = some s)
    (ht : s.run vaultEngine bs = some t) (ho : ∃ org ∈ s.world.db .organizations, org.id = o)
    {later : List (Fin n × List RowWrite)} (hlater : t.world.log = s.world.log ++ later)
    (hothers : ∀ e ∈ later, (requests e.1).orgId ≠ some o) (τ : Table) (r : RowOf τ) :
    (r ∈ t.world.db τ ∧ InOrganization t.world.db o τ r) ↔
      (r ∈ s.world.db τ ∧ InOrganization s.world.db o τ r) := by
  have hrun : (handling server users requests W).run vaultEngine (as ++ bs) = some t := by
    rw [Sys.run_append, hs]
    exact ht
  obtain ⟨R, hR⟩ := hb.covered hrun
  have hatts := attributed_tied hb.log hpoint
    (fun cs u hcs hu => hR cs u (hcs.trans (List.prefix_append _ _)) hu) hs
  have hatt := attributed_tied hb.log hpoint hR hrun
  have hfounds : t.CommitsOnly fun i ws => (requests i).IsFounding → Founds ws :=
    (Sys.CommitsOnly.initial hb.log fun i => (requests i).founds_handle server (users i)).run hrun
  have hused : vaultSchema.Ever (baseKeys W.db) s.world (.organizations, o) := by
    obtain ⟨org, horg, rfl⟩ := ho
    exact (hb.sound_handling hs).used .organizations org horg
  -- the keys of the organization keep their rows, commit by commit
  have hkept : ∀ τ, ∀ r : RowOf τ, KeyOf (Tied R) o τ (rowId τ r) →
      (r ∈ t.world.db τ ↔ r ∈ s.world.db τ) := by
    refine Sys.run_store (I := fun db => ∀ τ, ∀ r : RowOf τ, KeyOf (Tied R) o τ (rowId τ r) →
      (r ∈ db τ ↔ r ∈ s.world.db τ)) ht (fun _ _ _ => Iff.rfl) ?_
    intro pre a u k ws _ hu hc hlog ih τ r hkey
    have hentry : (k, ws) ∈ later := by
      obtain ⟨mid, hmid⟩ := Sys.run_log_prefix hu
      obtain ⟨rest, hrest⟩ := hlog
      rw [← hmid, hlater, List.append_assoc, List.append_assoc, List.append_cancel_left_eq] at hrest
      rw [← hrest]
      exact List.mem_append_right _ List.mem_cons_self
    have hmem : (k, ws) ∈ t.world.log := hlater ▸ List.mem_append_right _ hentry
    have hu' : (handling server users requests W).run vaultEngine (as ++ pre) = some u := by
      rw [Sys.run_append, hs]
      exact hu
    have hlawful := (hb.sound_handling hu').committing hc
    have hfree := not_touches_of_other hlawful (ever_of_run hu hused) (hatt.log _ hmem)
      (hfounds.log _ hmem) (hothers _ hentry) hkey
    exact (Schema.agree_of_untouched hfree u.world.db r rfl).trans (ih τ r hkey)
  have hvs := (hb.sound_handling hs).valid
  have hvt := (hb.sound_handling hrun).valid
  constructor
  · rintro ⟨hr, hin⟩
    have hkey := (inOrganization_iff hvt hatt.db hr).mp hin
    have hr' := (hkept τ r hkey).mp hr
    exact ⟨hr', (inOrganization_iff hvs hatts.db hr').mpr hkey⟩
  · rintro ⟨hr, hin⟩
    have hkey := (inOrganization_iff hvs hatts.db hr).mp hin
    have hr' := (hkept τ r hkey).mpr hr
    exact ⟨hr', (inOrganization_iff hvt hatt.db hr').mpr hkey⟩

end

/-- Two organizations with a project each. -/
def twoTenantsDb : Db
  | .users => [⟨1, "ana@example.com", some "h", none, true⟩,
      ⟨2, "bob@example.com", some "h", none, true⟩]
  | .organizations => [⟨10, "acme", "acme"⟩, ⟨20, "umbrella", "umbrella"⟩]
  | .memberships => [⟨11, 1, 10, .owner, none, 0⟩, ⟨21, 2, 20, .owner, none, 0⟩]
  | .projects => [⟨12, 10, "billing", "billing", none, some 1⟩,
      ⟨22, 20, "billing", "billing", none, some 2⟩]
  | _ => []

theorem begins_twoTenants {n : ℕ} : Begins (⟨twoTenantsDb, [], samplePast 12⟩ : VaultWorld n) :=
  begins_sample (.of_checks mem_allTables (by decide) (by decide +kernel)) 12 (by decide)

/-- The first organization deletes its project, the second has added an environment. -/
def tenantRequests : Fin 2 → Request
  | 0 => .deleteProject 10 12
  | 1 => .createEnvironment 20 22 "prod"

def tenantUsers : Fin 2 → UUID
  | 0 => 1
  | 1 => 2

theorem tenant_data_untouched_twoTenants :
    ∃ s t, (handling sampleServer tenantUsers tenantRequests ⟨twoTenantsDb, [],
        samplePast 12⟩).run vaultEngine (sampleSteps 12 (List.replicate 10 1)) = some s ∧
      s.run vaultEngine (sampleSteps 22 (List.replicate 10 0)) = some t ∧
      t.world.log ≠ s.world.log ∧ ∀ τ r,
        (r ∈ t.world.db τ ∧ InOrganization t.world.db 20 τ r) ↔
          (r ∈ s.world.db τ ∧ InOrganization s.world.db 20 τ r) := by
  have hrun : ((handling sampleServer tenantUsers tenantRequests ⟨twoTenantsDb, [],
      samplePast 12⟩).run vaultEngine (sampleSteps 12 (List.replicate 10 1))).map
        (fun s => (s.world.log.map Prod.fst, s.world.db .organizations,
          (s.run vaultEngine (sampleSteps 22 (List.replicate 10 0))).map
            fun t => t.world.log.map Prod.fst)) =
      some ([1], [⟨10, "acme", "acme"⟩, ⟨20, "umbrella", "umbrella"⟩], some [1, 0]) := by rfl
  obtain ⟨s, hs, hfacts⟩ := Option.map_eq_some_iff.mp hrun
  simp only [Prod.mk.injEq] at hfacts
  obtain ⟨hlog, horgs, hafter⟩ := hfacts
  obtain ⟨t, ht, hlog'⟩ := Option.map_eq_some_iff.mp hafter
  obtain ⟨later, hlater⟩ := Sys.run_log_prefix ht
  have hcallers : later.map Prod.fst = [0] := by
    rw [← hlater, List.map_append, hlog] at hlog'
    simpa using hlog'
  refine ⟨s, t, hs, ht, fun hsame => ?_, ?_⟩
  · rw [hsame, hlog] at hlog'
    cases hlog'
  · refine tenant_data_untouched begins_twoTenants (fun s hs => absurd hs List.not_mem_nil) hs ht
      (by simp [horgs]) hlater.symm fun e he => ?_
    have hcaller : e.1 = 0 := by
      have hmem : e.1 ∈ later.map Prod.fst := List.mem_map_of_mem he
      simpa [hcallers] using hmem
    rw [hcaller]
    decide

end EnvVault
