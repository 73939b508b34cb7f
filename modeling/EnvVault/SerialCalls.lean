import EnvVault.StatementRules
import EnvVault.VaultInvariant

/-!
# Service calls that run alone

What the statements of a call answer when no other transaction is open and the
session acts for a member: the row-level security lets it at every row of its
organization, so the queries answer what the database holds.
-/
namespace EnvVault
open EnvVault.Relational EnvVault.RowSecurity EnvVault.Transactions

/-- The session acts for this member: it bypasses row-level security, or its
settings name the user and the organization of the membership. -/
structure Acts (uow : UnitOfWork) (db : Db) (m : Membership) : Prop where
  mem : m ∈ db .memberships
  session : uow.role.bypassesRls = true ∨
    uow.userId = some m.userId ∧ uow.orgId = some m.organizationId

section
variable {uow : UnitOfWork} {db : Db} {m : Membership}

theorem Acts.congr {db' : Db} (h : Acts uow db m) (heq : db' .memberships = db .memberships) :
    Acts uow db' m :=
  ⟨heq ▸ h.mem, h.session⟩

/-- It may do anything with the rows of its organization. -/
theorem Acts.may_tenant (h : Acts uow db m) {t : Table} (ht : t ∈ tenantTables) {a : Access}
    {r : RowOf t} (hr : InOrganization db m.organizationId t r) : uow.may db a t r = true := by
  rcases h.session with hrole | ⟨hu, ho⟩
  · simp [UnitOfWork.may, mayAccess, hrole]
  · have hadm : policiesAdmit uow.schemaOwner uow.context db a t r = true :=
      (policiesAdmit_tenant ht a r).mpr ⟨m.organizationId, ⟨⟨m, h.mem, hu, ho⟩, ho⟩, hr⟩
    simp [UnitOfWork.may, mayAccess, hadm]

/-- It sees the organization. -/
theorem Acts.may_organization (h : Acts uow db m) {o : Organization}
    (ho : o.id = m.organizationId) : uow.may db .select .organizations o = true := by
  rcases h.session with hrole | ⟨hu, ho'⟩
  · simp [UnitOfWork.may, mayAccess, hrole]
  · have hadm : policiesAdmit uow.schemaOwner uow.context db .select .organizations o = true := by
      simp only [policiesAdmit, organizationPolicies, admits_perCommand, passes_exists',
        Truth.passes_and, Truth.passes_eq_some, Bool.and_eq_true, decide_eq_true_eq,
        mem_visibleMemberships]
      exact ⟨m, ⟨h.mem, Or.inl hu⟩, congrArg some ho, hu⟩
    simp [UnitOfWork.may, mayAccess, hadm]

/-- As an owner it may delete the organization. -/
theorem Acts.may_deleteOrganization (h : Acts uow db m) (hrole : m.role = .owner)
    {o : Organization} (ho : o.id = m.organizationId) :
    uow.may db .delete .organizations o = true := by
  rcases h.session with hbypass | ⟨hu, -⟩
  · simp [UnitOfWork.may, mayAccess, hbypass]
  · have hadm : policiesAdmit uow.schemaOwner uow.context db .delete .organizations o = true := by
      simp only [policiesAdmit, organizationPolicies, admits_perCommand]
      exact passes_actorIn.mpr ⟨m, h.mem, ho.symm, hu, by simp [hrole]⟩
    simp [UnitOfWork.may, mayAccess, hadm]

/-- It sees its own membership. -/
theorem Acts.may_membership (h : Acts uow db m) : uow.may db .select .memberships m = true := by
  rcases h.session with hrole | ⟨hu, ho⟩
  · simp [UnitOfWork.may, mayAccess, hrole]
  · have hadm : policiesAdmit uow.schemaOwner uow.context db .select .memberships m = true := by
      simp only [policiesAdmit, membershipPolicies, admits_perCommand]
      exact (passes_orgMembershipsSelect 7 m).mpr (Or.inl hu)
    simp [UnitOfWork.may, mayAccess, hadm]

/-- A row of the organization passes the policies of an INSERT that returns it. -/
theorem Acts.may_returning {v : Db} (h : Acts uow v m) {t : Table} (ht : t ∈ tenantTables)
    {r : RowOf t} (hr : InOrganization v m.organizationId t r) :
    (uow.may v .insert t r && uow.may v .select t r) = true := by
  rw [h.may_tenant ht hr, h.may_tenant ht hr]
  rfl

/-- So does an invitation that an owner or an admin writes. -/
theorem Acts.may_invite {v : Db} {r : Membership} (h : Acts uow v m)
    (hrank : roleRank .admin ≤ roleRank m.role) (ho : r.organizationId = m.organizationId)
    (hr : r.role ≠ .owner) :
    (uow.may v .insert .memberships r && uow.may v .select .memberships r) = true := by
  rcases h.session with hbypass | ⟨hu, horg⟩
  · simp [UnitOfWork.may, mayAccess, hbypass]
  · have hactor : (actorIn uow.schemaOwner uow.context v r.organizationId
        [.owner, .admin]).passes = true := by
      refine passes_actorIn.mpr ⟨m, h.mem, ho.symm, hu, ?_⟩
      cases hrole : m.role <;> simp [hrole, roleRank] at hrank ⊢
    have hrole : r.role ∈ [MembershipRole.admin, .member, .viewer] := by
      cases hrole : r.role <;> simp [hrole] at hr ⊢
    have hinsert : policiesAdmit uow.schemaOwner uow.context v .insert .memberships r = true := by
      simp only [policiesAdmit, membershipPolicies, admits_perCommand, Truth.passes_or,
        Truth.passes_and, Truth.passes_some, hactor, decide_eq_true hrole]
      rfl
    have hselect : policiesAdmit uow.schemaOwner uow.context v .select .memberships r = true := by
      simp only [policiesAdmit, membershipPolicies, admits_perCommand]
      exact (passes_orgMembershipsSelect 7 r).mpr (Or.inr ⟨ho ▸ horg, m, h.mem, hu, horg⟩)
    simp [UnitOfWork.may, mayAccess, hinsert, hselect]

end

section
variable {uow : UnitOfWork} {inputs : ℕ → Input} {ws : List RowWrite} {db : Db} {t : Table}
open UnitOfWork

theorem answers_raiseIf {cond : Bool} {cls : ExnClass} {detail : String} (h : cond = false) :
    (raiseIf cond cls detail).Answers vaultEngine inputs ws db () := by
  subst h
  exact Prog.answers_ret

theorem refuses_raiseIf {cond : Bool} {cls : ExnClass} {detail : String} (h : cond = true) :
    (raiseIf cond cls detail).Refuses vaultEngine inputs ws db ⟨cls, detail⟩ := by
  subst h
  exact Prog.refuses_raise

theorem ends_readInput_bind {β : Type} {k : Input → Tx β}
    {post : Except Exn β → Solo Db RowWrite → Prop}
    (h : ∀ j, (k (inputs j)).Ends vaultEngine inputs ws db post) :
    (readInput.bind k).Ends vaultEngine inputs ws db post :=
  Prog.ends_statement_bind fun j => ⟨[], inputs j, rfl, by simpa using h j⟩

theorem answers_liftCrypto {α : Type} {r : Except CryptoError α} {a : α} (h : r = .ok a) :
    (liftCrypto r).Answers vaultEngine inputs ws db a := by
  subst h
  exact Prog.answers_ret

theorem answers_select (cond : RowOf t → Bool) :
    (uow.select t cond).Answers vaultEngine inputs [] db (uow.found t cond db) :=
  Prog.answers_statement fun _ => rfl

theorem answers_selectOne_none {cond : RowOf t → Bool} (h : ∀ r ∈ db t, cond r = false) :
    (uow.selectOne t cond).Answers vaultEngine inputs [] db none := by
  have hfound : uow.found t cond db = [] := by
    refine List.filter_eq_nil_iff.mpr fun r hr => ?_
    simp [h r hr]
  exact (answers_select cond).bind (hfound ▸ Prog.answers_ret)

theorem found_singleton (hdb : vaultSchema.Valid db) {cond : RowOf t → Bool} {r : RowOf t}
    (hr : r ∈ db t) (hmay : uow.may db .select t r = true) (hcond : cond r = true)
    (honly : ∀ r' ∈ db t, cond r' = true → r' = r) : uow.found t cond db = [r] := by
  refine List.perm_singleton.mp ((List.perm_ext_iff_of_nodup
    ((List.Nodup.of_map _ (hdb.keys t)).filter _) (List.nodup_singleton r)).mpr fun r' => ?_)
  simp only [List.mem_filter, Bool.and_eq_true, List.mem_singleton]
  constructor
  · exact fun h => honly r' h.1 h.2.2
  · rintro rfl
    exact ⟨hr, hmay, hcond⟩

/-- A query with one visible answer. -/
theorem answers_selectOne_some (hdb : vaultSchema.Valid db) {cond : RowOf t → Bool} {r : RowOf t}
    (hr : r ∈ db t) (hmay : uow.may db .select t r = true) (hcond : cond r = true)
    (honly : ∀ r' ∈ db t, cond r' = true → r' = r) :
    (uow.selectOne t cond).Answers vaultEngine inputs [] db (some r) := by
  have hfound := found_singleton hdb hr hmay hcond honly
  exact (answers_select cond).bind (hfound ▸ Prog.answers_ret)

/-- A query by id finds the row, or none that the session sees. -/
theorem answers_get_total (hdb : vaultSchema.Valid db) (id : UUID) : ∃ found,
    (uow.get t id).Answers vaultEngine inputs [] db found ∧
      ∀ r, found = some r → r ∈ db t ∧ rowId t r = id := by
  by_cases h : ∃ r ∈ db t, rowId t r = id ∧ uow.may db .select t r = true
  · obtain ⟨r, hr, hid, hmay⟩ := h
    refine ⟨some r, answers_selectOne_some hdb hr hmay (by simpa using hid) fun r' hr' hid' => ?_,
      fun _ h => Option.some.inj h ▸ ⟨hr, hid⟩⟩
    exact hdb.eq_of_id hr' hr ((by simpa using hid' : rowId t r' = id).trans hid.symm)
  · have hfound : uow.found t (fun r => rowId t r == id) db = [] := by
      refine List.filter_eq_nil_iff.mpr fun r hr hc => h ⟨r, hr, ?_⟩
      simp only [Bool.and_eq_true, beq_iff_eq] at hc
      exact ⟨hc.2, hc.1⟩
    exact ⟨none, (answers_select _).bind (hfound ▸ Prog.answers_ret), fun _ h => nomatch h⟩

theorem answers_get (hdb : vaultSchema.Valid db) {id : UUID} {r : RowOf t} (hr : r ∈ db t)
    (hmay : uow.may db .select t r = true) (hid : rowId t r = id) :
    (uow.get t id).Answers vaultEngine inputs [] db (some r) := by
  refine answers_selectOne_some hdb hr hmay (by simpa using hid) fun r' hr' h => ?_
  exact hdb.eq_of_id hr' hr ((by simpa using h : rowId t r' = id).trans hid.symm)

end

section
variable {uow : UnitOfWork} {inputs : ℕ → Input} {db : Db} {m : Membership}

/-- A user has one membership in an organization. -/
theorem membership_unique (hdb : vaultSchema.Valid db) {m' : Membership}
    (hm : m ∈ db .memberships) (hm' : m' ∈ db .memberships) (hu : m'.userId = m.userId)
    (ho : m'.organizationId = m.organizationId) : m' = m := by
  by_contra hne
  have hclash := hdb.unique .memberships
    (fun a b => a.userId == b.userId && a.organizationId == b.organizationId)
    (by simp [vaultSchema, uniqueOf]) m' hm' m hm
    (fun hid => hne (hdb.eq_of_id (t := .memberships) hm' hm hid))
  simp [hu, ho] at hclash

variable (hdb : vaultSchema.Valid db) (hacts : Acts uow db m)
include hdb hacts

theorem Acts.answers_getByUserAndOrg :
    (MembershipRepository.getByUserAndOrg uow m.userId m.organizationId).Answers vaultEngine inputs
      [] db (some m) := by
  refine answers_selectOne_some hdb hacts.mem hacts.may_membership (by simp) fun m' hm' hc => ?_
  simp only [Bool.and_eq_true, beq_iff_eq] at hc
  exact membership_unique hdb hacts.mem hm' hc.1 hc.2

theorem Acts.answers_getActorMembership :
    (getActorMembership uow m.organizationId m.userId).Answers vaultEngine inputs [] db m :=
  (hacts.answers_getByUserAndOrg hdb).bind Prog.answers_ret

theorem Acts.answers_requireOrgRole {minimum : MembershipRole}
    (hrole : roleRank minimum ≤ roleRank m.role) :
    (requireOrgRole uow m.organizationId m.userId minimum).Answers vaultEngine inputs [] db m :=
  (hacts.answers_getActorMembership hdb).bind
    ((answers_raiseIf (by simpa using hrole)).bind Prog.answers_ret)

theorem Acts.answers_requireOrgRoleAgain {minimum : MembershipRole}
    (hrole : roleRank minimum ≤ roleRank m.role) :
    (requireOrgRoleAgain uow m m.organizationId m.userId minimum).Answers vaultEngine inputs []
      db m := by
  refine (hacts.answers_getActorMembership hdb).bind ?_
  simp only [identityMap, if_true]
  exact (answers_raiseIf (by simpa using hrole)).bind Prog.answers_ret

theorem Acts.answers_getProject {notFound : ExnClass} {p : Project} (hp : p ∈ db .projects)
    (ho : p.organizationId = m.organizationId) :
    (ProjectService.lookup uow notFound m.organizationId p.id).Answers vaultEngine inputs [] db
      p := by
  refine (answers_get hdb hp (hacts.may_tenant (by decide) ho) rfl).bind ?_
  simp only [ho, beq_self_eq_true, Option.filter_some, if_true]
  exact Prog.answers_ret

theorem Acts.answers_getEnvironment {e : Environment} (he : e ∈ db .environments)
    (ho : ProjectIn db m.organizationId e.projectId) :
    (EnvironmentService.getIn uow m.organizationId e.id).Answers vaultEngine inputs [] db e := by
  refine (answers_get hdb he (hacts.may_tenant (by decide) ho) rfl).bind ?_
  obtain ⟨p, hp, hid, hpo⟩ := ho
  refine (answers_get hdb hp (hacts.may_tenant (by decide) hpo) hid).bind ?_
  exact (answers_raiseIf (by simp [hpo])).bind Prog.answers_ret

open SecretService

theorem Acts.answers_resolveEnvironmentOrg {e : UUID} (he : EnvironmentIn db m.organizationId e) :
    (resolveEnvironmentOrg uow e m.organizationId).Answers vaultEngine inputs [] db () := by
  obtain ⟨e, he, rfl, ho⟩ := he
  exact (hacts.answers_getEnvironment hdb he ho).bind Prog.answers_ret

theorem Acts.answers_getOwnedSecret {s : Secret} (hs : s ∈ db .secrets)
    (hlive : s.isDeleted = false) (he : EnvironmentIn db m.organizationId s.environmentId) :
    (getOwnedSecret uow s.id m.organizationId).Answers vaultEngine inputs [] db s := by
  refine (answers_get hdb hs (hacts.may_tenant (by decide) he) rfl).bind ?_
  simp only [hlive, Bool.not_false, Option.filter_some, if_true]
  exact (hacts.answers_resolveEnvironmentOrg hdb he).bind Prog.answers_ret

theorem Acts.answers_activeKey {kms : LocalKMSProvider} {e : UUID} {key : EncryptionKey}
    (hkey : OnlyKey kms db e key) (he : EnvironmentIn db m.organizationId e) :
    (activeKey uow e).Answers vaultEngine inputs [] db key := by
  refine (answers_selectOne_some hdb hkey.mem (hacts.may_tenant (by decide) ?_)
    (by simp [hkey.environment, hkey.active]) fun k hk hc => ?_).bind Prog.answers_ret
  · rwa [InOrganization, hkey.environment]
  · simp only [Bool.and_eq_true, beq_iff_eq] at hc
    exact hkey.only k hk hc.1

end

section
variable {uow : UnitOfWork} {inputs : ℕ → Input} {ws : List RowWrite} {db v : Db} {m : Membership}
  {t : Table} {β : Type} {post : Except Exn β → Solo Db RowWrite → Prop}

theorem answers_setRlsContext :
    UnitOfWork.setRlsContext.Answers vaultEngine inputs ws db () :=
  (Prog.answers_statement fun _ => rfl).bind (Prog.answers_statement fun _ => rfl)

theorem ends_commit_ret {b : β} (h : ∀ k, post (.ok b) ⟨k, [], vaultSchema.view ws db⟩) :
    (UnitOfWork.commit.bind fun _ => .ret b).Ends vaultEngine inputs ws db post := by
  rw [UnitOfWork.commit_bind]
  exact Prog.ends_commit_bind
    ((answers_setRlsContext.bind (f := fun _ => .ret b) Prog.answers_ret).ends_ret h)

theorem ends_commit {post : Except Exn Unit → Solo Db RowWrite → Prop}
    (h : ∀ k, post (.ok ()) ⟨k, [], vaultSchema.view ws db⟩) :
    UnitOfWork.commit.Ends vaultEngine inputs ws db post := by
  rw [← Prog.bind_ret UnitOfWork.commit]
  exact ends_commit_ret h

theorem ends_encryptSecret_bind {kms : LocalKMSProvider} {plainValue : String}
    {key : EncryptionKey} (hw : CryptoService.Wrapped kms key.wrappedDek) {k : Bytes × Bytes → Tx β}
    (h : ∀ j encryptedValue, (k (encryptedValue, (inputs j).nonce.1)).Ends vaultEngine inputs ws db
      post) :
    ((SecretService.encryptSecret kms plainValue key).bind k).Ends vaultEngine inputs ws db
      post := by
  have hassoc : (SecretService.encryptSecret kms plainValue key).bind k =
      readInput.bind fun random => (liftCrypto (CryptoService.encryptSecret kms plainValue
        key.wrappedDek random.nonce)).bind k := Prog.bind_assoc _ _ _
  rw [hassoc]
  refine ends_readInput_bind fun j => ?_
  obtain ⟨encryptedValue, henc⟩ := hw.encryptSecret plainValue (inputs j).nonce
  exact (answers_liftCrypto henc).ends (h j encryptedValue)

theorem ends_delete_bind {id : UUID} {k : Unit → Tx β} {vs : List RowWrite}
    (hr : ∃ r ∈ db t, rowId t r = id ∧ uow.may db .select t r = true ∧
      uow.may db .delete t r = true)
    (hvs : vaultSchema.deleteRow t id db = .ok vs)
    (h : (k ()).Ends vaultEngine inputs vs db post) :
    ((uow.delete t id).bind k).Ends vaultEngine inputs [] db post := by
  refine Prog.ends_statement_bind fun j => ⟨vs, (), ?_, h⟩
  simp [UnitOfWork.deleteRow, uow.any_deletable_iff.mpr hr, hvs]

theorem refuses_delete {id : UUID} {e : ReferentialError Table}
    (hr : ∃ r ∈ db t, rowId t r = id ∧ uow.may db .select t r = true ∧
      uow.may db .delete t r = true)
    (he : vaultSchema.deleteRow t id db = .error e) :
    (uow.delete t id).Refuses vaultEngine inputs [] db (referentialExn e) := by
  refine Prog.refuses_statement fun inp => ?_
  simp [UnitOfWork.deleteRow, uow.any_deletable_iff.mpr hr, he]

variable (hv : vaultSchema.view ws db = v) (hacts : Acts uow v m)
include hv hacts

theorem Acts.ends_insertFlushed_bind (ht : t ∈ tenantTables) {row : Input → RowOf t}
    {k : RowOf t → Tx β}
    (h : ∀ j, InOrganization v m.organizationId t (row (inputs j)) ∧
      vaultSchema.admitsInsert t (row (inputs j)) v = true ∧
        (k (row (inputs j))).Ends vaultEngine inputs (ws ++ [.insert t (row (inputs j))]) db post) :
    ((uow.insertFlushed t row).bind k).Ends vaultEngine inputs ws db post := by
  refine Prog.ends_statement_bind fun j => ?_
  obtain ⟨hin, hadm, hk⟩ := h j
  refine ⟨_, _, ?_, hk⟩
  rw [vaultEngine_view, hv]
  simp [UnitOfWork.insertRow, hacts.may_tenant ht hin, hadm]

omit hv in
/-- The row that the UPDATE of an object of the organization reaches. -/
theorem Acts.reached_eq (hvalid : vaultSchema.Valid v) (ht : t ∈ tenantTables) {r : RowOf t}
    (hr : r ∈ v t) (hin : InOrganization v m.organizationId t r) :
    uow.reached t (rowId t r) (fun _ => true) v = some r := by
  cases hfind : uow.reached t (rowId t r) (fun _ => true) v with
  | none =>
    have hnone := List.find?_eq_none.mp hfind r hr
    simp [hacts.may_tenant ht hin] at hnone
  | some r' =>
    have hid := List.find?_some hfind
    simp only [Bool.and_eq_true, beq_iff_eq] at hid
    exact congrArg some (hvalid.eq_of_id (List.mem_of_find?_eq_some hfind) hr hid.1.1.1)

omit hv in
/-- The UPDATE of an object of the organization. -/
theorem Acts.updateRow_eq (hvalid : vaultSchema.Valid v) (ht : t ∈ tenantTables)
    (happ : t ≠ .auditLogs) {r : RowOf t} (hr : r ∈ v t)
    (hin : InOrganization v m.organizationId t r) (set : RowOf t → RowOf t)
    (hin' : InOrganization v m.organizationId t (set r))
    (hadm : vaultSchema.admitsUpdate t (set r) v = true) :
    uow.updateRow t (rowId t r) (fun _ => true) set v = .ok ([.update t (set r)], 1) := by
  have hopen : vaultSchema.appendOnly t = false := decide_eq_false happ
  simp [UnitOfWork.updateRow, hacts.reached_eq hvalid ht hr hin, hacts.may_tenant ht hin', hadm,
    hopen]

/-- An INSERT of a row of the organization that a constraint refuses. -/
theorem Acts.refuses_insertFlushed (ht : t ∈ tenantTables) {row : Input → RowOf t}
    (h : ∀ inp, InOrganization v m.organizationId t (row inp) ∧
      vaultSchema.admitsInsert t (row inp) v = false) :
    (uow.insertFlushed t row).Refuses vaultEngine inputs ws db (integrityViolation t) := by
  refine Prog.refuses_statement fun inp => ?_
  rw [vaultEngine_view, hv]
  simp [UnitOfWork.insertRow, hacts.may_tenant ht (h inp).1, (h inp).2]

omit hv hacts in
/-- A new version of a secret that keeps its name and its place passes the constraints. -/
theorem admitsUpdate_secret (hvalid : vaultSchema.Valid v) {s s' : Secret} (hs : s ∈ v .secrets)
    (hid : s'.id = s.id) (henv : s'.environmentId = s.environmentId)
    (hname : s'.keyName = s.keyName) : vaultSchema.admitsUpdate .secrets s' v = true := by
  simp only [Schema.admitsUpdate, Bool.and_eq_true]
  refine ⟨Schema.uniqueAmong_iff.mpr fun x hx hne u hu => ?_, ?_⟩
  · have hclash := hvalid.unique .secrets _ hu x hx s hs fun heq => hne (heq.trans hid.symm)
    have hclash' := hvalid.unique .secrets _ hu s hs x hx fun heq => hne (heq.symm.trans hid.symm)
    obtain rfl : u = fun a b : Secret => a.environmentId == b.environmentId &&
        a.keyName == b.keyName := by simpa [vaultSchema, uniqueOf] using hu
    simp only [henv, hname]
    exact ⟨hclash, hclash'⟩
  · have hparent := parent_exists hvalid hs (by simp [referencesOf] :
      (.environments, some s.environmentId) ∈ referencesOf .secrets s)
    simpa [vaultSchema_referencesHold, referencesOf, henv] using hparent

omit hv in
/-- The UPDATE that makes a version of a secret its current one. -/
theorem Acts.updateRow_pointer (hvalid : vaultSchema.Valid v) {s : Secret} (hs : s ∈ v .secrets)
    (he : EnvironmentIn v m.organizationId s.environmentId) (versionId : UUID) :
    uow.updateRow .secrets s.id (fun _ => true)
      (fun s : Secret => { s with currentVersionId := some versionId }) v =
        .ok ([.update .secrets (s.pointingTo versionId)], 1) := by
  have hadm : vaultSchema.admitsUpdate .secrets (s.pointingTo versionId) v = true :=
    admitsUpdate_secret hvalid hs rfl rfl rfl
  exact hacts.updateRow_eq (t := .secrets) hvalid (by decide) (by decide) hs he
    (fun s : Secret => { s with currentVersionId := some versionId }) he hadm

omit hv in
/-- The deferred checks find the version in the database as it is after the UPDATE. -/
theorem Acts.pointer_checked {s : Secret} (hs : s ∈ v .secrets)
    (he : EnvironmentIn v m.organizationId s.environmentId) {version : SecretVersion}
    (hversion : version ∈ v .secretVersions) (hsecret : version.secretId = s.id) :
    ((vaultSchema.apply (.update .secrets (s.pointingTo version.id)) v .secretVersions).any
      fun sv : SecretVersion => sv.id == version.id) = true ∧
    ((vaultSchema.apply (.update .secrets (s.pointingTo version.id)) v .secretVersions).any
      fun sv : SecretVersion => sv.id == version.id && sv.secretId == s.id &&
        uow.may (vaultSchema.apply (.update .secrets (s.pointingTo version.id)) v) .select
          .secretVersions sv) = true := by
  have hpointing : s.pointingTo version.id ∈
      vaultSchema.apply (.update .secrets (s.pointingTo version.id)) v .secrets :=
    Schema.mem_apply_update.mpr (Or.inl ⟨rfl, s, hs, rfl⟩)
  have hacts' : Acts uow (vaultSchema.apply (.update .secrets (s.pointingTo version.id)) v) m :=
    hacts.congr rfl
  have hmay : uow.may (vaultSchema.apply (.update .secrets (s.pointingTo version.id)) v) .select
      .secretVersions version = true :=
    hacts'.may_tenant (by decide) ⟨s.pointingTo version.id, hpointing, hsecret.symm, he⟩
  have hversion' : version ∈
      vaultSchema.apply (.update .secrets (s.pointingTo version.id)) v .secretVersions := hversion
  exact ⟨List.any_eq_true.mpr ⟨version, hversion', by simp⟩,
    List.any_eq_true.mpr ⟨version, hversion', by simp [hsecret, hmay]⟩⟩

/-- The commit that makes a version of a secret its current one. -/
theorem Acts.ends_commitPointer_bind (hvalid : vaultSchema.Valid v) {s : Secret}
    (hs : s ∈ v .secrets) (he : EnvironmentIn v m.organizationId s.environmentId)
    {version : SecretVersion} (hversion : version ∈ v .secretVersions)
    (hsecret : version.secretId = s.id) {b : β}
    (h : ∀ k, post (.ok b) ⟨k, [], vaultSchema.view
      (ws ++ [.update .secrets (s.pointingTo version.id)]) db⟩) :
    ((SecretService.commitPointer uow s.id version.id).bind fun _ => .ret b).Ends vaultEngine inputs
      ws db post := by
  simp only [SecretService.commitPointer, UnitOfWork.updateFlushed, Prog.bind_eq, Prog.bind_assoc]
  refine Prog.ends_statement_bind fun j => ⟨[.update .secrets (s.pointingTo version.id)], 1, ?_,
    (answers_raiseIf (by decide)).ends ?_⟩
  · rw [vaultEngine_view, hv]
    exact hacts.updateRow_pointer hvalid hs he version.id
  have hview : vaultEngine.view (ws ++ [.update .secrets (s.pointingTo version.id)]) db =
      vaultSchema.apply (.update .secrets (s.pointingTo version.id)) v := by
    rw [vaultEngine_view, vaultSchema.view_append, hv]
    rfl
  have hcheck : (SecretService.checkCurrentVersion uow s.id version.id).Answers vaultEngine inputs
      (ws ++ [.update .secrets (s.pointingTo version.id)]) db () := by
    obtain ⟨hexists, howned⟩ := hacts.pointer_checked hs he hversion hsecret
    refine Prog.answers_statement fun inp => ?_
    rw [hview]
    simp only [hexists, howned, Bool.not_true, Bool.false_eq_true, if_false]
  exact hcheck.ends (ends_commit_ret h)

end

/-- How a method ends when it runs alone from this database. -/
def alone {α : Type} (inputs : ℕ → Input) (p : Tx α) (db : Db) : Except Exn α × Solo Db RowWrite :=
  p.exec vaultEngine inputs ⟨0, [], db⟩

section
variable {n : ℕ} {d : Deployment} {calls : Fin n → ServiceCall} {W : VaultWorld n}
  {as : Schedule n} {s : VaultSys n} {inputs : ℕ → Input}

/-- Where nobody else is in a transaction, a waiting call can run as it runs alone. -/
theorem alone_run {i : Fin n} (hi : s.call i = Call.initial ((calls i).program d))
    (hidle : ∀ j, j ≠ i → (s.call j).pending = [])
    (hf : FreshStream vaultEngine inputs s.world.past) :
    RunsTo vaultEngine i s (alone inputs ((calls i).program d) s.world.db) :=
  StandsAlone.runsTo hf ⟨hidle, by rw [hi]; rfl, by rw [hi]; rfl, rfl, rfl⟩

/-- The keys that the inputs of a later call supply are not in use. -/
theorem Begins.uuid_unused (hb : Begins W) (hr : (waiting d calls W).run vaultEngine as = some s)
    (hf : FreshStream vaultEngine inputs s.world.past) (k : ℕ) (t : Table) :
    ∀ r ∈ s.world.db t, rowId t r ≠ (inputs k).uuid := by
  intro r hrow heq
  have hsound := hb.sound hr
  obtain ⟨inp, hinp, hid⟩ := hsound.issued _ (hsound.used t r hrow)
  exact freshInput_ids (hf k) (inputs k).uuid (by simp [Input.ids]) inp
    (List.mem_append_right _ hinp) (heq ▸ hid)

end

/-- The samples from the `m`-th on are fresh after keys below `2 * m`. -/
theorem freshStream_sample {m : ℕ} {past : List Input}
    (h : past.all (fun p => p.ids.all fun x => decide (x < 2 * m)) = true) :
    FreshStream vaultEngine (fun k => sampleInput (m + k)) past := by
  intro k
  have hids : ∀ p ∈ consumed (fun k => sampleInput (m + k)) k ++ past, ∀ x : ℕ, x ∈ p.ids →
      x < 2 * (m + k) := by
    induction k with
    | zero =>
      intro p hp x hx
      simpa using List.all_eq_true.mp (List.all_eq_true.mp h p hp) x hx
    | succ k ih =>
      intro p hp x hx
      rcases List.mem_cons.mp hp with rfl | hp
      · simp only [sampleInput, Input.ids, List.mem_cons, List.not_mem_nil, or_false] at hx
        omega
      · have hlt := ih p hp x hx
        omega
  change freshInput _ _ = true
  simp only [freshInput, Bool.and_eq_true, List.all_eq_true, decide_eq_true_eq]
  refine ⟨by simp [sampleInput], fun p hp => ⟨fun hx => ?_, fun hx => ?_⟩⟩
  · have hlt := hids p hp _ hx
    simp only [sampleInput] at hlt
    omega
  · have hlt := hids p hp _ hx
    simp only [sampleInput] at hlt
    omega

end EnvVault
