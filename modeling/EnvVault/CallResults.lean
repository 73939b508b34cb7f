import EnvVault.OwnerRows
import EnvVault.SerialCalls
import EnvVault.SoloLogic

/-!
# What a service call has done when it returns

For every method of the access and vault services: the rows it has found and
checked in the database it runs on alone, what it returns, and the writes it has
committed. Nothing here depends on row-level security.
-/
namespace EnvVault
open EnvVault.Relational EnvVault.Transactions

/-- A membership of `u` in `o` whose role ranks at least as high as the minimum. -/
structure ActsIn (db : Db) (o u : UUID) (minimum : MembershipRole) (m : Membership) : Prop where
  mem : m ∈ db .memberships
  organization : m.organizationId = o
  user : m.userId = u
  rank : roleRank minimum ≤ roleRank m.role

/-- The user may act in the organization with this role or a higher one. -/
def Authorized (db : Db) (o u : UUID) (minimum : MembershipRole) : Prop :=
  ∃ m, ActsIn db o u minimum m

/-- A live secret of the organization. -/
structure OwnedSecret (db : Db) (o secretId : UUID) (s : Secret) : Prop where
  mem : s ∈ db .secrets
  id : s.id = secretId
  live : s.isDeleted = false
  environment : EnvironmentIn db o s.environmentId

/-- The organization with its new name and slug. -/
def Organization.changed (o : Organization) (name slug : Option String) : Organization :=
  { o with name := name.getD o.name, slug := slug.getD o.slug }

def Project.changed (p : Project) (name slug description : Option String) : Project :=
  { p with
    name := name.getD p.name
    slug := slug.getD p.slug
    description := description.orElse fun _ => p.description }

def Membership.withRole (m : Membership) (newRole : MembershipRole) : Membership :=
  { m with role := newRole }

/-- The writes of a DELETE: none when the policies hide the row or protect it. -/
def Deletes (uow : UnitOfWork) (db : Db) (t : Table) (id : UUID) (ws : List RowWrite) : Prop :=
  if ∃ r ∈ db t, rowId t r = id ∧ uow.may db .select t r = true ∧ uow.may db .delete t r = true
    then vaultSchema.deleteRow t id db = .ok ws
  else ws = []

/-- The reply of a call, and the writes it has committed. -/
inductive Op.Did (d : Deployment) (uow : UnitOfWork) (db : Db) :
    Op → Reply → List RowWrite → Prop
  | createOrganization (name slug : String) (u : UUID) (o : Organization) (m : Membership)
      (hnew : ∀ r ∈ db .organizations, r.id ≠ o.id) (ho : o.name = name ∧ o.slug = slug)
      (hm : m.organizationId = o.id ∧ m.userId = u ∧ m.role = .owner) :
      Did d uow db (.createOrganization name slug u) (.organization o)
        [.insert .organizations o, .insert .memberships m]
  | listOrganizations (os : List Organization) (hos : ∀ o ∈ os, o ∈ db .organizations) :
      Did d uow db .listOrganizations (.organizations os) []
  | getOrganization (o : UUID) (r : Organization) (hr : r ∈ db .organizations) (hid : r.id = o) :
      Did d uow db (.getOrganization o) (.organization r) []
  | updateOrganization (o u : UUID) (name slug : Option String) (r : Organization)
      (ha : Authorized db o u .admin) (hr : r ∈ db .organizations) (hid : r.id = o) :
      Did d uow db (.updateOrganization o u name slug) (.organization (r.changed name slug))
        (if r.changed name slug = r then [] else [.update .organizations (r.changed name slug)])
  | deleteOrganization (o u : UUID) (ws : List RowWrite) (ha : Authorized db o u .owner)
      (hws : Deletes uow db .organizations o ws) :
      Did d uow db (.deleteOrganization o u) .unit ws
  | listMemberships (o u : UUID) (ms : List Membership) (ha : Authorized db o u .viewer)
      (hms : ∀ m ∈ ms, m ∈ db .memberships ∧ m.organizationId = o) :
      Did d uow db (.listMemberships o u) (.memberships ms) []
  | invite (o : UUID) (email : String) (role : MembershipRole) (u : UUID) (actor m : Membership)
      (ha : ActsIn db o u .admin actor) (howner : role ≠ .owner)
      (hadmin : role = .admin → actor.role = .owner)
      (huser : ∃ user ∈ db .users, sameEmail user.email email = true ∧ m.userId = user.id)
      (hm : m.organizationId = o ∧ m.role = role ∧ m.invitedBy = some u)
      (hadm : vaultSchema.admitsInsert .memberships m db = true) :
      Did d uow db (.invite o email role u) (.membership m) [.insert .memberships m]
  | roleKept (o id : UUID) (newRole : MembershipRole) (u : UUID) (m : Membership)
      (ha : Authorized db o u .admin) (hm : m ∈ db .memberships) (hid : m.id = id)
      (ho : m.organizationId = o) (hrole : m.role = newRole) :
      Did d uow db (.updateRole o id newRole u) (.membership m) []
  | roleChanged (o id : UUID) (newRole : MembershipRole) (u : UUID) (actor m : Membership)
      (ha : ActsIn db o u .admin actor) (hm : m ∈ db .memberships) (hid : m.id = id)
      (ho : m.organizationId = o)
      (howner : newRole = .owner ∨ m.role = .owner → actor.role = .owner)
      (hadmin : newRole = .admin → actor.role = .owner) :
      Did d uow db (.updateRole o id newRole u) (.membership (m.withRole newRole))
        [.update .memberships (m.withRole newRole)]
  | removeMembership (o id u : UUID) (actor m : Membership) (ws : List RowWrite)
      (ha : ActsIn db o u .admin actor) (hm : m ∈ db .memberships) (hid : m.id = id)
      (ho : m.organizationId = o) (howner : m.role = .owner → actor.role = .owner)
      (hws : Deletes uow db .memberships id ws) :
      Did d uow db (.removeMembership o id u) .unit ws
  | createProject (o : UUID) (name slug : String) (u : UUID) (description : Option String)
      (p : Project) (ha : Authorized db o u .member) (ho : p.organizationId = o) :
      Did d uow db (.createProject o name slug u description) (.project p) [.insert .projects p]
  | listProjects (o u : UUID) (ps : List Project) (ha : Authorized db o u .viewer)
      (hps : ∀ p ∈ ps, p ∈ db .projects ∧ p.organizationId = o) :
      Did d uow db (.listProjects o u) (.projects ps) []
  | getProject (id o u : UUID) (p : Project) (ha : Authorized db o u .viewer)
      (hp : p ∈ db .projects) (hid : p.id = id) (ho : p.organizationId = o) :
      Did d uow db (.getProject id o u) (.project p) []
  | updateProject (id o u : UUID) (name slug description : Option String) (p : Project)
      (ha : Authorized db o u .member) (hp : p ∈ db .projects) (hid : p.id = id)
      (ho : p.organizationId = o) :
      Did d uow db (.updateProject id o u name slug description)
        (.project (p.changed name slug description))
        (if p.changed name slug description = p then []
          else [.update .projects (p.changed name slug description)])
  | deleteProject (id o u : UUID) (ws : List RowWrite) (ha : Authorized db o u .member)
      (hp : ProjectIn db o id) (hws : Deletes uow db .projects id ws) :
      Did d uow db (.deleteProject id o u) .unit ws
  | createEnvironment (project o : UUID) (name : String) (u : UUID) (e : Environment)
      (k : EncryptionKey) (ha : Authorized db o u .member) (hp : ProjectIn db o project)
      (he : e.projectId = project) (hk : k.environmentId = e.id) :
      Did d uow db (.createEnvironment project o name u) (.environment e)
        [.insert .environments e, .insert .encryptionKeys k]
  | listEnvironments (project o u : UUID) (es : List Environment)
      (ha : Authorized db o u .viewer) (hp : ProjectIn db o project)
      (hes : ∀ e ∈ es, e ∈ db .environments ∧ e.projectId = project) :
      Did d uow db (.listEnvironments project o u) (.environments es) []
  | getEnvironment (id o u : UUID) (e : Environment) (ha : Authorized db o u .viewer)
      (he : e ∈ db .environments) (hid : e.id = id) (ho : ProjectIn db o e.projectId) :
      Did d uow db (.getEnvironment id o u) (.environment e) []
  | deleteEnvironment (id o u : UUID) (ws : List RowWrite) (ha : Authorized db o u .member)
      (he : EnvironmentIn db o id) (hws : Deletes uow db .environments id ws) :
      Did d uow db (.deleteEnvironment id o u) .unit ws
  | createSecret (environment o : UUID) (keyName plainValue : String) (u : UUID) (s : Secret)
      (v : SecretVersion) (ha : Authorized db o u .member) (he : EnvironmentIn db o environment)
      (hs : s.environmentId = environment) (hnew : ∀ r ∈ db .secrets, r.id ≠ s.id)
      (hv : v.secretId = s.id) :
      Did d uow db (.createSecret environment o keyName plainValue u) (.secret (s.pointingTo v.id))
        [.insert .secrets s, .insert .secretVersions v, .update .secrets (s.pointingTo v.id)]
  | addNewVersion (secretId o : UUID) (plainValue : String) (u : UUID) (s : Secret)
      (v : SecretVersion) (ha : Authorized db o u .member) (hs : OwnedSecret db o secretId s)
      (hv : v.secretId = s.id) :
      Did d uow db (.addNewVersion secretId o plainValue u) (.version v)
        [.insert .secretVersions v, .update .secrets (s.pointingTo v.id)]
  | listSecrets (environment o u : UUID) (ss : List Secret) (ha : Authorized db o u .viewer)
      (he : EnvironmentIn db o environment)
      (hss : ∀ s ∈ ss, s ∈ db .secrets ∧ s.environmentId = environment) :
      Did d uow db (.listSecrets environment o u) (.secrets ss) []
  | getDecryptedValue (secretId o u : UUID) (s : Secret) (v : SecretVersion) (k : EncryptionKey)
      (a : AuditLog) (plainValue : String) (ha : Authorized db o u .member)
      (hs : OwnedSecret db o secretId s) (hv : v ∈ db .secretVersions)
      (hpointer : s.currentVersionId = some v.id) (hk : k ∈ db .encryptionKeys)
      (hid : k.id = v.encryptionKeyId)
      (hplain : CryptoService.decryptSecret d.kms v.encryptedValue v.iv k.wrappedDek =
        .ok plainValue) (hao : a.organizationId = some o) :
      Did d uow db (.getDecryptedValue secretId o u) (.value plainValue) [.insert .auditLogs a]
  | deleteSecret (secretId o u : UUID) (s : Secret) (time : Timestamp)
      (ha : Authorized db o u .member) (hs : OwnedSecret db o secretId s) :
      Did d uow db (.deleteSecret secretId o u) .unit
        (if uow.may db .select .secrets s && uow.may db .updateOld .secrets s then
          [.update .secrets (s.deletedFrom time)] else [])
  | listAuditLogs (o u : UUID) (limit offset : ℕ) (entries : List AuditLog)
      (ha : Authorized db o u .viewer)
      (hentries : ∀ a ∈ entries, a ∈ db .auditLogs ∧ a.organizationId = some o) :
      Did d uow db (.listAuditLogs o u limit offset) (.auditLogs entries) []

section
variable {uow : UnitOfWork} {inputs : ℕ → Input} {db : Db} {t : Table} {o u : UUID}
open UnitOfWork

theorem observes_raiseIf (cond : Bool) (cls : ExnClass) (detail : String) {ws : List RowWrite} :
    (raiseIf cond cls detail).Observes vaultEngine inputs ws db fun _ => cond = false :=
  (reads_raiseIf cond cls detail).observes

/-- A query finds rows of the session's own view. -/
theorem observes_select_view {ws : List RowWrite} (cond : RowOf t → Bool) :
    (uow.select t cond).Observes vaultEngine inputs ws db fun rows =>
      ∀ r ∈ rows, r ∈ vaultSchema.view ws db t ∧ cond r = true := by
  refine Prog.observes_statement fun _ vs rows h => ?_
  simp only [Except.ok.injEq, Prod.mk.injEq] at h
  obtain ⟨rfl, rfl⟩ := h
  refine ⟨rfl, fun r hr => ?_⟩
  obtain ⟨hr, hc⟩ := List.mem_filter.mp hr
  simp only [Bool.and_eq_true] at hc
  exact ⟨hr, hc.2⟩

theorem observes_select (cond : RowOf t → Bool) :
    (uow.select t cond).Observes vaultEngine inputs [] db fun rows =>
      ∀ r ∈ rows, r ∈ db t ∧ cond r = true :=
  observes_select_view cond

theorem observes_selectOne (cond : RowOf t → Bool) :
    (uow.selectOne t cond).Observes vaultEngine inputs [] db fun found =>
      ∀ r, found = some r → r ∈ db t ∧ cond r = true :=
  (observes_select cond).bind fun _ h => (reads_scalarOneOrNone h).observes

theorem observes_get (id : UUID) :
    (uow.get t id).Observes vaultEngine inputs [] db fun found =>
      ∀ r, found = some r → r ∈ db t ∧ rowId t r = id :=
  (observes_selectOne _).mono fun _ h r hr => ⟨(h r hr).1, by simpa using (h r hr).2⟩

theorem observes_requireOrgRole (minimum : MembershipRole) :
    (requireOrgRole uow o u minimum).Observes vaultEngine inputs [] db (ActsIn db o u minimum) := by
  refine Prog.Observes.bind (P := fun m : Membership =>
    m ∈ db .memberships ∧ m.userId = u ∧ m.organizationId = o) ?_ fun m hm => ?_
  · refine (observes_selectOne _).bind fun found h => ?_
    cases found with
    | none => exact Prog.observes_raise
    | some m =>
      obtain ⟨hm, hc⟩ := h m rfl
      simp only [Bool.and_eq_true, beq_iff_eq] at hc
      exact Prog.observes_ret ⟨hm, hc⟩
  · refine (observes_raiseIf _ _ _).bind fun _ hrank => Prog.observes_ret ?_
    exact ⟨hm.1, hm.2.2, hm.2.1, by simpa using hrank⟩

theorem observes_requireOrgRoleAgain (loaded : Membership) (minimum : MembershipRole) :
    (requireOrgRoleAgain uow loaded o u minimum).Observes vaultEngine inputs [] db fun _ => True :=
  (reads_requireOrgRoleAgain loaded o u minimum).observes

theorem OrganizationService.observes_getOrganization :
    (OrganizationService.get uow o).Observes vaultEngine inputs [] db fun r =>
      r ∈ db .organizations ∧ r.id = o := by
  refine (observes_get (t := .organizations) o).bind fun found h => ?_
  cases found with
  | none => exact Prog.observes_raise
  | some r => exact Prog.observes_ret (h r rfl)

/-- The identity map of the session changes nothing when nobody else writes. -/
theorem MembershipService.observes_getTarget (hdb : vaultSchema.Valid db) {actor : Membership}
    (hactor : actor ∈ db .memberships) (id : UUID) :
    (getTarget uow actor o id).Observes vaultEngine inputs [] db fun m =>
      m ∈ db .memberships ∧ m.id = id ∧ m.organizationId = o := by
  refine (observes_get (t := .memberships) id).bind fun found h => ?_
  cases found with
  | none => exact Prog.observes_raise
  | some m =>
    obtain ⟨hm, hid⟩ := h m rfl
    have hsame : identityMap Membership.id actor m = m := by
      unfold identityMap
      split
      · rename_i he
        exact hdb.eq_of_id (t := .memberships) hactor hm he
      · rfl
    simp only [hsame]
    refine (observes_raiseIf _ _ _).bind fun _ ho => Prog.observes_ret ⟨hm, hid, ?_⟩
    simpa using ho

theorem ProjectService.observes_lookup {notFound : ExnClass} (id : UUID) :
    (ProjectService.lookup uow notFound o id).Observes vaultEngine inputs [] db fun p =>
      p ∈ db .projects ∧ p.id = id ∧ p.organizationId = o := by
  refine (observes_get (t := .projects) id).bind fun found h => ?_
  split
  · exact Prog.observes_raise
  · rename_i p hp
    obtain ⟨hp, ho⟩ := Option.filter_eq_some_iff.mp hp
    exact Prog.observes_ret ⟨(h p hp).1, (h p hp).2, by simpa using ho⟩

theorem EnvironmentService.observes_getIn (id : UUID) :
    (EnvironmentService.getIn uow o id).Observes vaultEngine inputs [] db fun e =>
      e ∈ db .environments ∧ e.id = id ∧ ProjectIn db o e.projectId := by
  refine (observes_get (t := .environments) id).bind fun found h => ?_
  cases found with
  | none => exact Prog.observes_raise
  | some e =>
    refine (observes_get (t := .projects) e.projectId).bind fun project hp => ?_
    refine (observes_raiseIf _ _ _).bind fun _ ho =>
      Prog.observes_ret ⟨(h e rfl).1, (h e rfl).2, ?_⟩
    cases project with
    | none => simp at ho
    | some p => exact ⟨p, (hp p rfl).1, (hp p rfl).2, by simpa using ho⟩

open SecretService

theorem observes_resolveEnvironmentOrg (e : UUID) :
    (resolveEnvironmentOrg uow e o).Observes vaultEngine inputs [] db fun _ =>
      EnvironmentIn db o e :=
  (EnvironmentService.observes_getIn e).bind fun r h =>
    Prog.observes_ret ⟨r, h.1, h.2.1, h.2.2⟩

theorem observes_getOwnedSecret (id : UUID) :
    (getOwnedSecret uow id o).Observes vaultEngine inputs [] db (OwnedSecret db o id) := by
  refine (observes_get (t := .secrets) id).bind fun found h => ?_
  split
  · exact Prog.observes_raise
  · rename_i s hs
    obtain ⟨hs, hlive⟩ := Option.filter_eq_some_iff.mp hs
    refine (observes_resolveEnvironmentOrg s.environmentId).bind fun _ he => Prog.observes_ret ?_
    exact ⟨(h s hs).1, (h s hs).2, by simpa using hlive, he⟩

theorem observes_activeKey (e : UUID) :
    (activeKey uow e).Observes vaultEngine inputs [] db fun k =>
      k ∈ db .encryptionKeys ∧ k.environmentId = e := by
  refine (observes_selectOne (t := .encryptionKeys) _).bind fun found h => ?_
  cases found with
  | none => exact Prog.observes_raise
  | some k =>
    obtain ⟨hk, hc⟩ := h k rfl
    simp only [Bool.and_eq_true, beq_iff_eq] at hc
    exact Prog.observes_ret ⟨hk, hc.1⟩

/-- Which version is the latest plays no part in what the call has done. -/
theorem observes_getLatestForSecret (id : UUID) :
    (SecretVersionRepository.getLatestForSecret uow id).Observes vaultEngine inputs [] db
      fun _ => True :=
  (observes_select _).bind fun _ _ => Prog.observes_ret trivial

end

section
variable {uow : UnitOfWork} {inputs : ℕ → Input} {ws : List RowWrite} {db : Db} {t : Table}
  {β : Type} {R : β → Db → Prop}

/-- An INSERT that answers has found the row admissible. -/
theorem yields_insertFlushed_bind {row : Input → RowOf t} {k : RowOf t → Tx β}
    (h : ∀ inp, vaultSchema.admitsInsert t (row inp) (vaultSchema.view ws db) = true →
      (k (row inp)).Yields vaultEngine inputs (ws ++ [.insert t (row inp)]) db R) :
    ((uow.insertFlushed t row).bind k).Yields vaultEngine inputs ws db R := by
  refine Prog.yields_statement_bind fun j vs r hr => ?_
  obtain ⟨rfl, rfl, hadm⟩ := UnitOfWork.insertRow_ok hr
  exact h _ hadm

/-- The row that an UPDATE by id reaches is visible and may be updated. -/
theorem reached_some {id : UUID} {cond : RowOf t → Bool} {v : Db} {r : RowOf t}
    (h : uow.reached t id cond v = some r) : r ∈ v t ∧ rowId t r = id ∧ cond r = true ∧
      uow.may v .select t r = true ∧ uow.may v .updateOld t r = true := by
  have hr := List.find?_some h
  simp only [Bool.and_eq_true, beq_iff_eq] at hr
  exact ⟨List.mem_of_find?_eq_some h, hr.1.1.1, hr.1.1.2, hr.1.2, hr.2⟩

/-- A row that an UPDATE by id does not reach is hidden or may not be updated. -/
theorem reached_none {id : UUID} {v : Db} {r : RowOf t}
    (h : uow.reached t id (fun _ => true) v = none) (hr : r ∈ v t) (hid : rowId t r = id) :
    (uow.may v .select t r && uow.may v .updateOld t r) = false := by
  have hnot := List.find?_eq_none.mp h r hr
  simpa [hid] using hnot

theorem yields_updateById_bind {id : UUID} {cond : RowOf t → Bool}
    {set : Input → RowOf t → RowOf t} {k : ℕ → Tx β}
    (hnone : uow.reached t id cond (vaultSchema.view ws db) = none →
      (k 0).Yields vaultEngine inputs ws db R)
    (hsome : ∀ inp r, uow.reached t id cond (vaultSchema.view ws db) = some r →
      (k 1).Yields vaultEngine inputs (ws ++ [.update t (set inp r)]) db R) :
    ((uow.updateById t id cond set).bind k).Yields vaultEngine inputs ws db R := by
  refine Prog.yields_statement_bind fun j vs n hr => ?_
  rw [vaultEngine_view, UnitOfWork.updateRow] at hr
  split at hr
  · rename_i hnot
    simp only [Except.ok.injEq, Prod.mk.injEq] at hr
    obtain ⟨rfl, rfl⟩ := hr
    rw [List.append_nil]
    exact hnone hnot
  · rename_i r hreach
    split at hr
    · cases hr
    · split at hr
      · cases hr
      · split at hr
        · cases hr
        · simp only [Except.ok.injEq, Prod.mk.injEq] at hr
          obtain ⟨rfl, rfl⟩ := hr
          exact hsome _ r hreach

/-- The UPDATE of a changed object that returns has stored it. -/
theorem yields_updateFlushed_bind {id : UUID} {set : RowOf t → RowOf t} {k : Unit → Tx β}
    (h : ∀ r ∈ vaultSchema.view ws db t, rowId t r = id →
      (k ()).Yields vaultEngine inputs (ws ++ [.update t (set r)]) db R) :
    ((uow.updateFlushed t id set).bind k).Yields vaultEngine inputs ws db R := by
  rw [UnitOfWork.updateFlushed_bind]
  refine yields_updateById_bind (fun _ => Prog.yields_raise) fun _ r hreach => ?_
  obtain ⟨hr, hid, -⟩ := reached_some hreach
  exact h r hr hid

/-- A DELETE goes on whether or not it has removed the row. -/
theorem yields_delete_bind {id : UUID} {k : Unit → Tx β}
    (h : ∀ vs, Deletes uow db t id vs → (k ()).Yields vaultEngine inputs vs db R) :
    ((uow.delete t id).bind k).Yields vaultEngine inputs [] db R := by
  refine Prog.yields_statement_bind fun j vs a hr => ?_
  rw [List.nil_append]
  refine h vs ?_
  rw [vaultEngine_view, Schema.view_nil, UnitOfWork.deleteRow] at hr
  unfold Deletes
  split at hr
  · rename_i hmay
    rw [if_pos (uow.any_deletable_iff.mp hmay)]
    split at hr
    · cases hr
    · rename_i us hus
      simp only [Except.ok.injEq, Prod.mk.injEq] at hr
      rw [← hr.1]
      exact hus
  · rename_i hmay
    simp only [Except.ok.injEq, Prod.mk.injEq] at hr
    rw [if_neg (fun he => hmay (uow.any_deletable_iff.mpr he))]
    exact hr.1.symm

/-- What is pending at the COMMIT is what the call has done. -/
theorem yields_commit_ret {b : β} (h : R b (vaultSchema.view ws db)) :
    (UnitOfWork.commit.bind fun _ => .ret b).Yields vaultEngine inputs ws db R := by
  rw [UnitOfWork.commit_bind]
  exact Prog.yields_commit_bind (answers_setRlsContext.bind (f := fun _ => .ret b)
    Prog.answers_ret) h

theorem yields_commit {R : Unit → Db → Prop} (h : R () (vaultSchema.view ws db)) :
    UnitOfWork.commit.Yields vaultEngine inputs ws db R := by
  rw [← Prog.bind_ret UnitOfWork.commit]
  exact yields_commit_ret h

/-- The handler of a violated constraint gives up. -/
theorem yields_conflict {body : Tx β} {exn : Exn} (hb : body.Yields vaultEngine inputs ws db R) :
    (exceptIntegrityError body (do UnitOfWork.rollback; throw exn)).Yields vaultEngine inputs ws
      db R := by
  refine Prog.yields_handle hb fun e vs => ?_
  split
  · exact Prog.yields_rollback_bind Prog.yields_raise
  · exact Prog.yields_raise

/-- An INSERT and its COMMIT, with the handler. -/
theorem yields_insertOrConflict {row : Input → RowOf t} {exn : Exn} {R : RowOf t → Db → Prop}
    (h : ∀ inp, vaultSchema.admitsInsert t (row inp) db = true →
      R (row inp) (vaultSchema.view [.insert t (row inp)] db)) :
    (exceptIntegrityError
      (do let r ← uow.insertFlushed t row
          UnitOfWork.commit
          return r)
      (do UnitOfWork.rollback
          throw exn)).Yields vaultEngine inputs [] db R :=
  yields_conflict (yields_insertFlushed_bind fun inp hadm => yields_commit_ret (h inp hadm))

/-- The commit that makes a version of a secret its current one. -/
theorem yields_commitPointer_bind {secretId versionId : UUID} {b : β}
    (h : ∀ s ∈ vaultSchema.view ws db .secrets, s.id = secretId →
      R b (vaultSchema.view (ws ++ [.update .secrets (s.pointingTo versionId)]) db)) :
    ((SecretService.commitPointer uow secretId versionId).bind fun _ => .ret b).Yields vaultEngine
      inputs ws db R := by
  simp only [SecretService.commitPointer, Prog.bind_eq, Prog.bind_assoc]
  refine yields_updateFlushed_bind (t := .secrets) fun s hs hid => ?_
  exact (SecretService.reads_checkCurrentVersion secretId versionId).observes.yields
    fun _ _ => yields_commit_ret (h s hs hid)

end

/-- What a call that has returned has done. -/
def DidAll (d : Deployment) (uow : UnitOfWork) (db : Db) (op : Op) (reply : Reply) (db' : Db) :
    Prop :=
  ∃ ws, op.Did d uow db reply ws ∧ db' = vaultSchema.view ws db

/-- A column is set when its value changes, and so gets the value anyway. -/
theorem changedColumn_eq {α : Type} [DecidableEq α] (new old : α) :
    (if new ≠ old then new else old) = new := by
  split
  · rfl
  · rename_i h
    exact (not_not.mp h).symm

section
variable {d : Deployment} {uow : UnitOfWork} {inputs : ℕ → Input} {db : Db} {o u : UUID}

/-- The organization that is read back is the one just inserted. -/
theorem OrganizationService.yields_create (name slug : String) :
    (OrganizationService.create uow name slug u).Yields vaultEngine inputs [] db fun org db' =>
      DidAll d uow db (.createOrganization name slug u) (.organization org) db' := by
  refine (observes_selectOne (t := .organizations) _).yields fun _ _ => ?_
  refine (observes_raiseIf _ _ _).yields fun _ _ => ?_
  refine yields_conflict ?_
  simp only [OrganizationRepository.createWithOwner, Prog.bind_eq, Prog.bind_assoc]
  refine Prog.yields_statement_bind fun j vs row hr => ?_
  obtain ⟨rfl, m, -, hmu, hmo, hmr, rfl, hadm, -⟩ := createOrganizationWithOwner_ok hr
  have hnew := (Schema.admitsInsert_iff.mp hadm).1
  -- the organization that the session reads back is the one of this key in its own view
  refine Prog.Observes.yields (P := fun found => ∀ r, found = some r →
    r ∈ vaultSchema.view [.insert .organizations ⟨(inputs j).uuid, name, slug⟩,
      .insert .memberships m] db .organizations ∧ r.id = (inputs j).uuid) ?_ fun found h => ?_
  · refine ((observes_select_view (t := .organizations) _).bind fun _ h =>
      (reads_scalarOneOrNone h).observes).mono fun found h r hr => ?_
    exact ⟨(h r hr).1, eq_of_beq (h r hr).2⟩
  · cases found with
    | none => exact Prog.yields_raise
    | some org =>
      obtain ⟨hmem, hid⟩ := h org rfl
      have hviewOrg : vaultSchema.view [.insert .organizations ⟨(inputs j).uuid, name, slug⟩,
          .insert .memberships m] db .organizations =
            db .organizations ++ [⟨(inputs j).uuid, name, slug⟩] := rfl
      rw [hviewOrg, List.mem_append, List.mem_singleton] at hmem
      rcases hmem with hmem | rfl
      · exact absurd hid (hnew org hmem)
      · exact yields_commit_ret ⟨_, .createOrganization name slug u _ m hnew ⟨rfl, rfl⟩
          ⟨hmo, hmu, hmr⟩, rfl⟩

theorem OrganizationService.yields_listForUser :
    (OrganizationService.listForUser uow).Yields vaultEngine inputs [] db fun os db' =>
      DidAll d uow db .listOrganizations (.organizations os) db' := by
  refine (observes_select (t := .organizations) _).yields fun rows h => Prog.yields_ret ?_
  exact ⟨[], .listOrganizations _ fun o ho => (h o (List.mem_mergeSort.mp ho)).1, rfl⟩

theorem OrganizationService.yields_getOrganization :
    (OrganizationService.get uow o).Yields vaultEngine inputs [] db fun r db' =>
      DidAll d uow db (.getOrganization o) (.organization r) db' :=
  OrganizationService.observes_getOrganization.yields_last fun r hr =>
    ⟨[], .getOrganization o r hr.1 hr.2, rfl⟩

/-- The object that is returned has the values that the UPDATE has stored. -/
theorem OrganizationService.yields_update (hdb : vaultSchema.Valid db)
    (name slug : Option String) :
    (OrganizationService.update uow o u name slug).Yields vaultEngine inputs [] db fun org db' =>
      DidAll d uow db (.updateOrganization o u name slug) (.organization org) db' := by
  refine (observes_requireOrgRole _).yields fun m hm => ?_
  refine OrganizationService.observes_getOrganization.yields fun r hr => ?_
  refine Prog.Observes.yields (P := fun _ => True) ?_ fun _ _ => ?_
  · split
    · exact Prog.observes_ret trivial
    · split
      · refine (observes_selectOne (t := .organizations) _).bind fun _ _ => ?_
        exact (observes_raiseIf _ _ _).mono fun _ _ => trivial
      · exact Prog.observes_ret trivial
  refine yields_conflict ?_
  have hdid : Op.Did d uow db (.updateOrganization o u name slug) _ _ :=
    .updateOrganization o u name slug r ⟨m, hm⟩ hr.1 hr.2
  by_cases hch : r.changed name slug = r
  · rw [if_pos hch] at hdid
    have hsame : ¬ r.changed name slug ≠ r := fun h => h hch
    dsimp only [Organization.changed] at hsame
    rw [if_neg hsame]
    exact yields_commit_ret ⟨_, hdid, rfl⟩
  · rw [if_neg hch] at hdid
    dsimp only [Organization.changed] at hch
    rw [if_pos hch]
    refine yields_updateFlushed_bind (t := .organizations) fun r' hr' hid => ?_
    obtain rfl : r' = r := hdb.eq_of_id (t := .organizations) hr' hr.1 hid
    refine yields_commit_ret ⟨_, hdid, ?_⟩
    simp only [List.nil_append, changedColumn_eq, Organization.changed]

theorem OrganizationService.yields_delete :
    (OrganizationService.delete uow o u).Yields vaultEngine inputs [] db fun _ db' =>
      DidAll d uow db (.deleteOrganization o u) .unit db' := by
  refine (observes_requireOrgRole _).yields fun m hm => ?_
  refine OrganizationService.observes_getOrganization.yields fun r hr => ?_
  refine yields_delete_bind fun ws hws => yields_commit ?_
  rw [hr.2] at hws
  exact ⟨ws, .deleteOrganization o u ws ⟨m, hm⟩ hws, rfl⟩

theorem MembershipService.yields_list :
    (MembershipService.list uow o u).Yields vaultEngine inputs [] db fun ms db' =>
      DidAll d uow db (.listMemberships o u) (.memberships ms) db' := by
  refine (observes_requireOrgRole _).yields fun m hm => ?_
  refine (observes_select (t := .memberships) _).yields fun rows h => Prog.yields_ret ?_
  refine ⟨[], .listMemberships o u _ ⟨m, hm⟩ fun r hr => ?_, rfl⟩
  simpa using h r (List.mem_mergeSort.mp hr)

theorem MembershipService.yields_invite (email : String) (role : MembershipRole) :
    (MembershipService.invite uow o email role u).Yields vaultEngine inputs [] db fun m db' =>
      DidAll d uow db (.invite o email role u) (.membership m) db' := by
  refine (observes_raiseIf _ _ _).yields fun _ howner => ?_
  refine (observes_requireOrgRole _).yields fun actor hactor => ?_
  refine (observes_raiseIf _ _ _).yields fun _ hadmin => ?_
  refine (observes_selectOne (t := .users) _).yields fun found huser => ?_
  cases found with
  | none => exact Prog.yields_raise
  | some user =>
    refine (observes_selectOne (t := .memberships) _).yields fun _ _ => ?_
    refine (observes_raiseIf _ _ _).yields fun _ _ => ?_
    refine yields_insertOrConflict (t := .memberships) fun inp hadm => ?_
    refine ⟨_, .invite o email role u actor _ hactor (by simpa using howner) ?_ ?_
      ⟨rfl, rfl, rfl⟩ hadm, rfl⟩
    · intro hrole
      simpa [hrole] using hadmin
    · exact ⟨user, (huser user rfl).1, (huser user rfl).2, rfl⟩

/-- A membership with this role already is returned as it is. -/
theorem MembershipService.yields_updateRole (hdb : vaultSchema.Valid db) (id : UUID)
    (newRole : MembershipRole) :
    (MembershipService.updateRole uow o id newRole u).Yields vaultEngine inputs [] db fun m db' =>
      DidAll d uow db (.updateRole o id newRole u) (.membership m) db' := by
  refine (observes_requireOrgRole _).yields fun actor hactor => ?_
  refine (MembershipService.observes_getTarget hdb hactor.mem id).yields fun m hm => ?_
  obtain ⟨hm, hid, ho⟩ := hm
  split
  · rename_i hrole
    exact Prog.yields_ret ⟨_, .roleKept o id newRole u m ⟨actor, hactor⟩ hm hid ho hrole, rfl⟩
  refine (observes_raiseIf _ _ _).yields fun _ howner => ?_
  refine Prog.Observes.yields (P := fun _ => True) ?_ fun _ _ => ?_
  · split
    · exact (reads_countOwners o).observes.bind fun _ _ =>
        (observes_raiseIf _ _ _).mono fun _ _ => trivial
    · exact Prog.observes_ret trivial
  refine (observes_raiseIf _ _ _).yields fun _ hadmin => ?_
  refine yields_updateFlushed_bind (t := .memberships) fun m' hm' hid' => ?_
  obtain rfl : m' = m := hdb.eq_of_id (t := .memberships) hm' hm hid'
  refine yields_commit_ret ⟨_, .roleChanged o id newRole u actor m' hactor hm hid ho ?_ ?_, rfl⟩
  · rintro (h | h) <;> simpa [h] using howner
  · intro h
    simpa [h] using hadmin

theorem MembershipService.yields_remove (hdb : vaultSchema.Valid db) (id : UUID) :
    (MembershipService.remove uow o id u).Yields vaultEngine inputs [] db fun _ db' =>
      DidAll d uow db (.removeMembership o id u) .unit db' := by
  refine (observes_requireOrgRole _).yields fun actor hactor => ?_
  refine (MembershipService.observes_getTarget hdb hactor.mem id).yields fun m hm => ?_
  obtain ⟨hm, hid, ho⟩ := hm
  refine Prog.Observes.yields (P := fun _ => m.role = .owner → actor.role = .owner) ?_
    fun _ howner => ?_
  · split
    · refine (observes_raiseIf _ _ _).bind fun _ hactorRole => ?_
      exact (reads_countOwners o).observes.bind fun _ _ =>
        (observes_raiseIf _ _ _).mono fun _ _ _ => by simpa using hactorRole
    · rename_i hrole
      exact Prog.observes_ret fun h => absurd h hrole
  refine yields_delete_bind fun ws hws => yields_commit ?_
  rw [hid] at hws
  exact ⟨ws, .removeMembership o id u actor m ws hactor hm hid ho howner hws, rfl⟩

theorem ProjectService.yields_create (name slug : String) (description : Option String) :
    (ProjectService.create uow o name slug u description).Yields vaultEngine inputs [] db
      fun p db' => DidAll d uow db (.createProject o name slug u description) (.project p) db' := by
  refine (observes_requireOrgRole _).yields fun m hm => ?_
  refine (observes_selectOne (t := .projects) _).yields fun _ _ => ?_
  refine (observes_raiseIf _ _ _).yields fun _ _ => ?_
  exact yields_insertOrConflict (t := .projects) fun inp hadm =>
    ⟨_, .createProject o name slug u description _ ⟨m, hm⟩ rfl, rfl⟩

theorem ProjectService.yields_list :
    (ProjectService.list uow o u).Yields vaultEngine inputs [] db fun ps db' =>
      DidAll d uow db (.listProjects o u) (.projects ps) db' := by
  refine (observes_requireOrgRole _).yields fun m hm => ?_
  refine (observes_select (t := .projects) _).yields fun rows h => Prog.yields_ret ?_
  refine ⟨[], .listProjects o u _ ⟨m, hm⟩ fun r hr => ?_, rfl⟩
  simpa using h r (List.mem_mergeSort.mp hr)

theorem ProjectService.yields_get (id : UUID) :
    (ProjectService.get uow id o u).Yields vaultEngine inputs [] db fun p db' =>
      DidAll d uow db (.getProject id o u) (.project p) db' := by
  refine (observes_requireOrgRole _).yields fun m hm => ?_
  exact (ProjectService.observes_lookup id).yields_last fun p hp =>
    ⟨[], .getProject id o u p ⟨m, hm⟩ hp.1 hp.2.1 hp.2.2, rfl⟩

theorem ProjectService.yields_update (hdb : vaultSchema.Valid db) (id : UUID)
    (name slug description : Option String) :
    (ProjectService.update uow id o u name slug description).Yields vaultEngine inputs [] db
      fun p db' =>
        DidAll d uow db (.updateProject id o u name slug description) (.project p) db' := by
  refine (observes_requireOrgRole _).yields fun m hm => ?_
  refine (observes_requireOrgRoleAgain _ _).yields fun _ _ => ?_
  refine (ProjectService.observes_lookup id).yields fun p hp => ?_
  refine Prog.Observes.yields (P := fun _ => True) ?_ fun _ _ => ?_
  · split
    · exact Prog.observes_ret trivial
    · split
      · refine (observes_selectOne (t := .projects) _).bind fun _ _ => ?_
        exact (observes_raiseIf _ _ _).mono fun _ _ => trivial
      · exact Prog.observes_ret trivial
  refine yields_conflict ?_
  have hdid : Op.Did d uow db (.updateProject id o u name slug description) _ _ :=
    .updateProject id o u name slug description p ⟨m, hm⟩ hp.1 hp.2.1 hp.2.2
  by_cases hch : p.changed name slug description = p
  · rw [if_pos hch] at hdid
    have hsame : ¬ p.changed name slug description ≠ p := fun h => h hch
    dsimp only [Project.changed] at hsame
    rw [if_neg hsame]
    exact yields_commit_ret ⟨_, hdid, rfl⟩
  · rw [if_neg hch] at hdid
    dsimp only [Project.changed] at hch
    rw [if_pos hch]
    refine yields_updateFlushed_bind (t := .projects) fun p' hp' hid => ?_
    obtain rfl : p' = p := hdb.eq_of_id (t := .projects) hp' hp.1 hid
    refine yields_commit_ret ⟨_, hdid, ?_⟩
    simp only [List.nil_append, changedColumn_eq, Project.changed]

theorem ProjectService.yields_delete (id : UUID) :
    (ProjectService.delete uow id o u).Yields vaultEngine inputs [] db fun _ db' =>
      DidAll d uow db (.deleteProject id o u) .unit db' := by
  refine (observes_requireOrgRole _).yields fun m hm => ?_
  refine (observes_requireOrgRoleAgain _ _).yields fun _ _ => ?_
  refine (ProjectService.observes_lookup id).yields fun p hp => ?_
  refine yields_delete_bind fun ws hws => yields_commit ?_
  rw [hp.2.1] at hws
  exact ⟨ws, .deleteProject id o u ws ⟨m, hm⟩ ⟨p, hp⟩ hws, rfl⟩

theorem EnvironmentService.yields_create (project : UUID) (name : String) :
    (EnvironmentService.create d.kms uow project o name u).Yields vaultEngine inputs [] db
      fun e db' => DidAll d uow db (.createEnvironment project o name u) (.environment e) db' := by
  refine (observes_requireOrgRole _).yields fun m hm => ?_
  refine (ProjectService.observes_lookup project).yields fun p hp => ?_
  refine (observes_selectOne (t := .environments) _).yields fun _ _ => ?_
  refine (observes_raiseIf _ _ _).yields fun _ _ => ?_
  refine yields_insertFlushed_bind (t := .environments) fun inp _ => ?_
  refine reads_readInput.observes.yields fun random _ => ?_
  refine yields_conflict ?_
  refine yields_insertFlushed_bind (t := .encryptionKeys) fun inp' _ => yields_commit_ret ?_
  exact ⟨_, .createEnvironment project o name u _ _ ⟨m, hm⟩ ⟨p, hp⟩ rfl rfl, rfl⟩

theorem EnvironmentService.yields_list (project : UUID) :
    (EnvironmentService.list uow project o u).Yields vaultEngine inputs [] db fun es db' =>
      DidAll d uow db (.listEnvironments project o u) (.environments es) db' := by
  refine (observes_requireOrgRole _).yields fun m hm => ?_
  refine (ProjectService.observes_lookup project).yields fun p hp => ?_
  refine (observes_select (t := .environments) _).yields fun rows h => Prog.yields_ret ?_
  refine ⟨[], .listEnvironments project o u _ ⟨m, hm⟩ ⟨p, hp⟩ fun r hr => ?_, rfl⟩
  simpa using h r (List.mem_mergeSort.mp hr)

theorem EnvironmentService.yields_get (id : UUID) :
    (EnvironmentService.get uow id o u).Yields vaultEngine inputs [] db fun e db' =>
      DidAll d uow db (.getEnvironment id o u) (.environment e) db' := by
  refine (observes_requireOrgRole _).yields fun m hm => ?_
  exact (EnvironmentService.observes_getIn id).yields_last fun e he =>
    ⟨[], .getEnvironment id o u e ⟨m, hm⟩ he.1 he.2.1 he.2.2, rfl⟩

theorem EnvironmentService.yields_delete (id : UUID) :
    (EnvironmentService.delete uow id o u).Yields vaultEngine inputs [] db fun _ db' =>
      DidAll d uow db (.deleteEnvironment id o u) .unit db' := by
  refine (observes_requireOrgRole _).yields fun m hm => ?_
  refine (observes_requireOrgRoleAgain _ _).yields fun _ _ => ?_
  refine (EnvironmentService.observes_getIn id).yields fun e he => ?_
  refine yields_delete_bind fun ws hws => yields_commit ?_
  rw [he.2.1] at hws
  exact ⟨ws, .deleteEnvironment id o u ws ⟨m, hm⟩ ⟨e, he⟩ hws, rfl⟩

/-- The secret comes back with its pointer set. -/
theorem SecretService.yields_createSecret (environment : UUID) (keyName plainValue : String) :
    (SecretService.createSecret d.kms uow environment o keyName plainValue u).Yields vaultEngine
      inputs [] db fun s db' =>
        DidAll d uow db (.createSecret environment o keyName plainValue u) (.secret s) db' := by
  refine (observes_requireOrgRole _).yields fun m hm => ?_
  refine (observes_resolveEnvironmentOrg environment).yields fun _ he => ?_
  refine (observes_selectOne (t := .secrets) _).yields fun _ _ => ?_
  refine (observes_raiseIf _ _ _).yields fun _ _ => ?_
  refine (observes_activeKey environment).yields fun key _ => ?_
  refine (reads_encryptSecret plainValue key).observes.yields fun encrypted _ => ?_
  refine yields_insertFlushed_bind (t := .secrets) fun inp hadm => ?_
  refine yields_insertFlushed_bind (t := .secretVersions) fun inp' _ => ?_
  refine yields_commitPointer_bind fun s hs hid => ?_
  have hnew := (Schema.admitsInsert_iff.mp hadm).1
  -- the object that the UPDATE finds is the one just inserted
  have hview : vaultSchema.view [.insert .secrets (⟨inp.uuid, environment, keyName, none, false,
      none⟩ : Secret), .insert .secretVersions (⟨inp'.uuid, inp.uuid, key.id, encrypted.1,
        encrypted.2, 1, some u⟩ : SecretVersion)] db .secrets =
      db .secrets ++ [⟨inp.uuid, environment, keyName, none, false, none⟩] := rfl
  have hs' : s ∈ vaultSchema.view [.insert .secrets (⟨inp.uuid, environment, keyName, none, false,
      none⟩ : Secret), .insert .secretVersions (⟨inp'.uuid, inp.uuid, key.id, encrypted.1,
        encrypted.2, 1, some u⟩ : SecretVersion)] db .secrets := hs
  rw [hview, List.mem_append, List.mem_singleton] at hs'
  rcases hs' with hs' | rfl
  · exact absurd hid (hnew s hs')
  · exact ⟨_, .createSecret environment o keyName plainValue u _ ⟨inp'.uuid, inp.uuid, key.id,
      encrypted.1, encrypted.2, 1, some u⟩ ⟨m, hm⟩ he rfl hnew rfl, rfl⟩

/-- The pointer of the secret is set to the new version. -/
theorem SecretService.yields_addNewVersion (hdb : vaultSchema.Valid db) (secretId : UUID)
    (plainValue : String) :
    (SecretService.addNewVersion d.kms uow secretId o plainValue u).Yields vaultEngine inputs [] db
      fun v db' => DidAll d uow db (.addNewVersion secretId o plainValue u) (.version v) db' := by
  refine (observes_requireOrgRole _).yields fun m hm => ?_
  refine (observes_getOwnedSecret secretId).yields fun s hs => ?_
  refine (observes_activeKey s.environmentId).yields fun key _ => ?_
  refine (reads_encryptSecret plainValue key).observes.yields fun encrypted _ => ?_
  refine (observes_getLatestForSecret s.id).yields fun _ _ => ?_
  refine (observes_raiseIf _ _ _).yields fun _ _ => ?_
  refine yields_insertFlushed_bind (t := .secretVersions) fun inp _ => ?_
  refine yields_commitPointer_bind fun s' hs' hid => ?_
  obtain rfl : s' = s := hdb.eq_of_id (t := .secrets) hs' hs.mem hid
  exact ⟨_, .addNewVersion secretId o plainValue u s' _ ⟨m, hm⟩ hs rfl, rfl⟩

theorem SecretService.yields_listSecrets (environment : UUID) :
    (SecretService.listSecrets uow environment o u).Yields vaultEngine inputs [] db fun ss db' =>
      DidAll d uow db (.listSecrets environment o u) (.secrets ss) db' := by
  refine (observes_requireOrgRole _).yields fun m hm => ?_
  refine (observes_resolveEnvironmentOrg environment).yields fun _ he => ?_
  refine (observes_select (t := .secrets) _).yields fun rows h => Prog.yields_ret ?_
  refine ⟨[], .listSecrets environment o u _ ⟨m, hm⟩ he fun r hr => ?_, rfl⟩
  obtain ⟨hr, hc⟩ := h r (List.mem_mergeSort.mp hr)
  simp only [Bool.and_eq_true, beq_iff_eq] at hc
  exact ⟨hr, hc.1⟩

/-- The value is that of the version the secret points at. -/
theorem SecretService.yields_getDecryptedValue (secretId : UUID) :
    (SecretService.getDecryptedValue d.kms uow secretId o u).Yields vaultEngine inputs [] db
      fun plainValue db' =>
        DidAll d uow db (.getDecryptedValue secretId o u) (.value plainValue) db' := by
  refine (observes_requireOrgRole _).yields fun m hm => ?_
  refine (observes_getOwnedSecret secretId).yields fun s hs => ?_
  split
  · exact Prog.yields_raise
  rename_i currentVersionId hpointer
  refine (observes_get (t := .secretVersions) currentVersionId).yields fun version hv => ?_
  cases version with
  | none => exact Prog.yields_raise
  | some v =>
    obtain ⟨hv, hvid⟩ := hv v rfl
    refine (observes_get (t := .encryptionKeys) v.encryptionKeyId).yields fun encKey hk => ?_
    cases encKey with
    | none => exact Prog.yields_raise
    | some k =>
      obtain ⟨hk, hkid⟩ := hk k rfl
      refine (reads_liftCrypto _).observes.yields fun plainValue hplain => ?_
      simp only [recordReveal, Prog.bind_eq, Prog.bind_assoc, Prog.pure_eq, Prog.ret_bind]
      refine yields_insertFlushed_bind (t := .auditLogs) fun inp _ => yields_commit_ret ?_
      exact ⟨_, .getDecryptedValue secretId o u s v k _ plainValue ⟨m, hm⟩ hs hv
        (hpointer.trans (congrArg some hvid.symm)) hk hkid hplain rfl, rfl⟩

theorem SecretService.yields_deleteSecret (hdb : vaultSchema.Valid db) (secretId : UUID) :
    (SecretService.deleteSecret uow secretId o u).Yields vaultEngine inputs [] db fun _ db' =>
      DidAll d uow db (.deleteSecret secretId o u) .unit db' := by
  refine (observes_requireOrgRole _).yields fun m hm => ?_
  refine (observes_getOwnedSecret secretId).yields fun s hs => ?_
  have hid : rowId .secrets s = s.id := rfl
  simp only [SecretRepository.softDelete, Prog.bind_eq, Prog.bind_assoc]
  refine yields_updateById_bind (fun hnone => ?_) fun inp r hreach => ?_
  · have hmay := reached_none (t := .secrets) hnone hs.mem hid
    have hdid : Op.Did d uow db (.deleteSecret secretId o u) _ _ :=
      .deleteSecret secretId o u s 0 ⟨m, hm⟩ hs
    rw [Schema.view_nil] at hmay
    rw [if_neg (by rw [hmay]; exact Bool.false_ne_true)] at hdid
    exact yields_commit ⟨[], hdid, rfl⟩
  · obtain ⟨hr, hrid, -, hselect, hold⟩ := reached_some hreach
    rw [Schema.view_nil] at hselect hold
    obtain rfl : r = s := hdb.eq_of_id (t := .secrets) hr hs.mem hrid
    have hdid : Op.Did d uow db (.deleteSecret secretId o u) _ _ :=
      .deleteSecret secretId o u r inp.now ⟨m, hm⟩ hs
    rw [if_pos (by simp only [hselect, hold, Bool.and_self])] at hdid
    exact yields_commit ⟨_, hdid, rfl⟩

theorem AuditService.yields_listForOrganization (limit offset : ℕ) :
    (AuditService.listForOrganization uow o u limit offset).Yields vaultEngine inputs [] db
      fun entries db' => DidAll d uow db (.listAuditLogs o u limit offset) (.auditLogs entries)
        db' := by
  refine (observes_requireOrgRole _).yields fun m hm => ?_
  refine (observes_select (t := .auditLogs) _).yields fun rows h => Prog.yields_ret ?_
  refine ⟨[], .listAuditLogs o u limit offset _ ⟨m, hm⟩ fun a ha => ?_, rfl⟩
  have hmem : a ∈ rows := List.mem_mergeSort.mp (List.mem_of_mem_drop (List.mem_of_mem_take ha))
  simpa using h a hmem

end

/-- Alone, a method of the access and vault services that returns has done what
`Op.Did` says, and one that raises has committed nothing. -/
theorem Op.yields_did (d : Deployment) (uow : UnitOfWork) (inputs : ℕ → Input) {db : Db}
    (hdb : vaultSchema.Valid db) {op : Op} (hop : op.authenticates = false) :
    (op.program d uow).Yields vaultEngine inputs [] db (DidAll d uow db op) := by
  cases op with
  | register email password fullName => cases hop
  | login email password => cases hop
  | refresh raw => cases hop
  | logout raw => cases hop
  | logoutAll userId => cases hop
  | createOrganization name slug userId => exact (OrganizationService.yields_create name slug).map
  | listOrganizations => exact OrganizationService.yields_listForUser.map
  | getOrganization org => exact OrganizationService.yields_getOrganization.map
  | updateOrganization org actor name slug =>
    exact (OrganizationService.yields_update hdb name slug).map
  | deleteOrganization org actor => exact OrganizationService.yields_delete.map
  | listMemberships org actor => exact MembershipService.yields_list.map
  | invite org email role actor => exact (MembershipService.yields_invite email role).map
  | updateRole org id newRole actor =>
    exact (MembershipService.yields_updateRole hdb id newRole).map
  | removeMembership org id actor => exact (MembershipService.yields_remove hdb id).map
  | createProject org name slug actor description =>
    exact (ProjectService.yields_create name slug description).map
  | listProjects org actor => exact ProjectService.yields_list.map
  | getProject id org actor => exact (ProjectService.yields_get id).map
  | updateProject id org actor name slug description =>
    exact (ProjectService.yields_update hdb id name slug description).map
  | deleteProject id org actor => exact (ProjectService.yields_delete id).map
  | createEnvironment project org name actor =>
    exact (EnvironmentService.yields_create project name).map
  | listEnvironments project org actor => exact (EnvironmentService.yields_list project).map
  | getEnvironment id org actor => exact (EnvironmentService.yields_get id).map
  | deleteEnvironment id org actor => exact (EnvironmentService.yields_delete id).map
  | createSecret environment org keyName plainValue actor =>
    exact (SecretService.yields_createSecret environment keyName plainValue).map
  | addNewVersion secret org plainValue actor =>
    exact (SecretService.yields_addNewVersion hdb secret plainValue).map
  | listSecrets environment org actor => exact (SecretService.yields_listSecrets environment).map
  | getDecryptedValue secret org actor => exact (SecretService.yields_getDecryptedValue secret).map
  | deleteSecret secret org actor => exact (SecretService.yields_deleteSecret hdb secret).map
  | listAuditLogs org actor limit offset =>
    exact (AuditService.yields_listForOrganization limit offset).map

section
variable {d : Deployment} {uow : UnitOfWork} {inputs : ℕ → Input} {db : Db} {op : Op}

theorem Op.alone_did (hdb : vaultSchema.Valid db) (hop : op.authenticates = false) {reply : Reply}
    (hreply : (alone inputs (op.program d uow) db).1 = .ok reply) :
    ∃ ws, op.Did d uow db reply ws ∧
      (alone inputs (op.program d uow) db).2.db = vaultSchema.view ws db := by
  have hyields := Op.yields_did d uow inputs hdb hop 0
  rw [alone] at hreply
  rw [hreply] at hyields
  exact hyields

theorem Op.alone_unchanged (hdb : vaultSchema.Valid db) (hop : op.authenticates = false) {e : Exn}
    (he : (alone inputs (op.program d uow) db).1 = .error e) :
    (alone inputs (op.program d uow) db).2.db = db := by
  have hyields := Op.yields_did d uow inputs hdb hop 0
  rw [alone] at he
  rw [he] at hyields
  exact hyields

end

end EnvVault
