import EnvVault.CallResults
import EnvVault.ContainerDeletion
import EnvVault.DomainErrors
import EnvVault.SecretOperations

/-!
# Routes of environments and secrets

The path of such a route names the child and its parents, and the operation finds
the parents again from the child. A request for a child under a parent that is not
its own succeeds like the one with the right path.
-/
namespace EnvVault
open EnvVault.Relational EnvVault.Transactions

namespace Request

/-- The child that the path names belongs to the parents that the path names. -/
def ParentsHold (db : Db) : Request → Prop
  | getEnvironment orgId projectId environmentId
  | deleteEnvironment orgId projectId environmentId =>
    ∃ e ∈ db .environments, e.id = environmentId ∧ e.projectId = projectId ∧
      ProjectIn db orgId projectId
  | rotateSecret orgId environmentId secretId _ | revealSecret orgId environmentId secretId
  | deleteSecret orgId environmentId secretId =>
    ∃ s ∈ db .secrets, s.id = secretId ∧ s.environmentId = environmentId ∧
      EnvironmentIn db orgId environmentId
  | _ => True

/-- The routes whose path names a child of an environment or of a project. -/
def isNested : Request → Bool
  | getEnvironment .. | deleteEnvironment .. | rotateSecret .. | revealSecret ..
  | deleteSecret .. => true
  | _ => false

def Succeeds (server : Server) (inputs : ℕ → Input) (currentUser : UUID) (r : Request) (db : Db) :
    Prop :=
  (r.response server inputs currentUser db).status < 400

/-- A request that succeeds names the parents of the child. -/
def RespectsParents (server : Server) (inputs : ℕ → Input) (currentUser : UUID) (r : Request)
    (db : Db) : Prop :=
  r.Succeeds server inputs currentUser db → r.ParentsHold db

/-- What a request of a member needs, whatever parents its path names: the child in the
organization, a role of member or higher to change or reveal it, no secret below a deleted
environment, and a version number that is left in INTEGER. -/
def Admits (m : Membership) (db : Db) : Request → Prop
  | getEnvironment _ _ environmentId => EnvironmentIn db m.organizationId environmentId
  | deleteEnvironment _ _ environmentId =>
    roleRank .member ≤ roleRank m.role ∧ EnvironmentIn db m.organizationId environmentId ∧
      ¬ (Container.environment environmentId).HasSecret db
  | rotateSecret _ _ secretId _ =>
    roleRank .member ≤ roleRank m.role ∧
      (∃ s, OwnedSecret db m.organizationId secretId s) ∧
        ∀ v ∈ db .secretVersions, v.secretId = secretId →
          v.versionNumber < SecretService.maxInteger
  | revealSecret _ _ secretId | deleteSecret _ _ secretId =>
    roleRank .member ≤ roleRank m.role ∧ ∃ s, OwnedSecret db m.organizationId secretId s
  | _ => False

theorem respond_error (e : Exn) : 400 ≤ (respond (.error e)).status := by
  have hmap : ∀ cls : ExnClass, 400 ≤ (statusMap.lookup cls).getD 500 := by
    intro cls
    cases cls <;> decide
  simp only [respond]
  split
  · exact hmap e.cls
  · decide

section
variable {server : Server} {inputs : ℕ → Input} {db : Db} {r : Request} {m : Membership}

/-- A member's request comes down to its route. -/
theorem handle_exec (server : Server) (inputs : ℕ → Input) (hdb : vaultSchema.Valid db)
    (ho : r.orgId = some m.organizationId) (hm : m ∈ db .memberships) :
    ∃ k, alone inputs (r.handle server m.userId) db =
      (r.run server m.userId).exec vaultEngine inputs ⟨k, [], db⟩ := by
  obtain ⟨gate, heq, hgate⟩ := answers_gate server inputs hdb ho hm
  obtain ⟨k, hk⟩ := hgate 0
  refine ⟨k, ?_⟩
  rw [alone, heq, Prog.exec_bind, hk]
  rfl

/-- A route that answers always answers with success. -/
theorem succeeds_of_ends (hdb : vaultSchema.Valid db) (ho : r.orgId = some m.organizationId)
    (hm : m ∈ db .memberships)
    (h : (r.run server m.userId).Ends vaultEngine inputs [] db
      fun result _ => ∃ body, result = .ok ⟨r.successStatus, body⟩) :
    r.Succeeds server inputs m.userId db := by
  obtain ⟨k, hk⟩ := handle_exec server inputs hdb ho hm
  obtain ⟨body, hbody⟩ := h k
  rw [Succeeds, response, hk, hbody]
  change r.successStatus < 400
  unfold successStatus
  split <;> decide

/-- The operation of a request that succeeds has returned. -/
theorem returns_of_succeeds (hdb : vaultSchema.Valid db) (ho : r.orgId = some m.organizationId)
    (hm : m ∈ db .memberships) (h : r.Succeeds server inputs m.userId db) :
    ∃ k reply, ((r.operation server.deployment (r.session server m.userId) m.userId).exec
      vaultEngine inputs ⟨k, [], db⟩).1 = .ok reply := by
  obtain ⟨k, hk⟩ := handle_exec server inputs hdb ho hm
  refine ⟨k, ?_⟩
  rw [Succeeds, response, hk, run, Prog.bind_eq, Prog.exec_bind] at h
  cases hexec : (r.operation server.deployment (r.session server m.userId) m.userId).exec
      vaultEngine inputs ⟨k, [], db⟩ with
  | mk result so =>
    cases result with
    | ok reply => exact ⟨reply, rfl⟩
    | error e =>
      rw [hexec] at h
      exact absurd h (Nat.not_lt.mpr (respond_error e))

/-- The reload finds the secret that the operation has left in its place. -/
theorem answers_reload (inputs : ℕ → Input) {uow : UnitOfWork} (hdb : vaultSchema.Valid db)
    (hacts : Acts uow db m) {s : Secret} (hs : s ∈ db .secrets)
    (he : EnvironmentIn db m.organizationId s.environmentId) :
    (reload uow s.id).Answers vaultEngine inputs [] db s :=
  (answers_get (t := .secrets) hdb hs (hacts.may_tenant (by decide) he) rfl).bind Prog.answers_ret

end

section
variable {n : ℕ} {server : Server} {calls : Fin n → ServiceCall} {base : Table × UUID → Prop}
  {W : VaultWorld n} {inputs : ℕ → Input} {r : Request} {m : Membership}

theorem operation_of_isNested (hr : r.isNested = true) (d : Deployment) (uow : UnitOfWork)
    (currentUser : UUID) : ∃ op : Op, op.authenticates = false ∧
      r.operation d uow currentUser = op.program d uow := by
  cases r with
  | getEnvironment o p e => exact ⟨.getEnvironment e o currentUser, rfl, rfl⟩
  | deleteEnvironment o p e => exact ⟨.deleteEnvironment e o currentUser, rfl, rfl⟩
  | rotateSecret o e x value => exact ⟨.addNewVersion x o value currentUser, rfl, rfl⟩
  | revealSecret o e x => exact ⟨.getDecryptedValue x o currentUser, rfl, rfl⟩
  | deleteSecret o e x => exact ⟨.deleteSecret x o currentUser, rfl, rfl⟩
  | _ => cases hr

/-- The role of the actor that a call has checked. -/
theorem rank_of_authorized {db : Db} {minimum : MembershipRole} (hdb : vaultSchema.Valid db)
    (hm : m ∈ db .memberships) (ha : Authorized db m.organizationId m.userId minimum) :
    roleRank minimum ≤ roleRank m.role := by
  obtain ⟨m', hm', ho, hu, hrank⟩ := ha
  exact membership_unique hdb hm hm' hu ho ▸ hrank

/-- An operation that always raises does not return. -/
theorem not_returns {α : Type} {svc : Tx α} {g : α → Reply} {db : Db} {k : ℕ} {reply : Reply}
    (hsvc : svc.Ends vaultEngine inputs [] db fun result _ => ∃ e, result = .error e)
    (hok : ((g <$> svc).exec vaultEngine inputs ⟨k, [], db⟩).1 = .ok reply) : False := by
  obtain ⟨e, he⟩ := hsvc k
  rw [Prog.exec_map, he] at hok
  cases hok

variable (h : VaultInv server.deployment calls base W) (hm : m ∈ W.db .memberships)
  (ho : r.orgId = some m.organizationId)
include h hm ho

/-- An operation that returns has found and checked what the request needs. -/
theorem admits_of_returns (hr : r.isNested = true) {k : ℕ} {reply : Reply}
    (hok : ((r.operation server.deployment (r.session server m.userId) m.userId).exec vaultEngine
      inputs ⟨k, [], W.db⟩).1 = .ok reply) : r.Admits m W.db := by
  have hacts := acts_session server ho hm
  have hdid : ∀ op : Op, op.authenticates = false →
      r.operation server.deployment (r.session server m.userId) m.userId =
        op.program server.deployment (r.session server m.userId) →
      ∃ ws, op.Did server.deployment (r.session server m.userId) W.db reply ws := by
    intro op hop heq
    have hyields := Op.yields_did server.deployment (r.session server m.userId) inputs h.valid hop k
    rw [← heq, hok] at hyields
    obtain ⟨ws, hws, -⟩ := hyields
    exact ⟨ws, hws⟩
  cases r with
  | getEnvironment o p e =>
    obtain rfl := Option.some.inj ho
    obtain ⟨ws, hws⟩ := hdid (.getEnvironment e m.organizationId m.userId) rfl rfl
    cases hws with
    | getEnvironment _ _ _ e ha he hid hp => exact ⟨e, he, hid, hp⟩
  | deleteEnvironment o p e =>
    obtain rfl := Option.some.inj ho
    obtain ⟨ws, hws⟩ := hdid (.deleteEnvironment e m.organizationId m.userId) rfl rfl
    cases hws with
    | deleteEnvironment _ _ _ ws ha he hws =>
      have hrole := rank_of_authorized h.valid hm ha
      refine ⟨hrole, he, fun hsecret => ?_⟩
      have hviolated := Container.deleteRow_violated h.valid h.keysOwn
        (Container.exists_of_belongsTo (c := .environment e) h.valid hm he)
        ((h.hasVersion_iff _).mpr hsecret) (fun ⟨_, _, _, heq, _⟩ => nomatch heq)
      refine not_returns (fun k => ⟨_, (Container.ends_deletion_refused (c := .environment e)
        h.valid hacts hrole he inputs hviolated k).1⟩) hok
  | rotateSecret o e x value =>
    obtain rfl := Option.some.inj ho
    obtain ⟨ws, hws⟩ := hdid (.addNewVersion x m.organizationId value m.userId) rfl rfl
    cases hws with
    | addNewVersion _ _ _ _ s v ha hs =>
      have hrole := rank_of_authorized h.valid hm ha
      refine ⟨hrole, ⟨s, hs⟩, fun w hw hwx => ?_⟩
      obtain ⟨current, plainValue, hcurrent, -⟩ := h.current s hs.mem
      by_contra hmax
      have hle := ((hcurrent.last w.versionNumber).mp ⟨w, hw, hwx.trans hs.id.symm, rfl⟩).2
      obtain rfl := hs.id
      exact not_returns (h.refuses_addNewVersion hacts hs.mem hs.environment hrole hs.live inputs
        value hcurrent (by omega)) hok
  | revealSecret o e x =>
    obtain rfl := Option.some.inj ho
    obtain ⟨ws, hws⟩ := hdid (.getDecryptedValue x m.organizationId m.userId) rfl rfl
    cases hws with
    | getDecryptedValue _ _ _ s v k a plainValue ha hs =>
      exact ⟨rank_of_authorized h.valid hm ha, s, hs⟩
  | deleteSecret o e x =>
    obtain rfl := Option.some.inj ho
    obtain ⟨ws, hws⟩ := hdid (.deleteSecret x m.organizationId m.userId) rfl rfl
    cases hws with
    | deleteSecret _ _ _ s time ha hs => exact ⟨rank_of_authorized h.valid hm ha, s, hs⟩
  | _ => cases hr

omit h hm ho in
/-- A route of which the service call returns and the result can be presented. -/
theorem ends_run {α : Type} {svc : Tx α} {g : α → Reply} {P : α → Solo Db RowWrite → Prop}
    {db : Db} (currentUser : UUID)
    (hop : r.operation server.deployment (r.session server currentUser) currentUser = g <$> svc)
    (hsvc : svc.Ends vaultEngine inputs [] db fun result so => ∃ a, result = .ok a ∧ P a so)
    (hpresent : ∀ a so, P a so → ∃ body,
      ((r.present (r.session server currentUser) (g a)).exec vaultEngine inputs so).1 = .ok body) :
    (r.run server currentUser).Ends vaultEngine inputs [] db
      fun result _ => ∃ body, result = .ok ⟨r.successStatus, body⟩ := by
  intro k
  obtain ⟨a, ha, hP⟩ := hsvc k
  obtain ⟨body, hbody⟩ := hpresent a _ hP
  refine ⟨body, ?_⟩
  rw [run, Prog.bind_eq, Prog.exec_bind, hop, Prog.exec_map, ha]
  change ((Prog.bind _ (r.present (r.session server currentUser) (g a))).exec vaultEngine inputs
    _).1 = _
  rw [Prog.exec_bind]
  cases hexec : (r.present (r.session server currentUser) (g a)).exec vaultEngine inputs
      (svc.exec vaultEngine inputs ⟨k, [], db⟩).2 with
  | mk result so =>
    rw [hexec] at hbody
    obtain rfl : result = .ok body := hbody
    rfl

omit h hm ho in
theorem reload_exec (inputs : ℕ → Input) {uow : UnitOfWork} {so : Solo Db RowWrite}
    (hdb : vaultSchema.Valid so.db)
    (hacts : Acts uow so.db m) {s : Secret} (hs : s ∈ so.db .secrets)
    (he : EnvironmentIn so.db m.organizationId s.environmentId) (hp : so.pending = []) :
    ((reload uow s.id).exec vaultEngine inputs so).1 = .ok s := by
  obtain ⟨k, ws, db⟩ := so
  obtain rfl : ws = [] := hp
  obtain ⟨k', hk⟩ := answers_reload inputs hdb hacts hs he k
  rw [hk]

omit h hm ho in
theorem presented_of_reload {uow : UnitOfWork} {so : Solo Db RowWrite} {secretId : UUID}
    {reply : Reply} {s : Secret} (g : Secret → Body)
    (hreload : ((reload uow secretId).exec vaultEngine inputs so).1 = .ok s)
    (hpresent : r.present uow reply = g <$> reload uow secretId) :
    ∃ body, ((r.present uow reply).exec vaultEngine inputs so).1 = .ok body := by
  rw [hpresent, Prog.exec_map, hreload]
  exact ⟨_, rfl⟩

/-- A request that has what it needs succeeds. -/
theorem succeeds_of_admits (hfresh : ∀ k t, ∀ x ∈ W.db t, rowId t x ≠ (inputs k).uuid)
    (hnonce : ∀ k, ∀ v ∈ W.db .secretVersions, v.iv ≠ (inputs k).nonce.1)
    (ha : r.Admits m W.db) : r.Succeeds server inputs m.userId W.db := by
  have hacts := acts_session server ho hm
  refine succeeds_of_ends h.valid ho hm ?_
  cases r with
  | getEnvironment o p e =>
    obtain rfl := Option.some.inj ho
    obtain ⟨e, he, rfl, hp⟩ := ha
    refine ends_run (P := fun _ _ => True) m.userId rfl (((hacts.answers_requireOrgRole h.valid
      (Nat.zero_le _)).bind (hacts.answers_getEnvironment h.valid he hp)).ends_ret
        fun _ => ⟨e, rfl, trivial⟩) fun _ _ _ => ⟨_, rfl⟩
  | deleteEnvironment o p e =>
    obtain rfl := Option.some.inj ho
    obtain ⟨hrole, he, hsecret⟩ := ha
    obtain ⟨ws, hws, -⟩ := Container.deleteRow_ok (c := .environment e) h.valid h.keysOwn
      (Container.exists_of_belongsTo (c := .environment e) h.valid hm he)
      (fun hversion => hsecret ((h.hasVersion_iff _).mp hversion))
      fun ⟨_, _, _, heq, _⟩ => nomatch heq
    have hends := Container.ends_deletion_ok (c := .environment e) h.valid hacts hrole he inputs
      hws
    exact ends_run (P := fun _ _ => True) m.userId rfl (fun k => ⟨(), (hends k).1, trivial⟩)
      fun _ _ _ => ⟨_, rfl⟩
  | rotateSecret o e x value =>
    obtain rfl := Option.some.inj ho
    obtain ⟨hrole, ⟨s, hs⟩, hmax⟩ := ha
    obtain ⟨current, plainValue, hcurrent, -⟩ := h.current s hs.mem
    have hsmall := hmax current hcurrent.mem (hcurrent.secret.trans hs.id)
    obtain rfl := hs.id
    refine ends_run (P := fun (v : SecretVersion) so => so.pending = [] ∧ vaultSchema.Valid so.db ∧
      so.db = vaultSchema.view [.insert .secretVersions v, .update .secrets (s.pointingTo v.id)]
        W.db) m.userId rfl (h.ends_addNewVersion hacts hs.mem hs.environment hrole hs.live hcurrent
          hsmall (fun k => hfresh k .secretVersions) hnonce) ?_
    rintro v so ⟨hpending, hvalid, hdb⟩
    have hstored : s ∈ vaultSchema.apply (.insert .secretVersions v) W.db .secrets := hs.mem
    have hpointing : s.pointingTo v.id ∈ vaultSchema.apply (.update .secrets (s.pointingTo v.id))
        (vaultSchema.apply (.insert .secretVersions v) W.db) .secrets :=
      Schema.mem_apply_update.mpr (Or.inl ⟨rfl, s, hstored, rfl⟩)
    have hreload := reload_exec inputs hvalid (hacts.congr (by rw [hdb]; rfl))
      (by rw [hdb]; exact hpointing) (by rw [hdb]; exact hs.environment) hpending
    exact presented_of_reload (fun secret => .reply (.secret secret)) hreload rfl
  | revealSecret o e x =>
    obtain rfl := Option.some.inj ho
    obtain ⟨hrole, s, hs⟩ := ha
    obtain rfl := hs.id
    obtain ⟨versionId, plainValue, -, hends⟩ := h.ends_getDecryptedValue hacts hrole hs.mem hs.live
      hs.environment fun k => hfresh k .auditLogs
    refine ends_run (P := fun _ so => so.pending = [] ∧ ∃ a,
      vaultSchema.admitsInsert .auditLogs a W.db = true ∧
        so.db = vaultSchema.view [.insert .auditLogs a] W.db) m.userId rfl
          (fun k => ⟨plainValue, hends k⟩) ?_
    rintro value so ⟨hpending, a, hadm, hdb⟩
    have hvalid : vaultSchema.Valid so.db := by
      rw [hdb]
      exact h.valid.insert hadm
    have hreload := reload_exec inputs hvalid (hacts.congr (by rw [hdb]; rfl))
      (by rw [hdb]; exact hs.mem) (by rw [hdb]; exact hs.environment) hpending
    exact presented_of_reload (fun secret => .revealed secret.id secret.keyName value) hreload rfl
  | deleteSecret o e x =>
    obtain rfl := Option.some.inj ho
    obtain ⟨hrole, s, hs⟩ := ha
    obtain rfl := hs.id
    have hends : (SecretService.deleteSecret ((Request.deleteSecret m.organizationId e s.id).session
        server m.userId) s.id m.organizationId m.userId).Ends vaultEngine inputs [] W.db
          fun result _ => result = .ok () :=
      h.ends_deleteSecret hacts hs.mem hs.environment hrole hs.live
    exact ends_run (P := fun _ _ => True) m.userId rfl (fun k => ⟨(), hends k, trivial⟩)
      fun _ _ _ => ⟨_, rfl⟩
  | _ => exact ha.elim

/-- A request that does not succeed changes nothing. -/
theorem unchanged_of_fails (hr : r.isNested = true)
    (hfresh : ∀ k t, ∀ x ∈ W.db t, rowId t x ≠ (inputs k).uuid)
    (hnonce : ∀ k, ∀ v ∈ W.db .secretVersions, v.iv ≠ (inputs k).nonce.1)
    (hs : ¬ r.Succeeds server inputs m.userId W.db) :
    (alone inputs (r.handle server m.userId) W.db).2.db = W.db := by
  obtain ⟨k, hk⟩ := handle_exec server inputs h.valid ho hm
  obtain ⟨op, hop, heq⟩ := operation_of_isNested hr server.deployment (r.session server m.userId)
    m.userId
  have hend := Op.yields_did server.deployment (r.session server m.userId) inputs h.valid hop k
  rw [← heq] at hend
  rw [hk, run, Prog.bind_eq, Prog.exec_bind]
  cases hexec : (r.operation server.deployment (r.session server m.userId) m.userId).exec
      vaultEngine inputs ⟨k, [], W.db⟩ with
  | mk result so =>
    cases result with
    | ok reply =>
      have hok := congrArg Prod.fst hexec
      exact absurd (succeeds_of_admits h hm ho hfresh hnonce (admits_of_returns h hm ho hr hok)) hs
    | error e =>
      rw [hexec] at hend
      exact hend

end

end Request

/-- In every state that service calls reach, and for every member of an organization, every
request for an environment or a secret and every choice of the ids in its path: a request
that succeeds names the parents of the child, provided that the path does so whenever the
request has what it needs; with keys and nonces that are not in use this is also necessary,
and a request that does not succeed changes nothing. -/
theorem nested_routes_iff {n : ℕ} (server : Server) (calls : Fin n → ServiceCall)
    (W : VaultWorld n) (ho : Opens W) (as : Schedule n) (s : VaultSys n)
    (hr : (waiting server.deployment calls W).run vaultEngine as = some s) (m : Membership)
    (hm : m ∈ s.world.db .memberships) (r : Request) (hnested : r.isNested = true)
    (horg : r.orgId = some m.organizationId) (inputs : ℕ → Input) :
    ((r.Admits m s.world.db → r.ParentsHold s.world.db) →
      r.RespectsParents server inputs m.userId s.world.db) ∧
    (FreshStream vaultEngine inputs s.world.past →
      (∀ k, ∀ v ∈ s.world.db .secretVersions, v.iv ≠ (inputs k).nonce.1) →
      (r.RespectsParents server inputs m.userId s.world.db →
        r.Admits m s.world.db → r.ParentsHold s.world.db) ∧
      (¬ r.Succeeds server inputs m.userId s.world.db →
        (alone inputs (r.handle server m.userId) s.world.db).2.db = s.world.db)) := by
  have hi := ho.vaultInv hr
  constructor
  · intro hpath hsucceeds
    obtain ⟨k, reply, hok⟩ := Request.returns_of_succeeds hi.valid horg hm hsucceeds
    exact hpath (Request.admits_of_returns hi hm horg hnested hok)
  · intro hf hnonce
    have hfresh := ho.uuid_unused hr hf
    exact ⟨fun hrespects hadmits => hrespects
        (Request.succeeds_of_admits hi hm horg hfresh hnonce hadmits),
      fun hfails => Request.unchanged_of_fails hi hm horg hnested hfresh hnonce hfails⟩

/-- A request by the path of the environment. -/
theorem nested_routes_iff_environment : ∃ s, (waiting sampleDeployment acmeCalls
    ⟨acmeDb, [], samplePast 10⟩).run vaultEngine (sampleSteps 10 (List.replicate 9 0)) = some s ∧
      (Request.deleteEnvironment 10 12 26).RespectsParents sampleServer
        (fun k => sampleInput (19 + k)) 1 s.world.db := by
  have hrun : ((waiting sampleDeployment acmeCalls ⟨acmeDb, [], samplePast 10⟩).run vaultEngine
      (sampleSteps 10 (List.replicate 9 0))).map (fun s => (s.world.db .memberships,
        s.world.db .projects, s.world.db .environments)) =
      some ([⟨11, 1, 10, .owner, none, 0⟩], [⟨12, 10, "billing", "billing", none, some 1⟩],
        [⟨26, 12, "prod"⟩]) := by rfl
  obtain ⟨s, hs, hfacts⟩ := Option.map_eq_some_iff.mp hrun
  simp only [Prod.mk.injEq] at hfacts
  obtain ⟨hm, hp, he⟩ := hfacts
  refine ⟨s, hs, (nested_routes_iff sampleServer acmeCalls _ opens_acme _ s hs
    ⟨11, 1, 10, .owner, none, 0⟩ (by simp [hm]) (.deleteEnvironment 10 12 26) rfl rfl _).1
      fun _ => ?_⟩
  simp [Request.ParentsHold, ProjectIn, he, hp]

/-- The owner deletes the environment of one project through the path of another. -/
theorem environment_deleted_elsewhere : ∃ s, (waiting sampleDeployment acmeCalls
    ⟨acmeDb, [], samplePast 10⟩).run vaultEngine (sampleSteps 10 (List.replicate 9 0)) = some s ∧
      Opens (⟨acmeDb, [], samplePast 10⟩ : VaultWorld 4) ∧
      s.world.db .environments = [⟨26, 12, "prod"⟩] ∧
      (Request.deleteEnvironment 10 99 26).response sampleServer (fun k => sampleInput (19 + k)) 1
        s.world.db = ⟨204, .reply .unit⟩ ∧
      (alone (fun k => sampleInput (19 + k)) ((Request.deleteEnvironment 10 99 26).handle
        sampleServer 1) s.world.db).2.db .environments = [] ∧
      ¬ (Request.deleteEnvironment 10 99 26).RespectsParents sampleServer
        (fun k => sampleInput (19 + k)) 1 s.world.db := by
  have hrun : ((waiting sampleDeployment acmeCalls ⟨acmeDb, [], samplePast 10⟩).run vaultEngine
      (sampleSteps 10 (List.replicate 9 0))).map (fun s => (s.world.db .environments,
        (Request.deleteEnvironment 10 99 26).response sampleServer
          (fun k => sampleInput (19 + k)) 1 s.world.db,
        (alone (fun k => sampleInput (19 + k)) ((Request.deleteEnvironment 10 99 26).handle
          sampleServer 1) s.world.db).2.db .environments)) =
      some ([⟨26, 12, "prod"⟩], ⟨204, .reply .unit⟩, []) := by rfl
  obtain ⟨s, hs, hfacts⟩ := Option.map_eq_some_iff.mp hrun
  simp only [Prod.mk.injEq] at hfacts
  obtain ⟨he, hresponse, hgone⟩ := hfacts
  refine ⟨s, hs, opens_acme, he, hresponse, hgone, fun hrespects => ?_⟩
  have hsucceeds : (Request.deleteEnvironment 10 99 26).Succeeds sampleServer
      (fun k => sampleInput (19 + k)) 1 s.world.db := by
    rw [Request.Succeeds, hresponse]
    decide
  obtain ⟨e, hmem, -, hproject, -⟩ := hrespects hsucceeds
  rw [he, List.mem_singleton] at hmem
  rw [hmem] at hproject
  exact absurd hproject (by decide)

end EnvVault
