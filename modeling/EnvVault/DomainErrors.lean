import EnvVault.CallResults
import EnvVault.Routes
import EnvVault.ServiceExceptions
import EnvVault.VersionChain

/-!
# The answers to the exceptions of the services

The handlers answer every class of the service modules with the status meant for
it, but for the `ProjectNotFoundError` of the module `environment`, which is not the
registered class of that name.
-/
namespace EnvVault
open EnvVault.Relational EnvVault.Transactions

/-- Every class of the services but one is registered with the status meant for it. -/
theorem respond_registered {e : Exn} {kind : FailureKind} (hkind : e.cls.kind = some kind)
    (hne : e.cls ≠ .environmentProjectNotFoundError) :
    respond (.error e) = ⟨kind.status, .detail e.detail⟩ := by
  obtain ⟨cls, detail⟩ := e
  cases cls <;> first
    | exact absurd rfl hne
    | (obtain rfl := Option.some.inj hkind; rfl)
    | cases hkind

theorem respond_unregistered (detail : String) :
    respond (.error ⟨.environmentProjectNotFoundError, detail⟩) =
      ⟨500, .detail "Internal Server Error"⟩ := rfl

/-- The program does not raise the class that is not registered. -/
def Registered {α : Type} (p : Tx α) : Prop :=
  p.Escapes fun e => e.cls ≠ .environmentProjectNotFoundError

theorem Raises.registered {α : Type} {cs : List ExnClass} {p : Tx α} (h : Raises cs p)
    (hcs : .environmentProjectNotFoundError ∉ cs) : Registered p := by
  refine Prog.Escapes.mono (fun e he hcls => hcs ?_) h
  rw [hcls] at he
  exact he rfl

namespace Request

/-- A failure of the operation is answered with the client error meant for its class. -/
def FailsAsIntended (server : Server) (inputs : ℕ → Input) (currentUser : UUID) (r : Request)
    (db : Db) : Prop :=
  ∀ e kind, (alone inputs (r.handle server currentUser) db).1 = .error e →
    e.cls.kind = some kind →
      r.response server inputs currentUser db = ⟨kind.status, .detail e.detail⟩

/-- A request for the environments of a project that the organization does not have, by a
member whose role allows it. -/
def MissesProject (currentUser : UUID) (db : Db) : Request → Prop
  | createEnvironment orgId projectId _ =>
    Authorized db orgId currentUser .member ∧ ¬ ProjectIn db orgId projectId
  | listEnvironments orgId projectId =>
    Authorized db orgId currentUser .viewer ∧ ¬ ProjectIn db orgId projectId
  | _ => False

section
variable {server : Server} {currentUser : UUID} {inputs : ℕ → Input} {db : Db}

/-- The routes of the environments of a project. -/
def ofProject : Request → Bool
  | createEnvironment .. | listEnvironments .. => true
  | _ => false

theorem registered_operation {r : Request} (h : r.ofProject = false) (d : Deployment)
    (uow : UnitOfWork) : Registered (r.operation d uow currentUser) := by
  cases r with
  | createEnvironment => cases h
  | listEnvironments => cases h
  | _ =>
    simp only [operation, op]
    exact (Op.raises_program d uow _).registered (by simp [Op.raises, roleErrors])

theorem registered_present (uow : UnitOfWork) (r : Request) (reply : Reply) :
    Registered (r.present uow reply) := by
  have hreload : ∀ secretId, Registered (reload uow secretId) := by
    intro secretId
    refine .bind ((UnitOfWork.raises_get _).registered List.not_mem_nil) fun found => ?_
    cases found with
    | none => exact ExnClass.noConfusion
    | some secret => trivial
  unfold present
  split
  · exact .bind (hreload _) fun _ => trivial
  · exact .bind (hreload _) fun _ => trivial
  · trivial

/-- A user who is no member of the organization is turned away. -/
theorem answers_gate_outsider {r : Request} {o : UUID} (ho : r.orgId = some o)
    (hout : ∀ m ∈ db .memberships, m.userId = currentUser → m.organizationId ≠ o) :
    (r.handle server currentUser).Answers vaultEngine inputs [] db
      ⟨403, .detail "Not a member of this organization"⟩ := by
  have hnone : (MembershipRepository.getByUserAndOrg (r.session server currentUser) currentUser
      o).Answers vaultEngine inputs [] db none := by
    refine answers_selectOne_none (t := .memberships) fun m hm => ?_
    simpa using hout m hm
  simp only [handle, ho]
  exact hnone.bind Prog.answers_ret

/-- The session of a member acts for it. -/
theorem acts_session (server : Server) {r : Request} {m : Membership}
    (ho : r.orgId = some m.organizationId) (hm : m ∈ db .memberships) :
    Acts (r.session server m.userId) db m := by
  refine ⟨hm, Or.inr ⟨?_, ?_⟩⟩
  · cases r <;> first | rfl | cases ho
  · cases r <;> exact ho

/-- A member goes on to the route. -/
theorem answers_gate (server : Server) (inputs : ℕ → Input) {r : Request} {m : Membership}
    (hdb : vaultSchema.Valid db) (ho : r.orgId = some m.organizationId)
    (hm : m ∈ db .memberships) : ∃ gate : Tx _,
      r.handle server m.userId = gate.bind (fun membership : Option Membership =>
        if membership.isNone then .ret ⟨403, .detail "Not a member of this organization"⟩
        else r.run server m.userId) ∧
      gate.Answers vaultEngine inputs [] db (some m) :=
  ⟨_, by simp only [handle, ho]; rfl, (acts_session server ho hm).answers_getByUserAndOrg hdb⟩

theorem fails_gate {r : Request} {m : Membership} {P : Exn → Prop} (hdb : vaultSchema.Valid db)
    (ho : r.orgId = some m.organizationId) (hm : m ∈ db .memberships)
    (hrun : (r.run server m.userId).Fails vaultEngine inputs [] db P) :
    (r.handle server m.userId).Fails vaultEngine inputs [] db P := by
  obtain ⟨gate, heq, hgate⟩ := answers_gate server inputs hdb ho hm
  rw [heq]
  exact hgate.fails hrun

/-- Outside the routes of the environments of a project only registered classes are raised. -/
theorem registered_handle {r : Request} (h : r.ofProject = false) :
    Registered (r.handle server currentUser) := by
  have hrun : Registered (r.run server currentUser) :=
    .bind (registered_operation h _ _) fun reply => .bind (registered_present _ r reply)
      fun _ => trivial
  unfold handle
  split
  · exact hrun
  · refine .bind ((UnitOfWork.raises_selectOne _).registered List.not_mem_nil) fun membership => ?_
    split
    · trivial
    · exact hrun

/-- A project that the organization does not have is not found. -/
theorem refuses_lookup {uow : UnitOfWork} {notFound : ExnClass} {o p : UUID}
    (hdb : vaultSchema.Valid db) (hno : ¬ ProjectIn db o p) :
    (ProjectService.lookup uow notFound o p).Refuses vaultEngine inputs [] db
      ⟨notFound, "Project not found."⟩ := by
  obtain ⟨found, hget, hfound⟩ : ∃ found : Option Project,
      (uow.get .projects p).Answers vaultEngine inputs [] db found ∧
        ∀ r, found = some r → r ∈ db .projects ∧ rowId .projects r = p :=
    answers_get_total (t := .projects) hdb p
  have hnone : found.filter (fun p => p.organizationId == o) = none := by
    refine Option.filter_eq_none_iff.mpr fun r hr ho => ?_
    obtain ⟨hmem, hid⟩ := hfound r hr
    exact hno ⟨r, hmem, hid, by simpa using ho⟩
  refine hget.refuses ?_
  simp only [hnone]
  exact Prog.refuses_raise

/-- A member of too low a role is refused. -/
theorem refuses_requireOrgRole (inputs : ℕ → Input) {uow : UnitOfWork} {m : Membership}
    {minimum : MembershipRole} (hdb : vaultSchema.Valid db) (hacts : Acts uow db m)
    (hlow : ¬ roleRank minimum ≤ roleRank m.role) : ∃ detail,
      (requireOrgRole uow m.organizationId m.userId minimum).Refuses vaultEngine inputs [] db
        ⟨.insufficientRoleError, detail⟩ :=
  ⟨_, (hacts.answers_getActorMembership hdb).refuses
    (refuses_raiseIf (by simpa using hlow)).bind⟩

theorem refuses_missing (server : Server) (inputs : ℕ → Input) {r : Request}
    (hdb : vaultSchema.Valid db) (h : r.MissesProject currentUser db) :
    (r.handle server currentUser).Refuses vaultEngine inputs [] db
      ⟨.environmentProjectNotFoundError, "Project not found."⟩ := by
  cases r with
  | createEnvironment o p name =>
    obtain ⟨⟨m, hm, rfl, rfl, hrole⟩, hno⟩ := h
    have hacts := acts_session server (r := createEnvironment m.organizationId p name)
      rfl hm
    obtain ⟨gate, heq, hgate⟩ := answers_gate server inputs
      (r := createEnvironment m.organizationId p name) hdb rfl hm
    rw [heq]
    exact hgate.refuses ((hacts.answers_requireOrgRole hdb hrole).refuses
      (refuses_lookup hdb hno).bind).bind.bind
  | listEnvironments o p =>
    obtain ⟨⟨m, hm, rfl, rfl, hrole⟩, hno⟩ := h
    have hacts := acts_session server (r := listEnvironments m.organizationId p) rfl hm
    obtain ⟨gate, heq, hgate⟩ := answers_gate server inputs
      (r := listEnvironments m.organizationId p) hdb rfl hm
    rw [heq]
    exact hgate.refuses ((hacts.answers_requireOrgRole hdb hrole).refuses
      (refuses_lookup hdb hno).bind).bind.bind
  | _ => exact h.elim

/-- The operations for the environments of a project, when the organization has it. -/
theorem fails_projectOperation {α : Type} {uow : UnitOfWork} {m : Membership}
    {minimum : MembershipRole} {p : UUID} {k : Project → Tx α} (hdb : vaultSchema.Valid db)
    (hacts : Acts uow db m)
    (hp : roleRank minimum ≤ roleRank m.role → ProjectIn db m.organizationId p)
    (hk : ∀ project, Registered (k project)) :
    ((requireOrgRole uow m.organizationId m.userId minimum).bind fun _ =>
      (EnvironmentService.getProject uow m.organizationId p).bind k).Fails vaultEngine inputs [] db
        fun e => e.cls ≠ .environmentProjectNotFoundError := by
  by_cases hrole : roleRank minimum ≤ roleRank m.role
  · obtain ⟨project, hproject, rfl, ho⟩ := hp hrole
    exact (hacts.answers_requireOrgRole hdb hrole).fails
      ((hacts.answers_getProject hdb hproject ho).fails (hk project).fails)
  · obtain ⟨detail, hrefuses⟩ := refuses_requireOrgRole inputs hdb hacts hrole
    exact hrefuses.bind.fails ExnClass.noConfusion

theorem fails_of_not_missing (server : Server) (inputs : ℕ → Input) {r : Request}
    (hdb : vaultSchema.Valid db) (h : ¬ r.MissesProject currentUser db) :
    (r.handle server currentUser).Fails vaultEngine inputs [] db
      fun e => e.cls ≠ .environmentProjectNotFoundError := by
  by_cases hr : r.ofProject = false
  · exact (registered_handle hr).fails
  obtain ⟨o, ho⟩ : ∃ o, r.orgId = some o := by
    cases r <;> first | exact ⟨_, rfl⟩ | exact absurd rfl hr
  by_cases hmember : ∃ m ∈ db .memberships, m.userId = currentUser ∧ m.organizationId = o
  · obtain ⟨m, hm, rfl, rfl⟩ := hmember
    have hacts := acts_session server ho hm
    refine fails_gate hdb ho hm (.bind ?_ fun reply =>
      .bind (registered_present _ r reply) fun _ => trivial)
    cases r with
    | createEnvironment o p name =>
      obtain rfl := Option.some.inj ho
      refine .bind (fails_projectOperation hdb hacts (fun hrole => ?_) fun _ =>
        (EnvironmentService.raises_createIn (List.mem_singleton_self _) _ _).registered
          (by decide)) fun _ => trivial
      by_contra hno
      exact h ⟨⟨m, hm, rfl, rfl, hrole⟩, hno⟩
    | listEnvironments o p =>
      obtain rfl := Option.some.inj ho
      refine .bind (fails_projectOperation hdb hacts (fun hrole => ?_) fun _ =>
        .bind ((UnitOfWork.raises_select _).registered List.not_mem_nil) fun _ => trivial)
          fun _ => trivial
      by_contra hno
      exact h ⟨⟨m, hm, rfl, rfl, hrole⟩, hno⟩
    | _ => exact absurd rfl hr
  · have hout : ∀ m ∈ db .memberships, m.userId = currentUser → m.organizationId ≠ o :=
      fun m hm hu hmo => hmember ⟨m, hm, hu, hmo⟩
    exact (answers_gate_outsider ho hout).ends_ret fun _ e he => nomatch he

end

end Request

/-- In every state that service calls reach, and for every request of every user that has
passed authentication and validation: if its operation ends in an exception of the
services, the answer is the client error meant for that class, if and only if the request
does not ask for the environments of a project that the organization does not have. -/
theorem domain_failures_answered_iff {n : ℕ} (d : Deployment) (calls : Fin n → ServiceCall)
    (W : VaultWorld n) (hb : Begins W) (as : Schedule n) (s : VaultSys n)
    (hr : (waiting d calls W).run vaultEngine as = some s) (server : Server)
    (inputs : ℕ → Input) (currentUser : UUID) (r : Request) :
    r.FailsAsIntended server inputs currentUser s.world.db ↔
      ¬ r.MissesProject currentUser s.world.db := by
  have hdb := hb.valid_run hr
  constructor
  · intro h hmissing
    obtain ⟨k, hk⟩ := Request.refuses_missing server inputs hdb hmissing 0
    have hend : (alone inputs (r.handle server currentUser) s.world.db).1 =
        .error ⟨.environmentProjectNotFoundError, "Project not found."⟩ := congrArg Prod.fst hk
    have hanswer := h _ .notFound hend rfl
    rw [Request.response, hend, respond_unregistered] at hanswer
    exact absurd (congrArg Response.status hanswer) (by decide)
  · intro hfound e kind he hkind
    have hne := Request.fails_of_not_missing server inputs hdb hfound 0 e he
    rw [Request.response, he]
    exact respond_registered hkind hne

/-- The owner of an organization asks for the environments of a project it has. -/
theorem domain_failures_answered_iff_listing :
    (Request.listEnvironments 10 12).FailsAsIntended sampleServer sampleInput 1 acmeDb := by
  refine (domain_failures_answered_iff sampleDeployment Fin.elim0 ⟨acmeDb, [], samplePast 10⟩
    (opens_acme (n := 0)).toBegins [] _ rfl sampleServer sampleInput 1 _).mpr ?_
  rintro ⟨-, hno⟩
  exact hno ⟨⟨12, 10, "billing", "billing", none, some 1⟩, List.mem_singleton_self _, rfl, rfl⟩

/-- The same request for an unknown project is answered as an internal server error. -/
theorem unknown_project_internal_error :
    Begins (⟨acmeDb, [], samplePast 10⟩ : VaultWorld 0) ∧
    (alone sampleInput ((Request.listEnvironments 10 99).handle sampleServer 1) acmeDb).1 =
      .error ⟨.environmentProjectNotFoundError, "Project not found."⟩ ∧
    (Request.listEnvironments 10 99).response sampleServer sampleInput 1 acmeDb =
      ⟨500, .detail "Internal Server Error"⟩ ∧
    ¬ (Request.listEnvironments 10 99).FailsAsIntended sampleServer sampleInput 1 acmeDb := by
  have hend : (alone sampleInput ((Request.listEnvironments 10 99).handle sampleServer 1)
      acmeDb).1 = .error ⟨.environmentProjectNotFoundError, "Project not found."⟩ := by rfl
  have hanswer : (Request.listEnvironments 10 99).response sampleServer sampleInput 1 acmeDb =
      ⟨500, .detail "Internal Server Error"⟩ := by rfl
  refine ⟨opens_acme.toBegins, hend, hanswer, fun h => ?_⟩
  have hintended := h _ .notFound hend rfl
  rw [hanswer] at hintended
  exact absurd (congrArg Response.status hintended) (by decide)

end EnvVault
