import EnvVault.CallResults
import EnvVault.Mediation
import EnvVault.RequestRefinement
import EnvVault.TenantAuthorization

/-!
# The role behind every answer

Every operation on an organization asks for a role of its actor before it writes or answers
anything, and every route on an organization for a membership. So at some moment of a
request that was served or has committed, its user had the role, under every interleaving.
-/
namespace EnvVault
open EnvVault.Relational EnvVault.Transactions

section
variable {uow : UnitOfWork} {I : Input → Prop} {G : Db → Prop} {β : Type} {D : β → Prop}
  {org actor : UUID}

theorem mediated_selectOne_bind {t : Table} {cond : RowOf t → Bool} {k : Option (RowOf t) → Tx β}
    (hnone : (k none).Mediated I G D)
    (hsome : ∀ v, ∀ r ∈ v t, cond r = true → G v ∨ (k (some r)).Mediated I G D) :
    ((uow.selectOne t cond).bind k).Mediated I G D := by
  rw [UnitOfWork.selectOne_bind]
  refine Prog.mediated_statement_bind fun inp v ws rows _ hf => ?_
  simp only [Except.ok.injEq, Prod.mk.injEq] at hf
  obtain ⟨rfl, rfl⟩ := hf
  unfold UnitOfWork.scalarOneOrNone
  split
  · exact Or.inr ⟨rfl, hnone⟩
  · rename_i r heq
    have hr : r ∈ uow.found t cond v := heq ▸ List.mem_singleton.mpr rfl
    obtain ⟨hmem, hcond⟩ := List.mem_filter.mp hr
    simp only [Bool.and_eq_true] at hcond
    exact (hsome v r hmem hcond.2).imp_right fun h => ⟨rfl, h⟩
  · exact Or.inr ⟨rfl, trivial⟩

theorem mediated_getByUserAndOrg_bind {k : Option Membership → Tx β}
    (hnone : (k none).Mediated I G D) (hsome : ∀ v, ∀ m ∈ v .memberships, m.userId = actor →
      m.organizationId = org → G v ∨ (k (some m)).Mediated I G D) :
    ((MembershipRepository.getByUserAndOrg uow actor org).bind k).Mediated I G D := by
  refine mediated_selectOne_bind hnone fun v m hm hcond => ?_
  simp only [Bool.and_eq_true, beq_iff_eq] at hcond
  exact hsome v m hm hcond.1 hcond.2

/-- A role check is a guard, whatever comes after it. -/
theorem mediated_requireOrgRole_bind {minimum : MembershipRole} {k : Membership → Tx β} :
    ((requireOrgRole uow org actor minimum).bind k).Mediated I
      (fun v => Authorized v org actor minimum) D := by
  simp only [requireOrgRole, getActorMembership, Prog.bind_eq, Prog.bind_assoc]
  refine mediated_getByUserAndOrg_bind trivial fun v m hm huser horg => ?_
  by_cases hrank : roleRank minimum ≤ roleRank m.role
  · exact Or.inl ⟨m, hm, horg, huser, hrank⟩
  · refine Or.inr ?_
    simp only [Prog.pure_eq, Prog.ret_bind, requireMinRole, raiseIf,
      decide_eq_true (not_le.mp hrank), if_true]
    trivial

end

/-- An operation that asks for a role writes and answers nothing before it has found it. -/
theorem Op.mediated {d : Deployment} {uow : UnitOfWork} {I : Input → Prop} {op : Op}
    {org actor : UUID} {minimum : MembershipRole} (h : op.asks = some (org, actor, minimum)) :
    (op.program d uow).Mediated I (fun v => Authorized v org actor minimum) fun _ => False := by
  cases op
  case invite o email role u =>
    cases h
    refine Prog.Mediated.bind (D := fun _ => False) ?_ fun _ h => h.elim
    refine (reads_raiseIf _ _ _).mediated.bind fun _ _ => ?_
    exact mediated_requireOrgRole_bind
  all_goals
    first
    | cases h
      refine Prog.Mediated.bind (D := fun _ => False) ?_ fun _ h => h.elim
      exact mediated_requireOrgRole_bind
    | cases h

namespace Request

/-- The organization of a route, its user and the least role that the route asks for: that
of its operation, or a membership for `get_organization`. -/
def asks (currentUser : UUID) : Request → Option (UUID × UUID × MembershipRole)
  | getOrganization orgId => some (orgId, currentUser, .viewer)
  | r => (r.op currentUser).asks

theorem asks_eq (currentUser : UUID) {orgId : UUID} {r : Request} (h : r.orgId = some orgId) :
    ∃ minimum, r.asks currentUser = some (orgId, currentUser, minimum) := by
  cases r <;> cases h <;> exact ⟨_, rfl⟩

/-- A route on an organization serves nothing before it has found the role it asks for. -/
theorem handle_mediated {server : Server} {I : Input → Prop} {currentUser orgId : UUID}
    {r : Request} {minimum : MembershipRole} (h : r.orgId = some orgId)
    (hasks : r.asks currentUser = some (orgId, currentUser, minimum)) :
    (r.handle server currentUser).Mediated I (fun db => Authorized db orgId currentUser minimum)
      fun response => 400 ≤ response.status := by
  unfold handle
  rw [h]
  refine mediated_getByUserAndOrg_bind (le_of_lt (by decide : 400 < 403))
    fun v m hm huser horg => ?_
  unfold asks at hasks
  split at hasks
  · cases hasks
    exact Or.inl ⟨m, hm, horg, huser, Nat.zero_le _⟩
  · refine Or.inr ?_
    show (r.run server currentUser).Mediated _ _ _
    rw [run_eq]
    exact (Op.mediated hasks).bind fun _ h => h.elim

end Request

section
variable {n : ℕ} {server : Server} {users : Fin n → UUID} {requests : Fin n → Request}

/-- Whatever runs beside it: a request on an organization that was answered with success, or
that has committed anything, has met a database in which its user had the role that its
route asks for, in that organization. -/
theorem served_requests_authorized {W : VaultWorld n} (hlog : W.log = []) {as : Schedule n}
    {t : Sys n Input Db RowWrite Exn Response}
    (hr : (handling server users requests W).run vaultEngine as = some t) {i : Fin n}
    {orgId : UUID} (ho : (requests i).orgId = some orgId)
    (hserved : (∃ ws, (i, ws) ∈ t.world.log) ∨
      ∃ response, (t.call i).prog = .ret response ∧ response.status < 400) :
    ∃ minimum, (requests i).asks (users i) = some (orgId, users i, minimum) ∧
      ∃ db ∈ (t.call i).seen, Authorized db orgId (users i) minimum := by
  obtain ⟨minimum, hasks⟩ := Request.asks_eq (users i) ho
  have hmediated : t.Mediated i (fun _ => True) (fun db => Authorized db orgId (users i) minimum)
      fun response => 400 ≤ response.status :=
    (Sys.Mediated.initial hlog (Request.handle_mediated ho hasks)).run hr
      fun _ _ => trivial
  refine ⟨minimum, hasks, ?_⟩
  rcases hserved with ⟨ws, hws⟩ | ⟨response, hret, hstatus⟩
  · exact hmediated.committed hws
  · exact hmediated.returned hret (not_le.mpr hstatus)

end

theorem served_requests_authorized_acme :
    ∃ t, (handling sampleServer (fun _ => 1) acmeRequests ⟨acmeDb, [], samplePast 10⟩).run
        vaultEngine acmeRequestSteps = some t ∧
      ∃ db ∈ (t.call 3).seen, Authorized db 10 1 .member := by
  obtain ⟨t, ht, hret⟩ := acmeRequests_run
  obtain ⟨minimum, hasks, hauthorized⟩ := served_requests_authorized rfl ht
    (show (acmeRequests 3).orgId = some 10 from rfl) (Or.inr ⟨_, hret, by decide⟩)
  obtain rfl : minimum = .member := by simpa [Request.asks, acmeRequests, Request.op, Op.asks]
    using hasks.symm
  exact ⟨t, ht, hauthorized⟩

end EnvVault
