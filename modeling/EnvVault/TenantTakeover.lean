import EnvVault.TenantIsolation

/-!
# Statements on memberships under the policies

What an INSERT or an UPDATE of `memberships` by the application role can do to
the members of an organization that the current user does not belong to. The
bootstrap branch of `org_memberships_insert` asks whether the organization has
members, and asks it through `org_memberships_select`.
-/
namespace EnvVault
open EnvVault.Relational EnvVault.RowSecurity

/-- An INSERT of any number of rows, or an UPDATE that gives the rows it is about
their new versions. -/
inductive MembershipStatement : Type
  | insert (rows : List Membership)
  | update (set : Membership → Option Membership)

section
variable (owner : DbRole) (ctx : RlsContext) (db : Db)

/-- The rows an UPDATE reaches, with their new versions. -/
def updatedRows (set : Membership → Option Membership) : List (Membership × Membership) :=
  (db .memberships).filterMap fun r =>
    if policiesAdmit owner ctx db .updateOld .memberships r then (set r).map fun r' => (r, r')
    else none

/-- The policies admit the statement: every row it proposes passes. -/
def MembershipStatement.admitted : MembershipStatement → Bool
  | .insert rows => rows.all fun r => policiesAdmit owner ctx db .insert .memberships r
  | .update set => (updatedRows owner ctx db set).all fun p =>
      policiesAdmit owner ctx db .updateNew .memberships p.2

/-- The memberships after the statement; a statement the policies refuse has no effect. -/
def MembershipStatement.result (st : MembershipStatement) : List Membership :=
  if st.admitted owner ctx db then
    match st with
    | .insert rows => db .memberships ++ rows
    | .update set => (db .memberships).map fun r =>
        if policiesAdmit owner ctx db .updateOld .memberships r then (set r).getD r else r
  else db .memberships

end

/-- The users that hold a membership of `x`. -/
def Holds (rows : List Membership) (x w : UUID) : Prop :=
  ∃ m ∈ rows, m.organizationId = x ∧ m.userId = w

section
variable {owner : DbRole} {ctx : RlsContext} {db : Db}

theorem policiesAdmit_memberships_insert (r : Membership) :
    policiesAdmit owner ctx db .insert .memberships r = true ↔
      ((∃ m ∈ db .memberships, m.organizationId = r.organizationId ∧
          ctx.currentUserId = some m.userId ∧ m.role ∈ [.owner, .admin]) ∧ r.role ≠ .owner) ∨
        (ctx.currentUserId = some r.userId ∧ r.role = .owner ∧
          ∀ m ∈ visibleMemberships owner ctx db, m.organizationId ≠ r.organizationId) := by
  have hnot : ∀ rows : List Membership, ∀ x : UUID, ((exists' rows fun existing =>
      Truth.eq (some existing.organizationId) (some x)).not).passes = true ↔
        ∀ m ∈ rows, m.organizationId ≠ x := by
    intro rows x
    simp only [exists', Truth.not_some, Truth.passes_some, Truth.passes_eq_some, Bool.not_eq_true',
      List.any_eq_false, decide_eq_true_eq, Option.some.injEq]
    exact forall₂_congr fun m _ => not_congr eq_comm
  have hrole : r.role ∈ [MembershipRole.admin, .member, .viewer] ↔ r.role ≠ .owner := by
    cases r.role <;> decide
  simp only [policiesAdmit, membershipPolicies, admits_perCommand, Truth.passes_or,
    Truth.passes_and, Truth.passes_some, Truth.passes_eq_some, Bool.or_eq_true, Bool.and_eq_true,
    decide_eq_true_eq, passes_actorIn, hnot, hrole, and_assoc]

theorem policiesAdmit_memberships_updateNew {r : Membership}
    (h : policiesAdmit owner ctx db .updateNew .memberships r = true) :
    ∃ m ∈ db .memberships, m.organizationId = r.organizationId ∧
      ctx.currentUserId = some m.userId := by
  simp only [policiesAdmit, membershipPolicies, admits_perCommand, Truth.passes_and,
    Bool.and_eq_true, passes_actorIn] at h
  obtain ⟨⟨m, hm, ho, hu, -⟩, -⟩ := h
  exact ⟨m, hm, ho, hu⟩

variable {x u : UUID} (hctx : ctx.currentUserId = some u)
  (hu : ∀ m ∈ db .memberships, m.organizationId = x → m.userId ≠ u)

include hctx hu in
/-- A user sees nothing of an organization it is not a member of. -/
theorem visibleMemberships_of_stranger :
    ∀ m ∈ visibleMemberships owner ctx db, m.organizationId ≠ x := by
  intro m hm hx
  obtain ⟨hm, hself | ⟨horg, m', hm', hu', ho'⟩⟩ := mem_visibleMemberships.mp hm
  · exact hu m hm hx (Option.some.inj (hself.symm.trans hctx))
  · have hx' : m'.organizationId = x := by
      rw [← hx]
      exact Option.some.inj (ho'.symm.trans horg)
    exact hu m' hm' hx' (Option.some.inj (hu'.symm.trans hctx))

include hctx hu in
/-- Of all rows of an organization the user is not a member of, the INSERT policy
lets through the user's own ownership and nothing else. -/
theorem insert_of_stranger {r : Membership} (hr : r.organizationId = x) :
    policiesAdmit owner ctx db .insert .memberships r = true ↔ r.userId = u ∧ r.role = .owner := by
  rw [policiesAdmit_memberships_insert]
  constructor
  · rintro (⟨⟨m, hm, ho, hself, -⟩, -⟩ | ⟨hself, hrole, -⟩)
    · exact absurd (Option.some.inj (hself.symm.trans hctx)) (hu m hm (ho.trans hr))
    · exact ⟨Option.some.inj (hself.symm.trans hctx), hrole⟩
  · rintro ⟨hself, hrole⟩
    refine Or.inr ⟨hctx.trans (by rw [hself]), hrole, ?_⟩
    rw [hr]
    exact visibleMemberships_of_stranger hctx hu

end

/-- The statement is an INSERT of the ownership of `x` for `u` in which no other
row is refused. -/
def MembershipStatement.Bootstraps (owner : DbRole) (ctx : RlsContext) (db : Db) (x u : UUID) :
    MembershipStatement → Prop
  | .insert rows => (∃ r ∈ rows, r.organizationId = x ∧ r.userId = u ∧ r.role = .owner) ∧
      ∀ r ∈ rows, policiesAdmit owner ctx db .insert .memberships r = true
  | .update _ => False

/-- A statement of a user outside organization `x` gives nobody a new membership
of `x`, except an INSERT of the user's own ownership. -/
theorem no_takeover_iff (owner : DbRole) (ctx : RlsContext) (db : Db) (x u : UUID)
    (hctx : ctx.currentUserId = some u)
    (hu : ∀ m ∈ db .memberships, m.organizationId = x → m.userId ≠ u) (st : MembershipStatement) :
    (∀ w, Holds (st.result owner ctx db) x w → Holds (db .memberships) x w) ↔
      ¬ st.Bootstraps owner ctx db x u := by
  have hnotu : ¬ Holds (db .memberships) x u := fun ⟨m, hm, hmx, hmu⟩ => hu m hm hmx hmu
  cases st with
  | insert rows =>
    constructor
    · rintro hsafe ⟨⟨r, hr, hrx, hru, -⟩, hall⟩
      refine hnotu (hsafe u ⟨r, ?_, hrx, hru⟩)
      have hadm : (MembershipStatement.insert rows).admitted owner ctx db = true :=
        List.all_eq_true.mpr hall
      simp only [MembershipStatement.result, hadm, if_true, List.mem_append]
      exact Or.inr hr
    · rintro hno w ⟨m, hm, hmx, hmw⟩
      simp only [MembershipStatement.result] at hm
      split at hm
      · rename_i hadm
        have hall := List.all_eq_true.mp hadm
        rcases List.mem_append.mp hm with hm | hm
        · exact ⟨m, hm, hmx, hmw⟩
        · obtain ⟨hself, hrole⟩ := (insert_of_stranger hctx hu hmx).mp (hall m hm)
          exact absurd ⟨⟨m, hm, hmx, hself, hrole⟩, hall⟩ hno
      · exact ⟨m, hm, hmx, hmw⟩
  | update set =>
    refine iff_of_true ?_ (by simp [MembershipStatement.Bootstraps])
    rintro w ⟨m, hm, hmx, hmw⟩
    simp only [MembershipStatement.result] at hm
    split at hm
    · rename_i hadm
      obtain ⟨r, hr, hrm⟩ := List.mem_map.mp hm
      split at hrm
      · rename_i hold
        cases hset : set r with
        | none => exact ⟨r, hr, by simpa [← hrm, hset] using hmx, by simpa [← hrm, hset] using hmw⟩
        | some r' =>
          obtain rfl : r' = m := by simpa [hset] using hrm
          have hpair : (r, r') ∈ updatedRows owner ctx db set :=
            List.mem_filterMap.mpr ⟨r, hr, by simp [hold, hset]⟩
          obtain ⟨a, ha, hao, hau⟩ :=
            policiesAdmit_memberships_updateNew (List.all_eq_true.mp hadm _ hpair)
          exact absurd (Option.some.inj (hau.symm.trans hctx)) (hu a ha (hao.trans hmx))
      · exact ⟨m, by rwa [hrm] at hr, hmx, hmw⟩
    · exact ⟨m, hm, hmx, hmw⟩

/-- Organization 10 with owner 1, and user 2 outside of it. -/
def strangerDb : Db
  | .users =>
    [⟨1, "ana@example.com", some "h", none, true⟩, ⟨2, "bo@example.com", some "h", none, true⟩]
  | .organizations => [⟨10, "acme", "acme"⟩]
  | .memberships => [⟨11, 1, 10, .owner, none, 0⟩]
  | _ => []

/-- User 2 makes itself an owner of organization 10. -/
theorem stranger_takes_over :
    (∃ m ∈ strangerDb .memberships, m.organizationId = 10) ∧
      (∀ m ∈ strangerDb .memberships, m.organizationId = 10 → m.userId ≠ 2) ∧
      ¬ ∀ w, Holds ((MembershipStatement.insert [⟨12, 2, 10, .owner, none, 0⟩]).result
          .superuser ⟨some 2, none⟩ strangerDb) 10 w → Holds (strangerDb .memberships) 10 w := by
  refine ⟨⟨_, List.mem_singleton.mpr rfl, rfl⟩, by decide, fun h => ?_⟩
  obtain ⟨m, hm, -, hw⟩ := h 2 ⟨⟨12, 2, 10, .owner, none, 0⟩, by decide, rfl, rfl⟩
  rw [List.mem_singleton.mp hm] at hw
  exact absurd hw (by decide)

theorem no_takeover_iff_stranger :
    ¬ (MembershipStatement.insert [⟨12, 2, 10, .admin, none, 0⟩]).Bootstraps
      .superuser ⟨some 2, none⟩ strangerDb 10 2 ∧
    ∀ w, Holds ((MembershipStatement.insert [⟨12, 2, 10, .admin, none, 0⟩]).result
      .superuser ⟨some 2, none⟩ strangerDb) 10 w → Holds (strangerDb .memberships) 10 w := by
  have hno : ¬ (MembershipStatement.insert [⟨12, 2, 10, .admin, none, 0⟩]).Bootstraps
      .superuser ⟨some 2, none⟩ strangerDb 10 2 := by simp [MembershipStatement.Bootstraps]
  exact ⟨hno, (no_takeover_iff .superuser ⟨some 2, none⟩ strangerDb 10 2 rfl (by decide) _).mpr
    hno⟩

end EnvVault
