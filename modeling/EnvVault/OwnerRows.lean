import EnvVault.TenantTakeover

/-!
# Owner rows under the policies of memberships

What one INSERT, UPDATE or DELETE of a single membership can do when the current
user is an admin of the current organization and not an owner. The UPDATE policy
looks at the new role only, and the DELETE policy only at whose row it is.
-/
namespace EnvVault
open EnvVault.Relational EnvVault.RowSecurity

/-- A statement about one row, with its old and its new version. -/
inductive MembershipChange : Type
  | insert (new : Membership)
  | update (old new : Membership)
  | delete (old : Membership)

namespace MembershipChange

/-- The row that an UPDATE or a DELETE is about is there. -/
def Applies (db : Db) : MembershipChange → Prop
  | .insert _ => True
  | .update old _ => old ∈ db .memberships
  | .delete old => old ∈ db .memberships

/-- The policies let the application role execute the statement. UPDATE and DELETE
find their row by a WHERE clause, so its SELECT policy is asked too, and for an
UPDATE also about the new version. -/
def admitted (owner : DbRole) (ctx : RlsContext) (db : Db) : MembershipChange → Bool
  | .insert new => mayAccess .envvaultApp owner ctx db .insert .memberships new
  | .update old new =>
    mayAccess .envvaultApp owner ctx db .select .memberships old &&
      mayAccess .envvaultApp owner ctx db .updateOld .memberships old &&
      mayAccess .envvaultApp owner ctx db .updateNew .memberships new &&
      mayAccess .envvaultApp owner ctx db .select .memberships new
  | .delete old =>
    mayAccess .envvaultApp owner ctx db .select .memberships old &&
      mayAccess .envvaultApp owner ctx db .delete .memberships old

/-- The statement creates, changes or removes a membership of `o` whose old or new
role is owner. -/
def TouchesOwner (o : UUID) : MembershipChange → Prop
  | .insert new => new.organizationId = o ∧ new.role = .owner
  | .update old new => old ≠ new ∧ ((old.organizationId = o ∧ old.role = .owner) ∨
      (new.organizationId = o ∧ new.role = .owner))
  | .delete old => old.organizationId = o ∧ old.role = .owner

end MembershipChange

/-- The user has a membership of `x` with one of these roles. -/
def HasRole (db : Db) (x u : UUID) (roles : List MembershipRole) : Prop :=
  ∃ m ∈ db .memberships, m.organizationId = x ∧ m.userId = u ∧ m.role ∈ roles

/-- The user `u` at work in organization `o` may store this version of a row. -/
structure MayStore (db : Db) (o u : UUID) (new : Membership) : Prop where
  admin : HasRole db new.organizationId u [.owner, .admin]
  owner : new.role = .owner → HasRole db new.organizationId u [.owner]
  visible : new.organizationId = o ∨ new.userId = u

/-- The statement gives an owner row of `o` another version, or deletes it. -/
def MembershipChange.Overreaches (db : Db) (o u : UUID) : MembershipChange → Prop
  | .insert _ => False
  | .update old new => old.organizationId = o ∧ old.role = .owner ∧ old ≠ new ∧
      MayStore db o u new
  | .delete old => old.organizationId = o ∧ old.role = .owner

section
variable {owner : DbRole} {ctx : RlsContext} {db : Db} {u o : UUID}

theorem mayAccess_app (a : Access) (t : Table) (r : RowOf t) :
    mayAccess .envvaultApp owner ctx db a t r = policiesAdmit owner ctx db a t r := by
  simp [mayAccess, DbRole.bypassesRls]

variable (hu : ctx.currentUserId = some u)
include hu

theorem passes_actorIn_iff_hasRole {x : UUID} {roles : List MembershipRole} :
    (actorIn owner ctx db x roles).passes = true ↔ HasRole db x u roles := by
  rw [passes_actorIn, HasRole]
  refine exists_congr fun m => and_congr_right fun _ => and_congr_right fun _ =>
    and_congr_left fun _ => ?_
  rw [hu, Option.some.injEq, eq_comm]

theorem mayAccess_memberships_updateOld (r : Membership) :
    mayAccess .envvaultApp owner ctx db .updateOld .memberships r = true ↔
      HasRole db r.organizationId u [.owner, .admin] := by
  rw [mayAccess_app]
  simp only [policiesAdmit, membershipPolicies, admits_perCommand]
  exact passes_actorIn_iff_hasRole hu

theorem mayAccess_memberships_updateNew (r : Membership) :
    mayAccess .envvaultApp owner ctx db .updateNew .memberships r = true ↔
      HasRole db r.organizationId u [.owner, .admin] ∧
        (r.role = .owner → HasRole db r.organizationId u [.owner]) := by
  rw [mayAccess_app]
  simp only [policiesAdmit, membershipPolicies, admits_perCommand, Truth.passes_and,
    Truth.passes_or, Truth.passes_some, Bool.and_eq_true, Bool.or_eq_true, decide_eq_true_eq,
    passes_actorIn_iff_hasRole hu]
  exact and_congr_right fun _ => (imp_iff_not_or).symm

theorem mayAccess_memberships_delete (r : Membership) :
    mayAccess .envvaultApp owner ctx db .delete .memberships r = true ↔
      HasRole db r.organizationId u [.owner, .admin] ∧
        (r.userId = u → HasRole db r.organizationId u [.owner]) := by
  rw [mayAccess_app]
  have hself : (Truth.eq (some r.userId) ctx.currentUserId).not.passes = true ↔ r.userId ≠ u := by
    rw [hu]
    simp [Truth.eq]
  simp only [policiesAdmit, membershipPolicies, admits_perCommand, Truth.passes_and,
    Truth.passes_or, Bool.and_eq_true, Bool.or_eq_true, passes_actorIn_iff_hasRole hu, hself]
  exact and_congr_right fun _ => (imp_iff_not_or).symm

variable (ho : ctx.currentOrgId = some o)
include ho

/-- A member sees the rows of the current organization, and its own. -/
theorem mayAccess_memberships_select {roles : List MembershipRole} (hm : HasRole db o u roles)
    (r : Membership) : mayAccess .envvaultApp owner ctx db .select .memberships r = true ↔
      r.organizationId = o ∨ r.userId = u := by
  obtain ⟨m, hmem, hmo, hmu, -⟩ := hm
  have hmember : IsMember ctx db := ⟨m, hmem, hu.trans (congrArg some hmu.symm),
    ho.trans (congrArg some hmo.symm)⟩
  rw [mayAccess_app]
  simp only [policiesAdmit, membershipPolicies, admits_perCommand]
  refine (passes_orgMembershipsSelect 7 r).trans ?_
  rw [hu, ho, Option.some.injEq, Option.some.injEq]
  constructor
  · rintro (h | ⟨h, -⟩)
    · exact Or.inr h.symm
    · exact Or.inl h.symm
  · rintro (h | h)
    · exact Or.inr ⟨h.symm, hmember⟩
    · exact Or.inl h.symm

end

/-- For an admin who is not an owner, the policies keep a statement away from the
owner rows of the organization exactly when it does not change or delete one. -/
theorem owner_rows_protected_iff (owner : DbRole) (ctx : RlsContext) (db : Db) (u o : UUID)
    (hu : ctx.currentUserId = some u) (ho : ctx.currentOrgId = some o)
    (hadmin : HasRole db o u [.admin]) (hnot : ¬ HasRole db o u [.owner])
    (st : MembershipChange) (hst : st.Applies db) :
    (st.admitted owner ctx db = true → ¬ st.TouchesOwner o) ↔ ¬ st.Overreaches db o u := by
  have hwork : HasRole db o u [.owner, .admin] := by
    obtain ⟨m, hm, hmo, hmu, hr⟩ := hadmin
    exact ⟨m, hm, hmo, hmu, List.mem_cons_of_mem _ hr⟩
  cases st with
  | insert new =>
    refine iff_of_true ?_ id
    rintro hadm ⟨hno, hrole⟩
    rw [MembershipChange.admitted, mayAccess_app, policiesAdmit_memberships_insert] at hadm
    rcases hadm with ⟨-, hne⟩ | ⟨-, -, hnone⟩
    · exact hne hrole
    · -- the admin's own membership is a member the bootstrap branch sees
      obtain ⟨m, hm, hmo, hmu, -⟩ := hadmin
      refine hnone m (mem_visibleMemberships.mpr ⟨hm, Or.inl (hu.trans ?_)⟩) (hmo.trans hno.symm)
      rw [hmu]
  | update old new =>
    simp only [MembershipChange.admitted, Bool.and_eq_true, mayAccess_memberships_updateOld hu,
      mayAccess_memberships_updateNew hu, mayAccess_memberships_select hu ho hadmin,
      MembershipChange.TouchesOwner, MembershipChange.Overreaches]
    constructor
    · rintro hsafe ⟨hoo, hor, hne, hstore⟩
      refine hsafe ⟨⟨⟨Or.inl hoo, ?_⟩, hstore.admin, hstore.owner⟩, hstore.visible⟩
        ⟨hne, Or.inl ⟨hoo, hor⟩⟩
      rwa [hoo]
    · rintro hno ⟨⟨⟨-, -⟩, hnew, hown⟩, hvis⟩ ⟨hne, ⟨hoo, hor⟩ | ⟨hno', hnr⟩⟩
      · exact hno ⟨hoo, hor, hne, hnew, hown, hvis⟩
      · have hown' := hown hnr
        rw [hno'] at hown'
        exact hnot hown'
  | delete old =>
    simp only [MembershipChange.admitted, Bool.and_eq_true, mayAccess_memberships_delete hu,
      mayAccess_memberships_select hu ho hadmin, MembershipChange.TouchesOwner,
      MembershipChange.Overreaches]
    constructor
    · rintro hsafe ⟨hoo, hor⟩
      refine hsafe ⟨Or.inl hoo, ?_, fun hself => ?_⟩ ⟨hoo, hor⟩
      · rwa [hoo]
      · exact ⟨old, hst, rfl, hself, by simp [hor]⟩
    · exact fun hno _ htouch => hno htouch

/-- Organization 10 with owner 1 and admin 2. -/
def ownerAndAdminDb : Db
  | .users =>
    [⟨1, "ana@example.com", some "h", none, true⟩, ⟨2, "bo@example.com", some "h", none, true⟩]
  | .organizations => [⟨10, "acme", "acme"⟩]
  | .memberships => [⟨11, 1, 10, .owner, none, 0⟩, ⟨12, 2, 10, .admin, none, 0⟩]
  | _ => []

theorem hasRole_admin : HasRole ownerAndAdminDb 10 2 [.admin] :=
  ⟨⟨12, 2, 10, .admin, none, 0⟩, by decide, rfl, rfl, by decide⟩

theorem not_hasRole_owner : ¬ HasRole ownerAndAdminDb 10 2 [.owner] := by
  rintro ⟨m, hm, -, hu, hr⟩
  revert hu hr
  revert m
  decide

/-- The admin makes the owner a viewer. -/
theorem admin_demotes_owner :
    (MembershipChange.update ⟨11, 1, 10, .owner, none, 0⟩ ⟨11, 1, 10, .viewer, none, 0⟩).Applies
        ownerAndAdminDb ∧
      HasRole ownerAndAdminDb 10 2 [.admin] ∧ ¬ HasRole ownerAndAdminDb 10 2 [.owner] ∧
      (MembershipChange.update ⟨11, 1, 10, .owner, none, 0⟩
        ⟨11, 1, 10, .viewer, none, 0⟩).admitted .envvaultMigrate ⟨some 2, some 10⟩
          ownerAndAdminDb = true ∧
      (MembershipChange.update ⟨11, 1, 10, .owner, none, 0⟩
        ⟨11, 1, 10, .viewer, none, 0⟩).TouchesOwner 10 := by
  refine ⟨List.mem_cons_self, hasRole_admin, not_hasRole_owner, by decide, by decide, Or.inl ?_⟩
  exact ⟨rfl, rfl⟩

/-- Nor can the admin make itself an owner. -/
theorem owner_rows_protected_iff_promotion :
    ¬ (MembershipChange.update ⟨12, 2, 10, .admin, none, 0⟩
      ⟨12, 2, 10, .owner, none, 0⟩).Overreaches ownerAndAdminDb 10 2 ∧
    ((MembershipChange.update ⟨12, 2, 10, .admin, none, 0⟩ ⟨12, 2, 10, .owner, none, 0⟩).admitted
        .envvaultMigrate ⟨some 2, some 10⟩ ownerAndAdminDb = true →
      ¬ (MembershipChange.update ⟨12, 2, 10, .admin, none, 0⟩
        ⟨12, 2, 10, .owner, none, 0⟩).TouchesOwner 10) := by
  have hno : ¬ (MembershipChange.update ⟨12, 2, 10, .admin, none, 0⟩
      ⟨12, 2, 10, .owner, none, 0⟩).Overreaches ownerAndAdminDb 10 2 :=
    fun h => absurd h.2.1 (by decide)
  exact ⟨hno, (owner_rows_protected_iff .envvaultMigrate ⟨some 2, some 10⟩ ownerAndAdminDb 2 10
    rfl rfl hasRole_admin not_hasRole_owner _
      (by simp [MembershipChange.Applies, ownerAndAdminDb])).mpr hno⟩

end EnvVault
