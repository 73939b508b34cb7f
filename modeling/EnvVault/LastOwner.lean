import EnvVault.StatementRules

/-!
# Owners of an organization under concurrent role changes

`update_role` and `remove` count the owners in one statement and write in a
later one. The count is no promise about the database the call commits to: two
calls that take the role from different owners both pass it.
-/
namespace EnvVault
open EnvVault.Relational EnvVault.Transactions

/-- Every organization has an owner. -/
def Owned (db : Db) : Prop :=
  ∀ o ∈ db .organizations, ∃ m ∈ db .memberships, m.organizationId = o.id ∧ m.role = .owner

instance (db : Db) : Decidable (Owned db) := inferInstanceAs (Decidable
  (∀ o ∈ db .organizations, ∃ m ∈ db .memberships, m.organizationId = o.id ∧ m.role = .owner))

/-- The rows that `count_owners` counts. -/
def ownersOf (db : Db) (organizationId : UUID) : List Membership :=
  (db .memberships).filter fun m => m.organizationId == organizationId && m.role == .owner

theorem mem_ownersOf {db : Db} {x : UUID} {m : Membership} :
    m ∈ ownersOf db x ↔ m ∈ db .memberships ∧ m.organizationId = x ∧ m.role = .owner := by
  simp [ownersOf]

/-- If the call takes the role of an owner from a membership, the organization has
another owner in this database. -/
def Op.LeavesOwner (op : Op) (db : Db) : Prop :=
  match op with
  | .updateRole _ membershipId newRole _ => newRole ≠ .owner → ∀ m ∈ db .memberships,
      m.id = membershipId → m.role = .owner → 1 < (ownersOf db m.organizationId).length
  | .removeMembership _ membershipId _ => ∀ m ∈ db .memberships,
      m.id = membershipId → m.role = .owner → 1 < (ownersOf db m.organizationId).length
  | _ => True

instance (op : Op) (db : Db) : Decidable (op.LeavesOwner db) :=
  match op with
  | .updateRole _ membershipId newRole _ => inferInstanceAs (Decidable (newRole ≠ .owner →
      ∀ m ∈ db .memberships, m.id = membershipId → m.role = .owner →
        1 < (ownersOf db m.organizationId).length))
  | .removeMembership _ membershipId _ => inferInstanceAs (Decidable (∀ m ∈ db .memberships,
      m.id = membershipId → m.role = .owner → 1 < (ownersOf db m.organizationId).length))
  | .register .. | .login .. | .refresh .. | .logout .. | .logoutAll .. | .createOrganization ..
  | .listOrganizations | .getOrganization .. | .updateOrganization .. | .deleteOrganization ..
  | .listMemberships .. | .invite .. | .createProject .. | .listProjects .. | .getProject ..
  | .updateProject .. | .deleteProject .. | .createEnvironment .. | .listEnvironments ..
  | .getEnvironment .. | .deleteEnvironment .. | .createSecret .. | .addNewVersion ..
  | .listSecrets .. | .getDecryptedValue .. | .deleteSecret .. | .listAuditLogs .. =>
    isTrue trivial

/-- The calls that found organizations and manage their members. -/
def Op.managesMembers : Op → Bool
  | .createOrganization .. => true
  | .invite .. => true
  | .updateRole .. => true
  | .removeMembership .. => true
  | _ => false

/-- What a commit of such a call writes. -/
inductive MembershipEffect (op : Op) (db : Db) : List RowWrite → Prop
  | nothing : MembershipEffect op db []
  | created (o : Organization) (m : Membership) (ho : m.organizationId = o.id)
      (hr : m.role = .owner) :
      MembershipEffect op db [.insert .organizations o, .insert .memberships m]
  | invited (m : Membership) : MembershipEffect op db [.insert .memberships m]
  | roleChanged (m : Membership) (newRole : MembershipRole) (hm : m ∈ db .memberships)
      (hop : ∃ o a, op = .updateRole o m.id newRole a) :
      MembershipEffect op db [.update .memberships ({ m with role := newRole } : Membership)]
  | removed (id : UUID) (hop : ∃ o a, op = .removeMembership o id a) :
      MembershipEffect op db [.delete .memberships id]

/-- Of two owners one is another membership. -/
theorem exists_other_owner {db : Db} (hv : vaultSchema.Valid db) {m : Membership}
    (h : 1 < (ownersOf db m.organizationId).length) :
    ∃ m' ∈ db .memberships, m'.id ≠ m.id ∧ m'.organizationId = m.organizationId ∧
      m'.role = .owner := by
  by_contra hno
  have hall : ∀ m' ∈ ownersOf db m.organizationId, m'.id = m.id := by
    intro m' hm'
    obtain ⟨hmem, ho, hr⟩ := mem_ownersOf.mp hm'
    by_contra hne
    exact hno ⟨m', hmem, hne, ho, hr⟩
  have hids : ((ownersOf db m.organizationId).map Membership.id).Nodup :=
    (List.filter_sublist.map _).nodup (hv.keys .memberships)
  have hsub : (ownersOf db m.organizationId).map Membership.id ⊆ [m.id] := by
    intro x hx
    obtain ⟨m', hm', rfl⟩ := List.mem_map.mp hx
    exact List.mem_singleton.mpr (hall m' hm')
  have := (hids.subperm hsub).length_le
  rw [List.length_map, List.length_singleton] at this
  omega

/-- A commit that leaves an owner keeps every organization owned. -/
theorem MembershipEffect.owned {op : Op} {db : Db} {ws : List RowWrite}
    (h : MembershipEffect op db ws) (hv : vaultSchema.Valid db) (hop : op.LeavesOwner db)
    (ho : Owned db) : Owned (vaultSchema.view ws db) := by
  cases h with
  | nothing => exact ho
  | created o m hmo hmr =>
    have horgs : vaultSchema.view [.insert .organizations o, .insert .memberships m] db
        .organizations = db .organizations ++ [o] := rfl
    have hmems : vaultSchema.view [.insert .organizations o, .insert .memberships m] db
        .memberships = db .memberships ++ [m] := rfl
    intro x hx
    rw [horgs, List.mem_append, List.mem_singleton] at hx
    rw [hmems]
    rcases hx with hx | rfl
    · obtain ⟨m', hm', h⟩ := ho x hx
      exact ⟨m', List.mem_append_left _ hm', h⟩
    · exact ⟨m, by simp, hmo, hmr⟩
  | invited m =>
    intro x hx
    obtain ⟨m', hm', h⟩ := ho x hx
    exact ⟨m', List.mem_append_left _ hm', h⟩
  | roleChanged m newRole hm hop' =>
    obtain ⟨_, _, rfl⟩ := hop'
    intro x hx
    obtain ⟨m', hm', hmx, hmr⟩ := ho x hx
    by_cases hid : m'.id = m.id
    · obtain rfl : m' = m := hv.eq_of_id (t := .memberships) hm' hm hid
      by_cases hrole : newRole = .owner
      · exact ⟨_, Schema.mem_apply_update.mpr (Or.inl ⟨rfl, m', hm, rfl⟩), hmx, hrole⟩
      · obtain ⟨m₂, hm₂, hne, ho₂, hr₂⟩ := exists_other_owner hv (hop hrole m' hm rfl hmr)
        exact ⟨m₂, Schema.mem_apply_update.mpr (Or.inr ⟨hm₂, hne⟩), ho₂.trans hmx, hr₂⟩
    · exact ⟨m', Schema.mem_apply_update.mpr (Or.inr ⟨hm', hid⟩), hmx, hmr⟩
  | removed id hop' =>
    obtain ⟨_, _, rfl⟩ := hop'
    intro x hx
    obtain ⟨m, hm, hmx, hmr⟩ := ho x hx
    by_cases hid : m.id = id
    · obtain ⟨m₂, hm₂, hne, ho₂, hr₂⟩ := exists_other_owner hv (hop m hm hid hmr)
      exact ⟨m₂, Schema.mem_apply_delete.mpr ⟨hm₂, fun he => hne (Eq.trans he hid.symm)⟩,
        ho₂.trans hmx, hr₂⟩
    · exact ⟨m, Schema.mem_apply_delete.mpr ⟨hm, hid⟩, hmx, hmr⟩

section
variable {n : ℕ} (calls : Fin n → ServiceCall) (base : Table × UUID → Prop)

/-- Every commit of the run is lawful and leaves an owner. -/
def ownerContract : Contract n vaultEngine where
  inv W := Owned W.db
  guar k W ws := MembershipEffect (calls k).op W.db ws
  assume k W ws := vaultSchema.LawfulCommit base W ws ∧ (calls k).op.LeavesOwner W.db
  quiet _ _ _ _ := True
  inv_consume _ _ h _ := h
  inv_commit _ _ _ h ha hg := hg.owned ha.1.before ha.2 h

variable {calls base} {i : Fin n} {d : Deployment}

theorem invite_meets (org : UUID) (email : String) (role : MembershipRole) (actor : UUID)
    (uow : UnitOfWork) (W : VaultWorld n) :
    wlp (ownerContract calls base) i (MembershipService.invite uow org email role actor)
      (fun _ _ _ => True) (fun _ _ _ => True) ⟨[], []⟩ W := by
  have hX : ∀ (e : Exn) (l : Local Db RowWrite) (V : VaultWorld n), True := fun _ _ _ => trivial
  refine wlp_reads_bind (reads_raiseIf _ _ _) hX stable_true trivial fun _ _ V _ _ _ => ?_
  refine wlp_reads_bind (reads_requireOrgRole _ _ _) hX stable_true trivial fun _ _ V _ _ _ => ?_
  refine wlp_reads_bind (reads_raiseIf _ _ _) hX stable_true trivial fun _ _ V _ _ _ => ?_
  refine wlp_reads_bind (reads_selectOne _ _) hX stable_true trivial fun user _ V _ _ _ => ?_
  cases user with
  | none => exact wlp_throw hX
  | some user =>
    refine wlp_reads_bind (reads_selectOne _ _) hX stable_true trivial fun _ _ V _ _ _ => ?_
    refine wlp_reads_bind (reads_raiseIf _ _ _) hX stable_true trivial fun _ _ V _ _ _ => ?_
    refine wlp_conflict hX (wlp_insertFlushed_bind hX stable_true trivial fun V inp _ _ _ => ?_)
    exact wlp_commit_last hX stable_true trivial (fun V _ _ _ => .invited _)
      fun _ _ => trivial

theorem updateRole_meets (org id : UUID) (newRole : MembershipRole) (actor : UUID)
    (hop : (calls i).op = .updateRole org id newRole actor) (uow : UnitOfWork) (W : VaultWorld n) :
    wlp (ownerContract calls base) i (MembershipService.updateRole uow org id newRole actor)
      (fun _ _ _ => True) (fun _ _ _ => True) ⟨[], []⟩ W := by
  have hX : ∀ (e : Exn) (l : Local Db RowWrite) (V : VaultWorld n), True := fun _ _ _ => trivial
  refine wlp_reads_bind (reads_requireOrgRole _ _ _) hX stable_true trivial fun _ _ V _ _ _ => ?_
  refine wlp_reads_bind (MembershipService.reads_getTarget _ _ _) hX stable_true trivial
    fun membership _ V hid _ _ => ?_
  split
  · exact fun _ _ => trivial
  refine wlp_reads_bind (reads_raiseIf _ _ _) hX stable_true trivial fun _ _ V _ _ _ => ?_
  refine wlp_reads_bind (P := fun _ => True) ?_ hX stable_true trivial fun _ _ V _ _ _ => ?_
  · split
    · exact .bind (reads_countOwners _) fun _ _ => (reads_raiseIf _ _ _).mono fun _ _ => trivial
    · trivial
  refine wlp_reads_bind (reads_raiseIf _ _ _) hX stable_true trivial fun _ _ V _ _ _ => ?_
  refine wlp_updateFlushed_bind hX stable_true trivial fun V inp r _ _ hr hrid => ?_
  -- the updated row stays locked until the commit
  refine wlp_commit_last hX (stable_locked (t := .memberships) ⟨_, List.mem_singleton.mpr rfl, rfl⟩
    (fun r => r ∈ V.db .memberships)) (fun _ _ => Iff.rfl) (fun U hlock _ _ => ?_)
    fun _ _ => trivial
  refine .roleChanged r newRole ((hlock r rfl).mpr hr) ⟨org, actor, ?_⟩
  rw [hop, show r.id = id from hrid.trans hid]

theorem remove_meets (org id actor : UUID) (hop : (calls i).op = .removeMembership org id actor)
    (uow : UnitOfWork) (W : VaultWorld n) :
    wlp (ownerContract calls base) i (MembershipService.remove uow org id actor)
      (fun _ _ _ => True) (fun _ _ _ => True) ⟨[], []⟩ W := by
  have hX : ∀ (e : Exn) (l : Local Db RowWrite) (V : VaultWorld n), True := fun _ _ _ => trivial
  refine wlp_reads_bind (reads_requireOrgRole _ _ _) hX stable_true trivial fun _ _ V _ _ _ => ?_
  refine wlp_reads_bind (MembershipService.reads_getTarget _ _ _) hX stable_true trivial
    fun membership _ V hid _ _ => ?_
  refine wlp_reads_bind (P := fun _ => True) ?_ hX stable_true trivial fun _ _ V _ _ _ => ?_
  · split
    · exact .bind (reads_raiseIf _ _ _) fun _ _ => .bind (reads_countOwners _) fun _ _ =>
        (reads_raiseIf _ _ _).mono fun _ _ => trivial
    · trivial
  refine wlp_delete_bind hX stable_true trivial (fun V inp _ _ => ?_) fun V inp ws _ _ hws => ?_
  · exact wlp_commit_end hX stable_true trivial (fun _ _ _ _ => .nothing) fun _ _ => trivial
  · refine wlp_commit_end hX stable_true trivial (fun _ _ _ _ => ?_) fun _ _ => trivial
    rcases MembershipService.deleteRow_membership hws with rfl | rfl
    · exact .nothing
    · exact .removed _ ⟨org, actor, by rw [hop, hid]⟩

theorem createOrganization_meets (name slug : String) (userId : UUID) (uow : UnitOfWork)
    (W : VaultWorld n) :
    wlp (ownerContract calls base) i (OrganizationService.create uow name slug userId)
      (fun _ _ _ => True) (fun _ _ _ => True) ⟨[], []⟩ W := by
  have hX : ∀ (e : Exn) (l : Local Db RowWrite) (V : VaultWorld n), True := fun _ _ _ => trivial
  refine wlp_reads_bind (reads_selectOne _ _) hX stable_true trivial fun _ _ V _ _ _ => ?_
  refine wlp_reads_bind (reads_raiseIf _ _ _) hX stable_true trivial fun _ _ V _ _ _ => ?_
  refine wlp_conflict hX (wlp_bind (wlp_statement_bind hX stable_true trivial
    fun V inp ws org _ _ _ hf => ?_))
  obtain ⟨rfl, m, -, -, hmo, hmr, rfl, -⟩ := createOrganizationWithOwner_ok hf
  refine wlp_reads_bind (reads_get _ _) hX stable_true trivial fun found _ V _ _ _ => ?_
  cases found with
  | none => exact wlp_throw hX
  | some org =>
    exact fun V _ => wlp_commit_last hX stable_true trivial (fun _ _ _ _ => .created _ m hmo hmr)
      fun _ _ => trivial

theorem owner_meets (hops : ∀ i, (calls i).op.managesMembers = true) :
    (ownerContract calls base).Meets (fun i => (calls i).program d) fun _ _ _ _ => True := by
  intro i W _
  have hop := hops i
  change wlp _ i ((calls i).op.program d (calls i).uow) _ _ _ _
  cases h : (calls i).op with
  | createOrganization name slug userId =>
    exact wlp_map (fun _ _ _ => trivial) (createOrganization_meets _ _ _ _ _)
  | invite org email role actor =>
    exact wlp_map (fun _ _ _ => trivial) (invite_meets _ _ _ _ _ _)
  | updateRole org id newRole actor =>
    exact wlp_map (fun _ _ _ => trivial) (updateRole_meets _ _ _ _ h _ _)
  | removeMembership org id actor =>
    exact wlp_map (fun _ _ _ => trivial) (remove_meets _ _ _ h _ _)
  | _ => rw [h] at hop; cases hop

end

/-- In a run whose every commit leaves an owner to the organization it takes one
from, every organization keeps an owner in every state. -/
theorem owners_remain {n : ℕ} (d : Deployment) (calls : Fin n → ServiceCall)
    (hops : ∀ i, (calls i).op.managesMembers = true) (W : VaultWorld n) (hb : Begins W)
    (ho : Owned W.db) (as : Schedule n) (s : VaultSys n)
    (hr : (waiting d calls W).run vaultEngine as = some s)
    (hguard : (waiting d calls W).Each vaultEngine (fun t a => ∀ k ws,
      t.committing a = some (k, ws) → (calls k).op.LeavesOwner t.world.db) as) :
    Owned s.world.db := by
  have hok := Sys.Ok.run (owner_meets hops) ⟨fun _ _ _ _ _ _ => trivial,
    fun _ _ _ _ _ _ _ => trivial⟩ (.initial (ho : (ownerContract calls (baseKeys W.db)).inv W))
    (fun pre a t hpre ht k ws hc => ⟨⟨hb.each_lawful pre a t hpre ht k ws hc,
      hguard pre a t hpre ht k ws hc⟩, fun _ _ _ => trivial⟩) hr
  exact hok.inv

/-- Organization 10 with its owners 1 and 2. -/
def twoOwnersDb : Db
  | .users =>
    [⟨1, "ana@example.com", some "h", none, true⟩, ⟨2, "bo@example.com", some "h", none, true⟩]
  | .organizations => [⟨10, "acme", "acme"⟩]
  | .memberships => [⟨11, 1, 10, .owner, none, 0⟩, ⟨12, 2, 10, .owner, none, 0⟩]
  | _ => []

theorem begins_twoOwners {n : ℕ} : Begins (⟨twoOwnersDb, [], samplePast 10⟩ : VaultWorld n) :=
  begins_sample (.of_checks mem_allTables (by decide) (by decide +kernel)) 10 (by decide)

/-- Each owner makes the other one a member. -/
def mutualDemotions : Fin 2 → ServiceCall
  | 0 => ⟨.updateRole 10 12 .member 1, sampleUow 1 10⟩
  | 1 => ⟨.updateRole 10 11 .member 2, sampleUow 2 10⟩

/-- Both calls count two owners before either commits. -/
theorem mutual_demotions_leave_no_owner :
    ∃ W : VaultWorld 2, Begins W ∧ Owned W.db ∧
      (∀ i, (mutualDemotions i).op.managesMembers = true) ∧ ∃ as s,
        (waiting sampleDeployment mutualDemotions W).run vaultEngine as = some s ∧
          ¬ Owned s.world.db := by
  refine ⟨_, begins_twoOwners, by decide, by decide,
    sampleSteps 10 [0, 0, 0, 1, 1, 1, 0, 1, 0, 1], ?_⟩
  have hrun : ((waiting sampleDeployment mutualDemotions ⟨twoOwnersDb, [], samplePast 10⟩).run
      vaultEngine (sampleSteps 10 [0, 0, 0, 1, 1, 1, 0, 1, 0, 1])).map
        (fun s => (s.world.db .organizations, s.world.db .memberships)) =
      some ([⟨10, "acme", "acme"⟩],
        [⟨11, 1, 10, .member, none, 0⟩, ⟨12, 2, 10, .member, none, 0⟩]) := by
    rfl
  obtain ⟨s, hs, hdb⟩ := Option.map_eq_some_iff.mp hrun
  obtain ⟨horgs, hmems⟩ := Prod.mk.inj hdb
  refine ⟨s, hs, fun ho => ?_⟩
  rw [Owned, horgs, hmems] at ho
  exact absurd ho (by decide)

/-- One of two owners steps down. -/
def oneDemotion : Fin 1 → ServiceCall
  | 0 => ⟨.updateRole 10 12 .member 1, sampleUow 1 10⟩

theorem owners_remain_oneDemotion :
    ∃ s, (waiting sampleDeployment oneDemotion ⟨twoOwnersDb, [], samplePast 10⟩).run vaultEngine
      (sampleSteps 10 [0, 0, 0, 0, 0]) = some s ∧ Owned s.world.db := by
  obtain ⟨s, hs⟩ := Option.isSome_iff_exists.mp (rfl : ((waiting sampleDeployment oneDemotion
    ⟨twoOwnersDb, [], samplePast 10⟩).run vaultEngine
      (sampleSteps 10 [0, 0, 0, 0, 0])).isSome = true)
  refine ⟨s, hs, owners_remain sampleDeployment oneDemotion (by decide) _ begins_twoOwners
    (by decide) _ s hs (Sys.Each.of_checks (fun t a => (t.committing a).all fun c =>
      decide ((oneDemotion c.1).op.LeavesOwner t.world.db)) (fun t a h k ws hc => ?_) (by decide))⟩
  simpa [hc] using h

end EnvVault
