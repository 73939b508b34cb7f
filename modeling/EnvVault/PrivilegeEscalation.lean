import EnvVault.TenantAuthorization

/-!
# Memberships before and after a call

The role rules of the services stand in several ordered conditions of three methods.
Together they let nobody gain more than an owner of the organization has given, and
nobody but an owner touch an owner.
-/
namespace EnvVault
open EnvVault.Relational EnvVault.Transactions

/-- The user who invokes the call; the list of one's own organizations takes no actor. -/
def Op.actor : Op → Option UUID
  | .createOrganization _ _ u => some u
  | op => op.asks.map fun a => a.2.1

/-- The organization is new, and this user is its only member. -/
structure CreatedBy (db db' : Db) (o u : UUID) : Prop where
  fresh : ∀ org ∈ db .organizations, org.id ≠ o
  created : ∃ org ∈ db' .organizations, org.id = o
  onlyMember : ∃ m : Membership, m.userId = u ∧
    ∀ m', (m' ∈ db' .memberships ∧ m'.organizationId = o) ↔ m' = m

/-- The membership had this role in this organization before. -/
def HadRole (db : Db) (m' : Membership) : Prop :=
  ∃ m ∈ db .memberships, m.id = m'.id ∧ m.organizationId = m'.organizationId ∧ m.role = m'.role

/-- How the memberships of one organization may change when `u` acts. -/
structure NoEscalation (db db' : Db) (o u : UUID) : Prop where
  promoted : ∀ m' ∈ db' .memberships, m'.organizationId = o → m'.role ∈ [.owner, .admin] →
    ¬ HadRole db m' → HasRole db o u [.owner] ∨ CreatedBy db db' o u
  owners : ∀ m ∈ db .memberships, m.organizationId = o → m.role = .owner →
    m ∉ db' .memberships → HasRole db o u [.owner]
  changed : ∀ m : Membership, m.organizationId = o →
    ¬ (m ∈ db' .memberships ↔ m ∈ db .memberships) →
      HasRole db o u [.owner, .admin] ∨ CreatedBy db db' o u

/-- The call names this organization, or has created it. -/
def Op.Concerns (op : Op) (db db' : Db) (x : UUID) : Prop :=
  (∃ u minimum, op.asks = some (x, u, minimum)) ∨
    ((∀ org ∈ db .organizations, org.id ≠ x) ∧ ∃ org ∈ db' .organizations, org.id = x)

section
variable {db db' : Db} {o u : UUID}

theorem ActsIn.hasRole {minimum : MembershipRole} {m : Membership} (h : ActsIn db o u minimum m) :
    HasRole db o u [m.role] :=
  ⟨m, h.mem, h.organization, h.user, List.mem_singleton.mpr rfl⟩

theorem ActsIn.hasRole_admin {m : Membership} (h : ActsIn db o u .admin m) :
    HasRole db o u [.owner, .admin] := by
  refine ⟨m, h.mem, h.organization, h.user, ?_⟩
  have hrank := h.rank
  cases hm : m.role <;> simp [hm, roleRank] at hrank ⊢

theorem Authorized.hasRole_owner (h : Authorized db o u .owner) : HasRole db o u [.owner] := by
  obtain ⟨m, hm⟩ := h
  have hrank := hm.rank
  have hrole : m.role = .owner := by cases hm : m.role <;> simp [hm, roleRank] at hrank ⊢
  exact hrole ▸ hm.hasRole

theorem HasRole.mono {roles roles' : List MembershipRole} (h : HasRole db o u roles)
    (hsub : ∀ r ∈ roles, r ∈ roles') : HasRole db o u roles' := by
  obtain ⟨m, hm, ho, hu, hr⟩ := h
  exact ⟨m, hm, ho, hu, hsub _ hr⟩

theorem NoEscalation.of_same (h : ∀ m, m ∈ db' .memberships ↔ m ∈ db .memberships) :
    NoEscalation db db' o u where
  promoted m' hm' _ _ hnot := absurd ⟨m', (h m').mp hm', rfl, rfl, rfl⟩ hnot
  owners m hm _ _ hnot := absurd ((h m).mpr hm) hnot
  changed m _ hnot := absurd (h m) hnot

/-- Changes in one organization, by one of its admins or owners. -/
theorem NoEscalation.of_changes {x : UUID}
    (helse : ∀ m : Membership, m.organizationId ≠ x →
      (m ∈ db' .memberships ↔ m ∈ db .memberships))
    (hadmin : HasRole db x u [.owner, .admin])
    (hnew : ∀ m' ∈ db' .memberships, m' ∉ db .memberships → m'.role ∈ [.owner, .admin] →
      HasRole db x u [.owner])
    (hold : ∀ m ∈ db .memberships, m ∉ db' .memberships → m.role = .owner →
      HasRole db x u [.owner]) : NoEscalation db db' o u := by
  by_cases hx : o = x
  · subst hx
    refine ⟨fun m' hm' _ hrole hnot => Or.inl (hnew m' hm' (fun hm => ?_) hrole),
      fun m hm _ hrole hnot => hold m hm hnot hrole, fun _ _ _ => Or.inl hadmin⟩
    exact hnot ⟨m', hm, rfl, rfl, rfl⟩
  · have hne : ∀ m : Membership, m.organizationId = o → m.organizationId ≠ x :=
      fun m hm he => hx (hm.symm.trans he)
    refine ⟨fun m' hm' ho _ hnot => ?_, fun m hm ho _ hnot => ?_, fun m ho hnot => ?_⟩
    · exact absurd ⟨m', (helse m' (hne m' ho)).mp hm', rfl, rfl, rfl⟩ hnot
    · exact absurd ((helse m (hne m ho)).mpr hm) hnot
    · exact absurd (helse m (hne m ho)) hnot

end

section
variable {d : Deployment} {uow : UnitOfWork} {db : Db} {u : UUID} {reply : Reply}
  {ws : List RowWrite}

/-- A call that returned has left the memberships alone, or is one of five. -/
theorem Op.Did.memberships_same {op : Op} (hdb : vaultSchema.Valid db) (hown : KeysOwn db)
    (h : op.Did d uow db reply ws) : (∀ m, m ∈ vaultSchema.view ws db .memberships ↔
      m ∈ db .memberships) ∨ match op with
        | .createOrganization .. => True
        | .deleteOrganization .. => True
        | .invite .. => True
        | .updateRole .. => True
        | .removeMembership .. => True
        | _ => False := by
  have hcontainer (c : Container) (hc : ∀ x, c ≠ .organization x)
      (hws : Deletes uow db c.table c.id ws) (m : Membership) :
      m ∈ vaultSchema.view ws db .memberships ↔ m ∈ db .memberships := by
    refine ⟨(hws.container hdb hown).1, fun hm => ?_⟩
    by_contra hnot
    exact hc _ ((hws.container (t := .memberships) hdb hown).2 hm hnot)
  cases h with
  | createOrganization => exact Or.inr trivial
  | deleteOrganization => exact Or.inr trivial
  | invite => exact Or.inr trivial
  | roleKept => exact Or.inr trivial
  | roleChanged => exact Or.inr trivial
  | removeMembership => exact Or.inr trivial
  | deleteProject id _ _ _ ha hp hws =>
    exact Or.inl (hcontainer (.project id) (by simp) hws)
  | deleteEnvironment id _ _ _ ha he hws =>
    exact Or.inl (hcontainer (.environment id) (by simp) hws)
  | updateOrganization _ _ name slug r => exact Or.inl (by split <;> exact fun _ => Iff.rfl)
  | updateProject _ _ _ name slug description p =>
    exact Or.inl (by split <;> exact fun _ => Iff.rfl)
  | deleteSecret => exact Or.inl (by split <;> exact fun _ => Iff.rfl)
  | _ => exact Or.inl fun _ => Iff.rfl

/-- A membership that an INSERT, or the change of a role, has not touched. -/
theorem mem_memberships_insert {m m' : Membership} :
    m' ∈ vaultSchema.view [.insert .memberships m] db .memberships ↔
      m' ∈ db .memberships ∨ m' = m := by
  have hview : vaultSchema.view [.insert .memberships m] db .memberships =
      db .memberships ++ [m] := rfl
  rw [hview, List.mem_append, List.mem_singleton]

theorem mem_memberships_withRole {m m' : Membership} {newRole : MembershipRole}
    (hm : m ∈ db .memberships) :
    m' ∈ vaultSchema.view [.update .memberships (m.withRole newRole)] db .memberships ↔
      m' = m.withRole newRole ∨ (m' ∈ db .memberships ∧ m'.id ≠ m.id) := by
  have hview : vaultSchema.view [.update .memberships (m.withRole newRole)] db .memberships =
      vaultSchema.apply (.update .memberships (m.withRole newRole)) db .memberships := rfl
  rw [hview, Schema.mem_apply_update]
  exact or_congr_left (and_iff_left ⟨m, hm, rfl⟩)

theorem mem_memberships_delete {x : UUID} {m : Membership} :
    m ∈ vaultSchema.view [.delete .memberships x] db .memberships ↔
      m ∈ db .memberships ∧ m.id ≠ x := by
  have hview : vaultSchema.view [.delete .memberships x] db .memberships =
      vaultSchema.apply (.delete .memberships x) db .memberships := rfl
  rw [hview, Schema.mem_apply_delete]
  rfl

theorem mem_memberships_create {org : Organization} {m m' : Membership} :
    m' ∈ vaultSchema.view [.insert .organizations org, .insert .memberships m] db .memberships ↔
      m' ∈ db .memberships ∨ m' = m := by
  have hview : vaultSchema.view [.insert .organizations org, .insert .memberships m] db
      .memberships = db .memberships ++ [m] := rfl
  rw [hview, List.mem_append, List.mem_singleton]

/-- Outside the organization that the call names, every membership stays. -/
theorem Op.Did.memberships_elsewhere {op : Op} (hdb : vaultSchema.Valid db) (hown : KeysOwn db)
    (h : op.Did d uow db reply ws) {x : UUID} {a : UUID × MembershipRole}
    (hasks : op.asks = some (x, a)) {m : Membership} (hm : m.organizationId ≠ x) :
    m ∈ vaultSchema.view ws db .memberships ↔ m ∈ db .memberships := by
  rcases h.memberships_same hdb hown with hsame | hop
  · exact hsame m
  cases h with
  | createOrganization => cases hasks
  | deleteOrganization _ _ _ ha hws =>
    cases hasks
    have hws' := hws.container (c := .organization x) hdb hown (t := .memberships) (r := m)
    refine ⟨hws'.1, fun hmem => ?_⟩
    by_contra hnot
    exact hm (Container.organization.inj (hws'.2 hmem hnot)).symm
  | invite o email role _ actor m₀ ha howner hadmin huser hm₀ hadm =>
    cases hasks
    rw [mem_memberships_insert, or_iff_left]
    rintro rfl
    exact hm hm₀.1
  | roleKept => exact Iff.rfl
  | roleChanged o id newRole _ actor m₀ ha hm₀ hid ho howner hadmin =>
    cases hasks
    have hne : m ≠ m₀.withRole newRole := by
      rintro rfl
      exact hm ho
    rw [mem_memberships_withRole hm₀, or_iff_right hne]
    refine and_iff_left_of_imp fun hmem hsame => ?_
    rw [hdb.eq_of_id (t := .memberships) hmem hm₀ hsame] at hm
    exact hm ho
  | removeMembership o id _ actor m₀ _ ha hm₀ hid ho howner hws =>
    cases hasks
    rcases hws.membership with rfl | rfl
    · exact Iff.rfl
    · rw [mem_memberships_delete]
      refine and_iff_left_of_imp fun hmem hsame => ?_
      rw [hdb.eq_of_id (t := .memberships) hmem hm₀ (hsame.trans hid.symm)] at hm
      exact hm ho
  | _ => exact hop.elim

/-- A new organization has the membership of its creator and no other. -/
theorem createdBy_create {org : Organization} {m : Membership} (hdb : vaultSchema.Valid db)
    (hnew : ∀ r ∈ db .organizations, r.id ≠ org.id) (ho : m.organizationId = org.id) :
    CreatedBy db (vaultSchema.view [.insert .organizations org, .insert .memberships m] db) org.id
      m.userId where
  fresh := hnew
  created := ⟨org, List.mem_append_right _ (List.mem_singleton.mpr rfl), rfl⟩
  onlyMember := by
    refine ⟨m, rfl, fun m' => ?_⟩
    rw [mem_memberships_create]
    constructor
    · rintro ⟨hm' | hm', hmo⟩
      · obtain ⟨r, hr, hid⟩ := parent_exists hdb hm' (by simp [referencesOf] :
          (.organizations, some m'.organizationId) ∈ referencesOf .memberships m')
        exact absurd (hid.trans hmo) (hnew r hr)
      · exact hm'
    · rintro rfl
      exact ⟨Or.inr rfl, ho⟩

/-- No call that returned has let its actor, or anybody else, gain a role that its actor
could not give. -/
theorem Op.Did.noEscalation {op : Op} (hdb : vaultSchema.Valid db) (hown : KeysOwn db)
    (h : op.Did d uow db reply ws) (hu : ∀ a, op.actor = some a → a = u) (o : UUID) :
    NoEscalation db (vaultSchema.view ws db) o u := by
  rcases h.memberships_same hdb hown with hsame | hop
  · exact .of_same hsame
  have helse : ∀ x a, op.asks = some (x, a) → ∀ m : Membership, m.organizationId ≠ x →
      (m ∈ vaultSchema.view ws db .memberships ↔ m ∈ db .memberships) :=
    fun x a hasks m => h.memberships_elsewhere hdb hown hasks
  cases h with
  | createOrganization name slug _ org m₀ hnew ho hm₀ =>
    obtain rfl := (hu _ rfl).symm.trans hm₀.2.1.symm
    have hcreated := createdBy_create hdb hnew hm₀.1
    by_cases hx : o = org.id
    · subst hx
      refine ⟨fun _ _ _ _ _ => Or.inr hcreated, fun m hm _ _ hnot => ?_,
        fun _ _ _ => Or.inr hcreated⟩
      exact absurd (mem_memberships_create.mpr (Or.inl hm)) hnot
    · have hsame : ∀ m : Membership, m.organizationId = o →
          (m ∈ vaultSchema.view [.insert .organizations org, .insert .memberships m₀] db
            .memberships ↔ m ∈ db .memberships) := by
        intro m hm
        rw [mem_memberships_create, or_iff_left]
        rintro rfl
        exact hx (hm.symm.trans hm₀.1)
      refine ⟨fun m' hm' hmo _ hnot => ?_, fun m hm hmo _ hnot => ?_, fun m hmo hnot => ?_⟩
      · exact absurd ⟨m', (hsame m' hmo).mp hm', rfl, rfl, rfl⟩ hnot
      · exact absurd ((hsame m hmo).mpr hm) hnot
      · exact absurd (hsame m hmo) hnot
  | deleteOrganization x _ _ ha hws =>
    obtain rfl := hu _ rfl
    have howner := ha.hasRole_owner
    have hws' := fun m => hws.container (c := .organization x) hdb hown (t := .memberships) (r := m)
    exact .of_changes (helse _ _ rfl) (howner.mono (by simp))
      (fun m hm hnot => absurd ((hws' m).1 hm) hnot) fun _ _ _ _ => howner
  | invite x email role _ actor m₀ ha hrole hadmin huser hm₀ hadm =>
    obtain rfl := hu _ rfl
    refine .of_changes (helse _ _ rfl) ha.hasRole_admin (fun m hm hnot hr => ?_)
      fun m hm hnot => absurd (mem_memberships_insert.mpr (Or.inl hm)) hnot
    obtain rfl := (mem_memberships_insert.mp hm).resolve_left hnot
    rw [hm₀.2.1] at hr
    have hisAdmin : role = .admin := by simpa [hrole] using hr
    exact hadmin hisAdmin ▸ ha.hasRole
  | roleKept => exact .of_same fun _ => Iff.rfl
  | roleChanged x id newRole _ actor m₀ ha hm₀ hid ho howner hadmin =>
    obtain rfl := hu _ rfl
    refine .of_changes (helse _ _ rfl) ha.hasRole_admin (fun m hm hnot hr => ?_)
      fun m hm hnot hr => ?_
    · obtain rfl := ((mem_memberships_withRole hm₀).mp hm).resolve_right fun h => hnot h.1
      have hactor : actor.role = .owner := by
        have hcases : newRole = .owner ∨ newRole = .admin := by simpa [Membership.withRole] using hr
        rcases hcases with h | h
        · exact howner (Or.inl h)
        · exact hadmin h
      exact hactor ▸ ha.hasRole
    · have hsame : m.id = m₀.id := by
        by_contra hne
        exact hnot ((mem_memberships_withRole hm₀).mpr (Or.inr ⟨hm, hne⟩))
      obtain rfl := hdb.eq_of_id (t := .memberships) hm hm₀ hsame
      exact howner (Or.inr hr) ▸ ha.hasRole
  | removeMembership x id _ actor m₀ _ ha hm₀ hid ho howner hws =>
    obtain rfl := hu _ rfl
    rcases hws.membership with rfl | rfl
    · exact .of_same fun _ => Iff.rfl
    refine .of_changes (helse _ _ rfl) ha.hasRole_admin
      (fun m hm hnot => absurd (mem_memberships_delete.mp hm).1 hnot) fun m hm hnot hr => ?_
    have hsame : m.id = id := by
      by_contra hne
      exact hnot (mem_memberships_delete.mpr ⟨hm, hne⟩)
    obtain rfl := hdb.eq_of_id (t := .memberships) hm hm₀ (hsame.trans hid.symm)
    exact howner hr ▸ ha.hasRole
  | _ => exact hop.elim

/-- A call that names no organization changes memberships of one only that it creates. -/
theorem Op.Did.memberships_unnamed {op : Op} (h : op.Did d uow db reply ws)
    (hasks : op.asks = none) {m : Membership}
    (hm : ¬ ((∀ org ∈ db .organizations, org.id ≠ m.organizationId) ∧
      ∃ org ∈ vaultSchema.view ws db .organizations, org.id = m.organizationId)) :
    m ∈ vaultSchema.view ws db .memberships ↔ m ∈ db .memberships := by
  cases h with
  | createOrganization name slug _ org m₀ hnew ho hm₀ =>
    rw [mem_memberships_create, or_iff_left]
    rintro rfl
    refine hm ⟨fun r hr hid => hnew r hr (hid.trans hm₀.1), org, ?_, hm₀.1.symm⟩
    exact List.mem_append_right _ (List.mem_singleton.mpr rfl)
  | listOrganizations => exact Iff.rfl
  | getOrganization => exact Iff.rfl
  | _ => cases hasks

end

/-- In every state that service calls reach, whatever the session: when `u` invokes a
method of the organization, membership, project, environment, secret or audit services,
the memberships of every organization change as `NoEscalation` allows, and those of an
organization that the call neither names nor creates do not change. -/
theorem no_privilege_escalation {n : ℕ} (d : Deployment) (calls : Fin n → ServiceCall)
    (W : VaultWorld n) (ho : Opens W) (as : Schedule n) (s : VaultSys n)
    (hr : (waiting d calls W).run vaultEngine as = some s) (uow : UnitOfWork) (op : Op)
    (hop : op.authenticates = false) (u : UUID) (hu : ∀ a, op.actor = some a → a = u)
    (inputs : ℕ → Input) :
    (∀ o, NoEscalation s.world.db (alone inputs (op.program d uow) s.world.db).2.db o u) ∧
    ∀ m : Membership, ¬ op.Concerns s.world.db (alone inputs (op.program d uow) s.world.db).2.db
      m.organizationId → (m ∈ (alone inputs (op.program d uow) s.world.db).2.db .memberships ↔
        m ∈ s.world.db .memberships) := by
  have hi := ho.vaultInv hr
  cases hresult : (alone inputs (op.program d uow) s.world.db).1 with
  | error e =>
    rw [Op.alone_unchanged hi.valid hop hresult]
    exact ⟨fun o => .of_same fun _ => Iff.rfl, fun m _ => Iff.rfl⟩
  | ok reply =>
    obtain ⟨ws, hdid, hview⟩ := Op.alone_did hi.valid hop hresult
    rw [hview]
    refine ⟨hdid.noEscalation hi.valid hi.keysOwn hu, fun m hm => ?_⟩
    have hnew := fun h => hm (Or.inr h)
    cases hasks : op.asks with
    | none => exact hdid.memberships_unnamed hasks hnew
    | some a =>
      refine hdid.memberships_elsewhere hi.valid hi.keysOwn hasks fun he => hm (Or.inl ?_)
      exact ⟨a.2.1, a.2.2, by rw [hasks, he]⟩

/-- User 1 creates a second organization and is its only member. -/
theorem no_privilege_escalation_newOrganization : ∃ s, (waiting sampleDeployment acmeCalls
    ⟨acmeDb, [], samplePast 10⟩).run vaultEngine acmeSteps = some s ∧
      CreatedBy s.world.db (alone (fun k => sampleInput (55 + k))
        ((Op.createOrganization "beta" "beta" 1).program sampleDeployment (sampleUow 1 10))
          s.world.db).2.db 112 1 := by
  have hrun : ((waiting sampleDeployment acmeCalls ⟨acmeDb, [], samplePast 10⟩).run vaultEngine
      acmeSteps).map (fun s => (s.world.db .memberships, (alone (fun k => sampleInput (55 + k))
        ((Op.createOrganization "beta" "beta" 1).program sampleDeployment (sampleUow 1 10))
          s.world.db).2.db .memberships)) = some ([⟨11, 1, 10, .owner, none, 0⟩],
            [⟨11, 1, 10, .owner, none, 0⟩, ⟨113, 1, 112, .owner, none, 56⟩]) := by rfl
  obtain ⟨s, hs, hfacts⟩ := Option.map_eq_some_iff.mp hrun
  simp only [Prod.mk.injEq] at hfacts
  obtain ⟨hbefore, hafter⟩ := hfacts
  refine ⟨s, hs, ?_⟩
  have hsafe := (no_privilege_escalation sampleDeployment acmeCalls _ opens_acme acmeSteps s hs
    (sampleUow 1 10) (.createOrganization "beta" "beta" 1) rfl 1 (by simp [Op.actor])
    (fun k => sampleInput (55 + k))).1 112
  refine (hsafe.promoted ⟨113, 1, 112, .owner, none, 56⟩ (by simp [hafter]) rfl (by simp)
    (by simp [HadRole, hbefore])).resolve_left ?_
  simp [HasRole, hbefore]

end EnvVault
