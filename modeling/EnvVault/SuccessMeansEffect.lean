import EnvVault.TenantAuthorization

/-!
# A success is an effect

The role rules stand twice, as conditions of the services and as policies of the
tables, and a DELETE or UPDATE by a WHERE clause passes over the rows that a policy
keeps from it. For five methods that report the change of one row: when the
application role returns from them, the row is changed, with one exception.
-/
namespace EnvVault
open EnvVault.Relational EnvVault.RowSecurity EnvVault.Transactions

/-- The session of a request of the user in the organization. -/
def requestUow (owner : DbRole) (userId orgId : UUID) : UnitOfWork :=
  ⟨some userId, some orgId, .envvaultApp, owner⟩

/-- The methods that report the change of one row. -/
def Op.changesOneRow : Op → Bool
  | .removeMembership .. => true
  | .updateRole .. => true
  | .invite .. => true
  | .deleteSecret .. => true
  | .updateOrganization .. => true
  | _ => false

/-- Every row but this one is as it was. -/
def ChangesOnly (t : Table) (x : UUID) (db db' : Db) : Prop :=
  ∀ t', ∀ r : RowOf t', (t' = t → rowId t' r ≠ x) → (r ∈ db' t' ↔ r ∈ db t')

/-- The change that the method reports is there, and no other. -/
def Op.Effected (op : Op) (reply : Reply) (db db' : Db) : Prop :=
  match op with
  | .removeMembership _ id _ =>
    (∀ m ∈ db' .memberships, m.id ≠ id) ∧ ChangesOnly .memberships id db db'
  | .updateRole _ id newRole _ =>
    (∃ m ∈ db .memberships, m.id = id ∧ m.withRole newRole ∈ db' .memberships) ∧
      ChangesOnly .memberships id db db'
  | .invite o email role _ =>
    ∃ m ∈ db' .memberships, reply = .membership m ∧ m.organizationId = o ∧ m.role = role ∧
      (∃ user ∈ db .users, sameEmail user.email email = true ∧ m.userId = user.id) ∧
        (∀ r ∈ db .memberships, r.id ≠ m.id) ∧ ChangesOnly .memberships m.id db db'
  | .deleteSecret id _ _ =>
    (∃ s ∈ db .secrets, ∃ time, s.id = id ∧ s.deletedFrom time ∈ db' .secrets) ∧
      ChangesOnly .secrets id db db'
  | .updateOrganization o _ name slug =>
    (∃ r ∈ db .organizations, r.id = o ∧ r.changed name slug ∈ db' .organizations) ∧
      ChangesOnly .organizations o db db'
  | _ => True

/-- An admin is about to remove its own membership. -/
def Op.RemovesSelf (db : Db) (op : Op) : Prop :=
  ∃ o id u, op = .removeMembership o id u ∧ ∃ m ∈ db .memberships, m.id = id ∧
    m.organizationId = o ∧ m.userId = u ∧ m.role = .admin

section
variable {db : Db} {ws : List RowWrite} {t : Table} {x : UUID}

theorem ChangesOnly.refl : ChangesOnly t x db db := fun _ _ _ => Iff.rfl

/-- Writes about one row change no other. -/
theorem ChangesOnly.of_writes (h : ∀ w ∈ ws, vaultSchema.target w = (t, x)) :
    ChangesOnly t x db (vaultSchema.view ws db) := by
  intro t' r hne
  have hout : ∀ w ∈ ws, vaultSchema.target w ≠ (t', rowId t' r) := by
    intro w hw heq
    have hpair := (h w hw).symm.trans heq
    simp only [Prod.mk.injEq] at hpair
    exact hne hpair.1.symm hpair.2.symm
  constructor
  · intro hr
    rcases stored_of_view hr with hr | hr | hr
    · exact hr
    · exact absurd rfl (hout _ hr)
    · exact absurd rfl (hout _ hr)
  · intro hr
    by_contra hnot
    rcases lost_of_view hr hnot with ⟨r', hw, hid⟩ | hw
    · exact hout _ hw (Prod.ext rfl hid.symm)
    · exact hout _ hw rfl

end

section
variable {owner : DbRole} {db : Db} {o u : UUID}

theorem ActsIn.acts {minimum : MembershipRole} {m : Membership} (h : ActsIn db o u minimum m) :
    Acts (requestUow owner u o) db m :=
  ⟨h.mem, Or.inr ⟨congrArg some h.user.symm, congrArg some h.organization.symm⟩⟩

/-- The policies let an admin or owner delete a membership of its organization, unless
it is an admin and the membership its own. -/
theorem may_removeMembership (owner : DbRole) {actor m : Membership} (hdb : vaultSchema.Valid db)
    (ha : ActsIn db o u .admin actor) (hm : m ∈ db .memberships) (ho : m.organizationId = o) :
    ((requestUow owner u o).may db .select .memberships m = true ∧
      (requestUow owner u o).may db .delete .memberships m = true) ↔
        ¬ (m.userId = u ∧ m.role = .admin) := by
  have hwork : actor.role ∈ [.owner, .admin] := by
    have hrank := ha.rank
    cases hrole : actor.role <;> simp [hrole, roleRank] at hrank ⊢
  have hadmin : HasRole db o u [.owner, .admin] :=
    ⟨actor, ha.mem, ha.organization, ha.user, hwork⟩
  have hsel : (requestUow owner u o).may db .select .memberships m = true :=
    (mayAccess_memberships_select rfl rfl hadmin m).mpr (Or.inl ho)
  have hdel : (requestUow owner u o).may db .delete .memberships m = true ↔ _ :=
    mayAccess_memberships_delete rfl m
  rw [hdel, ho, and_iff_right hsel, and_iff_right hadmin, not_and]
  refine imp_congr_right fun hself => ?_
  -- a user has one membership in an organization
  have hone : ∀ m' ∈ db .memberships, m'.organizationId = o → m'.userId = u → m' = m :=
    fun m' hm' ho' hu' => membership_unique hdb hm hm' (hu'.trans hself.symm) (ho'.trans ho.symm)
  obtain rfl : actor = m := hone actor ha.mem ha.organization ha.user
  constructor
  · rintro ⟨m', hm', ho', hu', hr'⟩ hrole
    obtain rfl := hone m' hm' ho' hu'
    simp [hrole] at hr'
  · intro hrole
    refine ⟨actor, hm, ho, hself, ?_⟩
    simpa [hrole] using hwork

/-- A DELETE passes over a row that the policies keep from it. -/
theorem answers_delete_hidden {uow : UnitOfWork} {inputs : ℕ → Input} {t : Table} {x : UUID}
    (h : ∀ r ∈ db t, rowId t r = x →
      ¬ (uow.may db .select t r = true ∧ uow.may db .delete t r = true)) :
    (uow.delete t x).Answers vaultEngine inputs [] db () := by
  refine Prog.answers_statement fun inp => ?_
  refine if_neg fun hany => ?_
  obtain ⟨r, hr, hid, hmay⟩ := uow.any_deletable_iff.mp hany
  exact h r hr hid hmay

/-- The admin that removes itself is told of a success, and nothing has changed. -/
theorem removeSelf_ends (owner : DbRole) (inputs : ℕ → Input) {m : Membership}
    (hdb : vaultSchema.Valid db) (hm : m ∈ db .memberships) (hrole : m.role = .admin) :
    (MembershipService.remove (requestUow owner m.userId m.organizationId) m.organizationId m.id
      m.userId).Ends vaultEngine inputs [] db fun result so => result = .ok () ∧ so.db = db := by
  have ha : ActsIn db m.organizationId m.userId .admin m := ⟨hm, rfl, rfl, by rw [hrole]⟩
  have hacts : Acts (requestUow owner m.userId m.organizationId) db m := ha.acts
  have htarget : (MembershipService.getTarget (requestUow owner m.userId m.organizationId) m
      m.organizationId m.id).Answers vaultEngine inputs [] db m := by
    refine (answers_get (t := .memberships) hdb hm hacts.may_membership rfl).bind ?_
    simp only [identityMap, if_true]
    exact (answers_raiseIf (by simp)).bind Prog.answers_ret
  refine (hacts.answers_requireOrgRole hdb ha.rank).ends (htarget.ends ?_)
  rw [if_neg (by simp [hrole])]
  refine Prog.answers_ret.ends ((answers_delete_hidden fun r hr hid => ?_).ends
    (ends_commit fun _ => ⟨rfl, rfl⟩))
  obtain rfl : r = m := hdb.eq_of_id (t := .memberships) hr hm hid
  rw [may_removeMembership owner hdb ha hm rfl, not_not]
  exact ⟨rfl, hrole⟩

/-- The DELETE of a membership that the policies allow takes it. -/
theorem Deletes.membership_taken {uow : UnitOfWork} {ws : List RowWrite} {m : Membership}
    (h : Deletes uow db .memberships m.id ws) (hm : m ∈ db .memberships)
    (hmay : uow.may db .select .memberships m = true ∧ uow.may db .delete .memberships m = true) :
    ws = [.delete .memberships m.id] := by
  have hx : ∃ r ∈ db .memberships, rowId .memberships r = m.id := ⟨m, hm, rfl⟩
  rw [Deletes, if_pos ⟨m, hm, rfl, hmay⟩, Schema.deleteRow_eq (S := vaultSchema)
    (t := .memberships) hx rfl, events_memberships, Schema.drains_nil] at h
  exact (Except.ok.inj h).symm

/-- The row of an UPDATE is the new version, and no other row has changed. -/
theorem updated_row {t : Table} {old : RowOf t} (new : RowOf t) (hold : old ∈ db t)
    (hid : rowId t new = rowId t old) : new ∈ vaultSchema.view [.update t new] db t ∧
      ChangesOnly t (rowId t old) db (vaultSchema.view [.update t new] db) := by
  constructor
  · rw [Schema.view_cons, Schema.view_nil]
    exact Schema.mem_apply_update.mpr (Or.inl ⟨rfl, old, hold, hid.symm⟩)
  · refine .of_writes fun w hw => ?_
    obtain rfl := List.mem_singleton.mp hw
    exact Prod.ext rfl hid

/-- Where no admin removes itself, the change that was reported is there. -/
theorem Op.Did.effected {d : Deployment} {op : Op} {reply : Reply} {ws : List RowWrite}
    {minimum : MembershipRole} (hdb : vaultSchema.Valid db)
    (h : op.Did d (requestUow owner u o) db reply ws) (hop : op.changesOneRow = true)
    (hasks : op.asks = some (o, u, minimum)) (hself : ¬ op.RemovesSelf db) :
    op.Effected reply db (vaultSchema.view ws db) := by
  cases h with
  | updateOrganization _ _ name slug r ha hr hid =>
    cases hasks
    split
    · rename_i hsame
      exact ⟨⟨r, hr, hid, by rwa [hsame]⟩, .refl⟩
    · have hrow := updated_row (t := .organizations) (r.changed name slug) hr rfl
      exact ⟨⟨r, hr, hid, hrow.1⟩, hid ▸ hrow.2⟩
  | invite _ email role _ actor m ha howner hadmin huser hm hadm =>
    cases hasks
    have hview : vaultSchema.view [.insert .memberships m] db .memberships =
      db .memberships ++ [m] := rfl
    refine ⟨m, hview ▸ List.mem_append_right _ (List.mem_singleton.mpr rfl), rfl, hm.1, hm.2.1,
      huser, (Schema.admitsInsert_iff.mp hadm).1, .of_writes fun w hw => ?_⟩
    obtain rfl := List.mem_singleton.mp hw
    rfl
  | roleKept _ id newRole _ m ha hm hid ho hrole =>
    refine ⟨⟨m, hm, hid, ?_⟩, .refl⟩
    rw [← hrole]
    exact hm
  | roleChanged _ id newRole _ actor m ha hm hid ho howner hadmin =>
    have hrow := updated_row (t := .memberships) (m.withRole newRole) hm rfl
    exact ⟨⟨m, hm, hid, hrow.1⟩, hid ▸ hrow.2⟩
  | removeMembership _ id _ actor m _ ha hm hid ho howner hws =>
    cases hasks
    subst hid
    have hmay := (may_removeMembership owner hdb ha hm ho).mpr
      fun h => hself ⟨_, _, _, rfl, m, hm, rfl, ho, h⟩
    obtain rfl := hws.membership_taken hm hmay
    refine ⟨fun r hr hrid => ?_, .of_writes fun w hw => ?_⟩
    · exact (Schema.mem_apply_delete.mp hr).2 hrid
    · obtain rfl := List.mem_singleton.mp hw
      rfl
  | deleteSecret secretId _ _ s time ha hs =>
    cases hasks
    obtain ⟨actor, hactor⟩ := ha
    have hacts : Acts (requestUow owner u o) db actor := hactor.acts
    have hin : InOrganization db actor.organizationId .secrets s := by
      rw [hactor.organization]
      exact hs.environment
    rw [if_pos (by simp [hacts.may_tenant (t := .secrets) (by decide) hin])]
    have hrow := updated_row (t := .secrets) (s.deletedFrom time) hs.mem rfl
    exact ⟨⟨s, hs.mem, time, hs.id, hrow.1⟩, hs.id ▸ hrow.2⟩
  | _ => cases hop

end

/-- In every state that service calls reach, a method that reports the change of one row
and runs as the application role for `u` in `o` has made exactly that change whenever it
returns, if and only if it is not an admin removing its own membership. -/
theorem success_means_effect_iff {n : ℕ} (d : Deployment) (calls : Fin n → ServiceCall)
    (W : VaultWorld n) (hb : Begins W) (as : Schedule n) (s : VaultSys n)
    (hr : (waiting d calls W).run vaultEngine as = some s) (owner : DbRole) (op : Op)
    (hop : op.changesOneRow = true) (o u : UUID) (minimum : MembershipRole)
    (hasks : op.asks = some (o, u, minimum)) (inputs : ℕ → Input) :
    (∀ reply, (alone inputs (op.program d (requestUow owner u o)) s.world.db).1 = .ok reply →
      op.Effected reply s.world.db
        (alone inputs (op.program d (requestUow owner u o)) s.world.db).2.db) ↔
      ¬ op.RemovesSelf s.world.db := by
  have hdb := hb.valid_run hr
  constructor
  · rintro heffect ⟨o', id, u', rfl, m, hm, rfl, rfl, rfl, hrole⟩
    cases hasks
    have hends : ((Op.removeMembership m.organizationId m.id m.userId).program d (requestUow owner
        m.userId m.organizationId)).Ends vaultEngine inputs [] s.world.db
          fun result so => result = .ok .unit ∧ so.db = s.world.db := by
      intro k
      have hself := removeSelf_ends owner inputs hdb hm hrole k
      revert hself
      simp only [Op.program, Prog.map_eq, Prog.exec_bind]
      cases (MembershipService.remove (requestUow owner m.userId m.organizationId) m.organizationId
        m.id m.userId).exec vaultEngine inputs ⟨k, [], s.world.db⟩ with
      | mk result so =>
        rintro ⟨rfl, hsame⟩
        exact ⟨rfl, hsame⟩
    obtain ⟨hok, hsame⟩ := hends 0
    have hgone := (heffect .unit hok).1
    rw [show (alone inputs _ s.world.db).2.db = s.world.db from hsame] at hgone
    exact hgone m hm rfl
  · intro hself reply hreply
    obtain ⟨ws, hdid, hview⟩ := Op.alone_did hdb (Op.asks_authenticates hasks) hreply
    rw [hview]
    exact hdid.effected hdb hop hasks hself

/-- Organization 10 with owner 1, admin 2 and viewer 3. -/
def staffDb : Db
  | .users =>
    [⟨1, "ana@example.com", some "h", none, true⟩, ⟨2, "bo@example.com", some "h", none, true⟩,
      ⟨3, "cy@example.com", some "h", none, true⟩]
  | .organizations => [⟨10, "acme", "acme"⟩]
  | .memberships =>
    [⟨11, 1, 10, .owner, none, 0⟩, ⟨12, 2, 10, .admin, none, 0⟩, ⟨13, 3, 10, .viewer, none, 0⟩]
  | _ => []

theorem begins_staff {n : ℕ} : Begins (⟨staffDb, [], samplePast 10⟩ : VaultWorld n) :=
  begins_sample (.of_checks mem_allTables (by decide) (by decide +kernel)) 10 (by decide)

/-- Admin 2 removes this membership. -/
def staffRemoves (id : UUID) : Except Exn Reply × Solo Db RowWrite :=
  alone (fun k => sampleInput (10 + k)) ((Op.removeMembership 10 id 2).program sampleDeployment
    (requestUow .superuser 2 10)) staffDb

theorem success_means_effect_iff_viewer : (staffRemoves 13).1 = .ok .unit ∧
    (Op.removeMembership 10 13 2).Effected .unit staffDb (staffRemoves 13).2.db := by
  have hself : ¬ (Op.removeMembership 10 13 2).RemovesSelf staffDb := by
    rintro ⟨o, id, u, hop, m, hm, hid, hmo, hmu, hrole⟩
    cases hop
    revert hid hmo hmu hrole
    revert m
    decide
  have heffect := (success_means_effect_iff (n := 0) sampleDeployment (fun i => i.elim0) _
    begins_staff [] _ rfl .superuser (.removeMembership 10 13 2) rfl 10 2 .admin rfl
    fun k => sampleInput (10 + k)).mpr hself
  exact ⟨rfl, heffect .unit rfl⟩

/-- The admin removes itself: the call returns, and the membership is still there. -/
theorem admin_removes_itself_in_vain :
    Begins (⟨staffDb, [], samplePast 10⟩ : VaultWorld 0) ∧ (staffRemoves 12).1 = .ok .unit ∧
      ¬ (Op.removeMembership 10 12 2).Effected .unit staffDb (staffRemoves 12).2.db := by
  refine ⟨begins_staff, rfl, fun h => ?_⟩
  have hmem : (⟨12, 2, 10, .admin, none, 0⟩ : Membership) ∈
      (staffRemoves 12).2.db .memberships := by decide +kernel
  exact h.1 _ hmem rfl

end EnvVault
