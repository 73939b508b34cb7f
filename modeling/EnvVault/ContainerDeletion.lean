import EnvVault.SerialCalls
import EnvVault.VersionChain

/-!
# Deleting environments, projects and organizations

The methods that delete a container, run alone by a member with the role they ask
for. They come down to the DELETE of one row, and whether that succeeds is decided
by what is below the container.
-/
namespace EnvVault
open EnvVault.Relational EnvVault.Transactions

namespace Container

/-- The method that deletes the container. -/
def deletion (uow : UnitOfWork) (organizationId actorUserId : UUID) : Container → Tx Unit
  | environment id => EnvironmentService.delete uow id organizationId actorUserId
  | project id => ProjectService.delete uow id organizationId actorUserId
  | organization id => OrganizationService.delete uow id actorUserId

def minimumRole : Container → MembershipRole
  | environment _ => .member
  | project _ => .member
  | organization _ => .owner

/-- The container is there, in this organization or as it. -/
def BelongsTo (db : Db) (o : UUID) : Container → Prop
  | environment id => EnvironmentIn db o id
  | project id => ProjectIn db o id
  | organization id => id = o

/-- Some secret below the container, deleted or not. -/
def HasSecret (c : Container) (db : Db) : Prop :=
  ∃ s ∈ db .secrets, c.HasEnvironment db s.environmentId

/-- The method returns, and exactly the container and what is below it are gone. -/
def DeletesSubtree (c : Container) (inputs : ℕ → Input) (uow : UnitOfWork)
    (organizationId actorUserId : UUID) (db : Db) : Prop :=
  (alone inputs (c.deletion uow organizationId actorUserId) db).1 = .ok () ∧
    ∀ t, ∀ r, r ∈ (alone inputs (c.deletion uow organizationId actorUserId) db).2.db t ↔
      r ∈ db t ∧ ¬ c.Subtree db t r

section
variable {c : Container} {uow : UnitOfWork} {db : Db} {m : Membership}

theorem exists_of_belongsTo (hdb : vaultSchema.Valid db) (hm : m ∈ db .memberships)
    (hc : c.BelongsTo db m.organizationId) : c.Exists db := by
  cases c with
  | environment id =>
    obtain ⟨e, he, hid, -⟩ := hc
    exact ⟨e, he, hid⟩
  | project id =>
    obtain ⟨p, hp, hid, -⟩ := hc
    exact ⟨p, hp, hid⟩
  | organization id =>
    obtain rfl : id = m.organizationId := hc
    exact parent_exists hdb hm (by simp [referencesOf] :
      (.organizations, some m.organizationId) ∈ referencesOf .memberships m)

variable (hdb : vaultSchema.Valid db) (hacts : Acts uow db m)
  (hrole : roleRank c.minimumRole ≤ roleRank m.role) (hc : c.BelongsTo db m.organizationId)
include hdb hacts hrole hc

/-- The session sees the row of the container and may delete it. -/
theorem may_delete : ∃ r ∈ db c.table, rowId c.table r = c.id ∧
    uow.may db .select c.table r = true ∧ uow.may db .delete c.table r = true := by
  cases c with
  | environment id =>
    obtain ⟨e, he, hid, hp⟩ := hc
    exact ⟨e, he, hid, hacts.may_tenant (t := .environments) (by decide) hp,
      hacts.may_tenant (t := .environments) (by decide) hp⟩
  | project id =>
    obtain ⟨p, hp, hid, ho⟩ := hc
    exact ⟨p, hp, hid, hacts.may_tenant (t := .projects) (by decide) ho,
      hacts.may_tenant (t := .projects) (by decide) ho⟩
  | organization id =>
    obtain ⟨o, ho, hid⟩ := exists_of_belongsTo hdb hacts.mem hc
    have howner : m.role = .owner := by
      cases hm : m.role <;> simp [hm, roleRank, minimumRole] at hrole
      rfl
    have hom : o.id = m.organizationId := Eq.trans hid hc
    exact ⟨o, ho, hid, hacts.may_organization hom, hacts.may_deleteOrganization howner hom⟩

/-- The checks of the method pass, and it comes down to the DELETE and its COMMIT. -/
theorem ends_deletion {inputs : ℕ → Input} {post : Except Exn Unit → Solo Db RowWrite → Prop}
    (h : ((uow.delete c.table c.id).bind fun _ => UnitOfWork.commit).Ends vaultEngine inputs [] db
      post) :
    (c.deletion uow m.organizationId m.userId).Ends vaultEngine inputs [] db post := by
  cases c with
  | environment id =>
    obtain ⟨e, he, rfl, hp⟩ := hc
    exact (hacts.answers_requireOrgRole hdb hrole).ends
      ((hacts.answers_requireOrgRoleAgain hdb (Nat.zero_le _)).ends
        ((hacts.answers_getEnvironment hdb he hp).ends h))
  | project id =>
    obtain ⟨p, hp, rfl, ho⟩ := hc
    exact (hacts.answers_requireOrgRole hdb hrole).ends
      ((hacts.answers_requireOrgRoleAgain hdb (Nat.zero_le _)).ends
        ((hacts.answers_getProject hdb hp ho).ends h))
  | organization id =>
    obtain ⟨o, ho, hid, hsel, -⟩ := may_delete hdb hacts hrole hc
    obtain rfl : id = m.organizationId := hc
    have hget : (OrganizationService.get uow m.organizationId).Answers vaultEngine inputs [] db o :=
      (answers_get (t := .organizations) hdb ho hsel hid).bind Prog.answers_ret
    refine (hacts.answers_requireOrgRole hdb hrole).ends (hget.ends ?_)
    rw [show o.id = m.organizationId from hid]
    exact h

/-- Where the DELETE succeeds the method commits what it takes along. -/
theorem ends_deletion_ok (inputs : ℕ → Input) {ws : List RowWrite}
    (hws : vaultSchema.deleteRow c.table c.id db = .ok ws) :
    (c.deletion uow m.organizationId m.userId).Ends vaultEngine inputs [] db
      fun result so => result = .ok () ∧ so.db = vaultSchema.view ws db :=
  ends_deletion hdb hacts hrole hc
    (ends_delete_bind (may_delete hdb hacts hrole hc) hws (ends_commit fun _ => ⟨rfl, rfl⟩))

/-- The deletion of a container with nothing encrypted below it and no audit row. -/
theorem deletion_ok (inputs : ℕ → Input) (hown : KeysOwn db) (hno : ¬ c.HasVersion db)
    (ha : ¬ c.HasAudit db) :
    c.DeletesSubtree inputs uow m.organizationId m.userId db := by
  obtain ⟨ws, hws, hrem⟩ :=
    deleteRow_ok hdb hown (exists_of_belongsTo hdb hacts.mem hc) hno ha
  obtain ⟨hok, hview⟩ := ends_deletion_ok hdb hacts hrole hc inputs hws 0
  refine ⟨hok, fun t r => ?_⟩
  rw [show (alone inputs (c.deletion uow m.organizationId m.userId) db).2.db =
    vaultSchema.view ws db from hview]
  exact hrem.mem_view hdb.keys

/-- Where the DELETE fails the method raises and nothing changes. -/
theorem ends_deletion_refused (inputs : ℕ → Input) {e : ReferentialError Table}
    (he : vaultSchema.deleteRow c.table c.id db = .error e) :
    (c.deletion uow m.organizationId m.userId).Ends vaultEngine inputs [] db
      fun result so => result = .error (referentialExn e) ∧ so.db = db :=
  ends_deletion hdb hacts hrole hc
    ((refuses_delete (may_delete hdb hacts hrole hc) he).bind.ends fun _ => ⟨rfl, rfl⟩)

theorem deletion_refused (inputs : ℕ → Input) {e : ReferentialError Table}
    (he : vaultSchema.deleteRow c.table c.id db = .error e) :
    (alone inputs (c.deletion uow m.organizationId m.userId) db).1 = .error (referentialExn e) ∧
      (alone inputs (c.deletion uow m.organizationId m.userId) db).2.db = db :=
  ends_deletion_refused hdb hacts hrole hc inputs he 0

end

end Container

section
variable {n : ℕ} {d : Deployment} {calls : Fin n → ServiceCall} {base : Table × UUID → Prop}
  {W : VaultWorld n}

/-- In a reached database there is a version below a container exactly when there is a
secret. -/
theorem VaultInv.hasVersion_iff (h : VaultInv d calls base W) (c : Container) :
    c.HasVersion W.db ↔ c.HasSecret W.db := by
  constructor
  · rintro ⟨-, -, s, hs, -, henv⟩
    exact ⟨s, hs, henv⟩
  · rintro ⟨s, hs, henv⟩
    obtain ⟨v, -, hv, -⟩ := h.current s hs
    exact ⟨v, hv.mem, s, hs, hv.secret.symm, henv⟩

end

/-- In every state that service calls reach, a member deletes an environment or a
project of its organization exactly when no secret, not even a deleted one, is below
it. -/
theorem containers_deletable_iff {n : ℕ} (d : Deployment) (calls : Fin n → ServiceCall)
    (W : VaultWorld n) (ho : Opens W) (as : Schedule n) (s : VaultSys n)
    (hr : (waiting d calls W).run vaultEngine as = some s) (uow : UnitOfWork) (m : Membership)
    (hacts : Acts uow s.world.db m) (hrole : roleRank .member ≤ roleRank m.role) (c : Container)
    (hkind : c.table = .environments ∨ c.table = .projects)
    (hc : c.BelongsTo s.world.db m.organizationId) (inputs : ℕ → Input) :
    c.DeletesSubtree inputs uow m.organizationId m.userId s.world.db ↔
      ¬ c.HasSecret s.world.db := by
  have hi := ho.vaultInv hr
  have hnorg : ∀ o, c ≠ .organization o := by
    rintro o rfl
    simp [Container.table] at hkind
  have hmin : roleRank c.minimumRole ≤ roleRank m.role := by
    cases c with
    | organization o => exact absurd rfl (hnorg o)
    | _ => exact hrole
  have ha : ¬ c.HasAudit s.world.db := by
    rintro ⟨_, _, o, heq, _⟩
    exact hnorg o heq
  rw [← hi.hasVersion_iff c]
  constructor
  · rintro ⟨hok, -⟩ hversion
    have hviolated := Container.deleteRow_violated hi.valid hi.keysOwn
      (Container.exists_of_belongsTo hi.valid hacts.mem hc) hversion ha
    have hrefused := (Container.deletion_refused hi.valid hacts hmin hc inputs hviolated).1
    rw [hok] at hrefused
    cases hrefused
  · exact fun hno => Container.deletion_ok hi.valid hacts hmin hc inputs hi.keysOwn hno ha

theorem containers_deletable_iff_emptyEnvironment : ∃ s, (waiting sampleDeployment acmeCalls
    ⟨acmeDb, [], samplePast 10⟩).run vaultEngine (sampleSteps 10 (List.replicate 9 0)) = some s ∧
      (Container.environment 26).DeletesSubtree (fun k => sampleInput (19 + k)) (sampleUow 1 10) 10
        1 s.world.db := by
  have hrun : ((waiting sampleDeployment acmeCalls ⟨acmeDb, [], samplePast 10⟩).run vaultEngine
      (sampleSteps 10 (List.replicate 9 0))).map (fun s => (s.world.db .memberships,
        s.world.db .projects, s.world.db .environments, s.world.db .secrets)) =
      some ([⟨11, 1, 10, .owner, none, 0⟩], [⟨12, 10, "billing", "billing", none, some 1⟩],
        [⟨26, 12, "prod"⟩], []) := by rfl
  obtain ⟨s, hs, hfacts⟩ := Option.map_eq_some_iff.mp hrun
  simp only [Prod.mk.injEq] at hfacts
  obtain ⟨hm, hp, he, hsecrets⟩ := hfacts
  refine ⟨s, hs, (containers_deletable_iff sampleDeployment acmeCalls _ opens_acme _ s hs
    (sampleUow 1 10) ⟨11, 1, 10, .owner, none, 0⟩ ⟨by simp [hm], Or.inr ⟨rfl, rfl⟩⟩ (by decide)
    (.environment 26) (Or.inl rfl) ?_ _).mpr ?_⟩
  · simp [Container.BelongsTo, EnvironmentIn, ProjectIn, he, hp]
  · simp [Container.HasSecret, hsecrets]

/-- Once it holds a secret, neither the environment nor the project can be deleted, even
by the owner. -/
theorem container_with_secret_stays : ∃ s, (waiting sampleDeployment acmeCalls
    ⟨acmeDb, [], samplePast 10⟩).run vaultEngine
      (sampleSteps 10 (List.replicate 9 0 ++ List.replicate 13 1)) = some s ∧
      Opens (⟨acmeDb, [], samplePast 10⟩ : VaultWorld 4) ∧
      Acts (sampleUow 1 10) s.world.db ⟨11, 1, 10, .owner, none, 0⟩ ∧
      (Container.environment 26).BelongsTo s.world.db 10 ∧
      (Container.project 12).BelongsTo s.world.db 10 ∧
      ¬ (Container.environment 26).DeletesSubtree (fun k => sampleInput (32 + k)) (sampleUow 1 10)
        10 1 s.world.db ∧
      ¬ (Container.project 12).DeletesSubtree (fun k => sampleInput (32 + k)) (sampleUow 1 10) 10 1
        s.world.db := by
  have hrun : ((waiting sampleDeployment acmeCalls ⟨acmeDb, [], samplePast 10⟩).run vaultEngine
      (sampleSteps 10 (List.replicate 9 0 ++ List.replicate 13 1))).map (fun s =>
        (s.world.db .memberships, s.world.db .projects, s.world.db .environments,
        (alone (fun k => sampleInput (32 + k)) ((Container.environment 26).deletion
          (sampleUow 1 10) 10 1) s.world.db).1,
        (alone (fun k => sampleInput (32 + k)) ((Container.project 12).deletion
          (sampleUow 1 10) 10 1) s.world.db).1)) =
      some ([⟨11, 1, 10, .owner, none, 0⟩], [⟨12, 10, "billing", "billing", none, some 1⟩],
        [⟨26, 12, "prod"⟩], .error (integrityViolation .secretVersions),
        .error (integrityViolation .secretVersions)) := by rfl
  obtain ⟨s, hs, hfacts⟩ := Option.map_eq_some_iff.mp hrun
  simp only [Prod.mk.injEq] at hfacts
  obtain ⟨hm, hp, he, henv, hproject⟩ := hfacts
  refine ⟨s, hs, opens_acme, ⟨by simp [hm], Or.inr ⟨rfl, rfl⟩⟩, ?_, ?_, ?_, ?_⟩
  · simp [Container.BelongsTo, EnvironmentIn, ProjectIn, he, hp]
  · simp [Container.BelongsTo, ProjectIn, hp]
  · rintro ⟨hok, -⟩
    rw [henv] at hok
    cases hok
  · rintro ⟨hok, -⟩
    rw [hproject] at hok
    cases hok

end EnvVault
