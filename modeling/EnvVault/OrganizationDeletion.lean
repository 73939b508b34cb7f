import EnvVault.ContainerDeletion

/-!
# Deleting an organization with a history

`audit_logs.organization_id` is SET NULL when its organization goes, and that is an
UPDATE of the audit rows, which their trigger rejects.
-/
namespace EnvVault
open EnvVault.Relational EnvVault.Transactions

/-- The two rows record the same. -/
def AuditLog.SameRecord (a a' : AuditLog) : Prop :=
  a'.id = a.id ∧ a'.action = a.action ∧ a'.userId = a.userId ∧
    a'.resourceType = a.resourceType ∧ a'.resourceId = a.resourceId ∧ a'.metadata = a.metadata

/-- The method returns, the organization and its memberships are gone, and what was
recorded for it is still there. -/
structure DeletesKeepingAudit (o : UUID) (inputs : ℕ → Input) (uow : UnitOfWork)
    (actorUserId : UUID) (db : Db) : Prop where
  returns : (alone inputs (OrganizationService.delete uow o actorUserId) db).1 = .ok ()
  organizations : ∀ org ∈ (alone inputs (OrganizationService.delete uow o actorUserId) db).2.db
    .organizations, org.id ≠ o
  memberships : ∀ m ∈ (alone inputs (OrganizationService.delete uow o actorUserId) db).2.db
    .memberships, m.organizationId ≠ o
  audit : ∀ a ∈ db .auditLogs, a.organizationId = some o →
    ∃ a' ∈ (alone inputs (OrganizationService.delete uow o actorUserId) db).2.db .auditLogs,
      a.SameRecord a'

/-- In every state that service calls reach, an owner deletes the organization exactly
when nothing was ever recorded for it and no secret, not even a deleted one, is below
it. -/
theorem organization_deletable_iff {n : ℕ} (d : Deployment) (calls : Fin n → ServiceCall)
    (W : VaultWorld n) (ho : Opens W) (as : Schedule n) (s : VaultSys n)
    (hr : (waiting d calls W).run vaultEngine as = some s) (uow : UnitOfWork) (m : Membership)
    (hacts : Acts uow s.world.db m) (hrole : m.role = .owner) (inputs : ℕ → Input) :
    DeletesKeepingAudit m.organizationId inputs uow m.userId s.world.db ↔
      (∀ a ∈ s.world.db .auditLogs, a.organizationId ≠ some m.organizationId) ∧
        ¬ (Container.organization m.organizationId).HasSecret s.world.db := by
  have hi := ho.vaultInv hr
  have hmin : roleRank (Container.organization m.organizationId).minimumRole ≤ roleRank m.role := by
    rw [hrole]
    exact le_rfl
  have hx : (Container.organization m.organizationId).Exists s.world.db :=
    Container.exists_of_belongsTo hi.valid hacts.mem (c := .organization m.organizationId) rfl
  have hrefused (e : ReferentialError Table)
      (he : vaultSchema.deleteRow .organizations m.organizationId s.world.db = .error e) :
      ¬ DeletesKeepingAudit m.organizationId inputs uow m.userId s.world.db := by
    intro hdel
    have herr := (Container.deletion_refused (c := .organization m.organizationId) hi.valid hacts
      hmin rfl inputs he).1
    have hok := hdel.returns
    rw [show alone inputs (OrganizationService.delete uow m.organizationId m.userId) s.world.db =
      alone inputs ((Container.organization m.organizationId).deletion uow m.organizationId
        m.userId) s.world.db from rfl, herr] at hok
    cases hok
  have haudit : (Container.organization m.organizationId).HasAudit s.world.db ↔
      ∃ a ∈ s.world.db .auditLogs, a.organizationId = some m.organizationId := by
    constructor
    · rintro ⟨a, ha, o, heq, hao⟩
      obtain rfl := Container.organization.inj heq
      exact ⟨a, ha, hao⟩
    · exact fun ⟨a, ha, hao⟩ => ⟨a, ha, _, rfl, hao⟩
  rw [← hi.hasVersion_iff]
  constructor
  · intro hdel
    by_contra hcond
    by_cases ha : ∃ a ∈ s.world.db .auditLogs, a.organizationId = some m.organizationId
    · exact hrefused _ (Container.deleteRow_rejected hi.valid hx ha) hdel
    · refine hrefused _ (Container.deleteRow_violated hi.valid hi.keysOwn hx ?_
        (haudit.not.mpr ha)) hdel
      by_contra hversion
      exact hcond ⟨fun a ham hao => ha ⟨a, ham, hao⟩, hversion⟩
  · rintro ⟨ha, hversion⟩
    have hnone : ¬ (Container.organization m.organizationId).HasAudit s.world.db :=
      haudit.not.mpr fun ⟨a, ham, hao⟩ => ha a ham hao
    obtain ⟨hok, hrows⟩ := Container.deletion_ok (c := .organization m.organizationId) hi.valid
      hacts hmin rfl inputs hi.keysOwn hversion hnone
    refine ⟨hok, fun org horg hid => ?_, fun m' hm' hid => ?_,
      fun a ham hao => absurd hao (ha a ham)⟩
    · exact ((hrows .organizations org).mp horg).2 (congrArg Container.organization hid.symm)
    · exact ((hrows .memberships m').mp hm').2 (congrArg Container.organization hid.symm)

theorem organization_deletable_iff_acme : ∃ s, (waiting sampleDeployment acmeCalls
    ⟨acmeDb, [], samplePast 10⟩).run vaultEngine (sampleSteps 10 (List.replicate 9 0)) = some s ∧
      DeletesKeepingAudit 10 (fun k => sampleInput (19 + k)) (sampleUow 1 10) 1 s.world.db := by
  have hrun : ((waiting sampleDeployment acmeCalls ⟨acmeDb, [], samplePast 10⟩).run vaultEngine
      (sampleSteps 10 (List.replicate 9 0))).map (fun s => (s.world.db .memberships,
        s.world.db .secrets, s.world.db .auditLogs)) =
      some ([⟨11, 1, 10, .owner, none, 0⟩], [], []) := by rfl
  obtain ⟨s, hs, hfacts⟩ := Option.map_eq_some_iff.mp hrun
  simp only [Prod.mk.injEq] at hfacts
  obtain ⟨hm, hsecrets, haudit⟩ := hfacts
  refine ⟨s, hs, (organization_deletable_iff sampleDeployment acmeCalls _ opens_acme _ s hs
    (sampleUow 1 10) ⟨11, 1, 10, .owner, none, 0⟩ ⟨by simp [hm], Or.inr ⟨rfl, rfl⟩⟩ rfl _).mpr ?_⟩
  exact ⟨by simp [haudit], by simp [Container.HasSecret, hsecrets]⟩

/-- After one reveal the owner can no longer delete the organization: the trigger of the
audit log raises. -/
theorem revealed_organization_stays : ∃ s, (waiting sampleDeployment acmeCalls
    ⟨acmeDb, [], samplePast 10⟩).run vaultEngine acmeSteps = some s ∧
      Opens (⟨acmeDb, [], samplePast 10⟩ : VaultWorld 4) ∧
      Acts (sampleUow 1 10) s.world.db ⟨11, 1, 10, .owner, none, 0⟩ ∧
      (alone (fun k => sampleInput (55 + k)) (OrganizationService.delete (sampleUow 1 10) 10 1)
        s.world.db).1 = .error auditLogMutation ∧
      ¬ DeletesKeepingAudit 10 (fun k => sampleInput (55 + k)) (sampleUow 1 10) 1 s.world.db := by
  have hrun : ((waiting sampleDeployment acmeCalls ⟨acmeDb, [], samplePast 10⟩).run vaultEngine
      acmeSteps).map (fun s => (s.world.db .memberships, (alone (fun k => sampleInput (55 + k))
        (OrganizationService.delete (sampleUow 1 10) 10 1) s.world.db).1)) =
      some ([⟨11, 1, 10, .owner, none, 0⟩], .error auditLogMutation) := by rfl
  obtain ⟨s, hs, hfacts⟩ := Option.map_eq_some_iff.mp hrun
  simp only [Prod.mk.injEq] at hfacts
  obtain ⟨hm, herr⟩ := hfacts
  refine ⟨s, hs, opens_acme, ⟨by simp [hm], Or.inr ⟨rfl, rfl⟩⟩, herr, fun hdel => ?_⟩
  have hok := hdel.returns
  rw [herr] at hok
  cases hok

end EnvVault
