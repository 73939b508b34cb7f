import EnvVault.SerialCalls
import EnvVault.VersionChain

/-!
# A reveal returns what was stored

Under every interleaving a value that is revealed was stored in the secret by a
committed call, as its current version at some moment of the reveal. Alone, a
member gets the value that was stored last.
-/
namespace EnvVault
open EnvVault.Relational EnvVault.Transactions

section
variable {n : ℕ} {d : Deployment} {calls : Fin n → ServiceCall} {base : Table × UUID → Prop}
  {W : VaultWorld n} {uow : UnitOfWork} {m : Membership} {inputs : ℕ → Input}

/-- The audit entry of a reveal passes the constraints. -/
theorem admitsInsert_auditLog {db : Db} (hdb : vaultSchema.Valid db) (hm : m ∈ db .memberships)
    {a : AuditLog} (hid : ∀ r ∈ db .auditLogs, r.id ≠ a.id)
    (ho : a.organizationId = some m.organizationId) (hu : a.userId = some m.userId) :
    vaultSchema.admitsInsert .auditLogs a db = true := by
  refine Schema.admitsInsert_iff.mpr ⟨hid, Schema.uniqueAmong_iff.mpr ?_,
    vaultSchema_referencesHold.mpr ?_⟩
  · intro x _ _ u hu
    simp [vaultSchema, uniqueOf] at hu
  · have horg := parent_exists hdb hm (by simp [referencesOf] :
      (.organizations, some m.organizationId) ∈ referencesOf .memberships m)
    have huser := parent_exists hdb hm (by simp [referencesOf] :
      (.users, some m.userId) ∈ referencesOf .memberships m)
    simpa [referencesOf, ho, hu] using ⟨horg, huser⟩

/-- Alone, a member reveals the value that was stored last in a live secret, and an audit
entry is committed. -/
theorem VaultInv.ends_getDecryptedValue (h : VaultInv d calls base W) (hacts : Acts uow W.db m)
    (hrole : roleRank .member ≤ roleRank m.role) {secret : Secret} (hs : secret ∈ W.db .secrets)
    (hlive : secret.isDeleted = false)
    (he : EnvironmentIn W.db m.organizationId secret.environmentId)
    (hfresh : ∀ k, ∀ a ∈ W.db .auditLogs, a.id ≠ (inputs k).uuid) :
    ∃ versionId plainValue,
      (stores calls W.log secret.id).getLast? = some (versionId, plainValue) ∧
      (SecretService.getDecryptedValue d.kms uow secret.id m.organizationId m.userId).Ends
        vaultEngine inputs [] W.db fun result so => result = .ok plainValue ∧ so.pending = [] ∧
          ∃ a, vaultSchema.admitsInsert .auditLogs a W.db = true ∧
            so.db = vaultSchema.view [.insert .auditLogs a] W.db := by
  obtain ⟨v, plainValue, hv, hplain, hlast⟩ := h.current secret hs
  obtain ⟨key, hkey, hid, henv⟩ := h.keysOwn v hv.mem secret hs hv.secret.symm
  refine ⟨v.id, plainValue, hlast, ?_⟩
  refine (hacts.answers_requireOrgRole h.valid hrole).ends ?_
  refine (hacts.answers_getOwnedSecret h.valid hs hlive he).ends ?_
  rw [hv.pointer]
  have hversion : uow.may W.db .select .secretVersions v = true :=
    hacts.may_tenant (by decide) ⟨secret, hs, hv.secret.symm, he⟩
  refine (answers_get (t := .secretVersions) h.valid hv.mem hversion rfl).ends ?_
  have hkeyIn : uow.may W.db .select .encryptionKeys key = true :=
    hacts.may_tenant (by decide) (by rwa [InOrganization, henv])
  refine (answers_get (t := .encryptionKeys) h.valid hkey hkeyIn hid).ends ?_
  refine (answers_liftCrypto (hplain key hkey hid)).ends ?_
  simp only [SecretService.recordReveal, Prog.bind_eq, Prog.bind_assoc, Prog.pure_eq,
    Prog.ret_bind]
  refine hacts.ends_insertFlushed_bind (v := W.db) rfl (by decide) fun j => ?_
  have hadm := admitsInsert_auditLog h.valid hacts.mem (a := ⟨(inputs j).uuid,
    some m.organizationId, some m.userId, .reveal, .secret, some secret.id,
    some [("key_name", secret.keyName), ("version_id", toString v.id)], (inputs j).now⟩)
    (hfresh j) rfl rfl
  exact ⟨rfl, hadm, ends_commit_ret fun _ => ⟨rfl, rfl, _, hadm, rfl⟩⟩

end

/-- In any run of service calls, a reveal that has returned a value has seen the
secret live with a current version that a committed call stored with this value. And
a member who reveals a live secret with nobody in between gets the value that was
stored last. -/
theorem reveal_returns_stored {n : ℕ} (d : Deployment) (calls : Fin n → ServiceCall)
    (W : VaultWorld n) (ho : Opens W) (as : Schedule n) (s : VaultSys n)
    (hr : (waiting d calls W).run vaultEngine as = some s) :
    (∀ i secretId org actor plainValue, (calls i).op = .getDecryptedValue secretId org actor →
      (s.call i).prog = .ret (.value plainValue) →
        Revealed calls s.world.log (s.call i).seen secretId plainValue) ∧
    ∀ uow m secret inputs, Acts uow s.world.db m → roleRank .member ≤ roleRank m.role →
      secret ∈ s.world.db .secrets → secret.isDeleted = false →
      EnvironmentIn s.world.db m.organizationId secret.environmentId →
      FreshStream vaultEngine inputs s.world.past →
      ∃ versionId plainValue,
        (stores calls s.world.log secret.id).getLast? = some (versionId, plainValue) ∧
        (alone inputs (SecretService.getDecryptedValue d.kms uow secret.id m.organizationId
          m.userId) s.world.db).1 = .ok plainValue := by
  have hok := ho.ok hr
  constructor
  · intro i secretId org actor plainValue hop hret
    exact (hok.call i).ret secret_meets hok.inv hret secretId org actor plainValue hop rfl
  · intro uow m secret inputs hacts hrole hs hlive he hf
    obtain ⟨versionId, plainValue, hlast, hends⟩ := hok.inv.ends_getDecryptedValue hacts hrole hs
      hlive he fun k => ho.uuid_unused hr hf k .auditLogs
    exact ⟨versionId, plainValue, hlast, (hends 0).1⟩

/-- What a finished reveal has returned. -/
def returnedValue {n : ℕ} (s : VaultSys n) (i : Fin n) : Option String :=
  match (s.call i).prog with
  | .ret (.value plainValue) => some plainValue
  | _ => none

theorem prog_of_returnedValue {n : ℕ} {s : VaultSys n} {i : Fin n} {plainValue : String}
    (h : returnedValue s i = some plainValue) : (s.call i).prog = .ret (.value plainValue) := by
  unfold returnedValue at h
  split at h
  · rename_i hp
    exact Option.some.inj h ▸ hp
  · cases h

theorem reveal_returns_stored_acme : ∃ s, (waiting sampleDeployment acmeCalls
    ⟨acmeDb, [], samplePast 10⟩).run vaultEngine acmeSteps = some s ∧
      Revealed acmeCalls s.world.log (s.call 3).seen 50 "two" ∧
      (alone (fun k => sampleInput (55 + k)) (SecretService.getDecryptedValue sampleDeployment.kms
        (sampleUow 1 10) 50 10 1) s.world.db).1 = .ok "two" := by
  have hrun : ((waiting sampleDeployment acmeCalls ⟨acmeDb, [], samplePast 10⟩).run vaultEngine
      acmeSteps).map (fun s => (returnedValue s 3, s.world.db .memberships, s.world.db .projects,
        s.world.db .environments, s.world.db .secrets, stores acmeCalls s.world.log 50,
        s.world.past.all fun p => p.ids.all fun x => decide (x < 2 * 55))) =
      some (some "two", [⟨11, 1, 10, .owner, none, 0⟩],
        [⟨12, 10, "billing", "billing", none, some 1⟩], [⟨26, 12, "prod"⟩],
        [⟨50, 26, "KEY", some 78, false, none⟩], [(52, "one"), (78, "two")], true) := by rfl
  obtain ⟨s, hs, hfacts⟩ := Option.map_eq_some_iff.mp hrun
  simp only [Prod.mk.injEq] at hfacts
  obtain ⟨hvalue, hm, hp, he, hsecrets, hstores, hpast⟩ := hfacts
  have htheorem := reveal_returns_stored sampleDeployment acmeCalls _ opens_acme acmeSteps s hs
  refine ⟨s, hs, htheorem.1 3 50 10 1 "two" rfl (prog_of_returnedValue hvalue), ?_⟩
  obtain ⟨versionId, plainValue, hlast, hvalue⟩ := htheorem.2 (sampleUow 1 10)
    ⟨11, 1, 10, .owner, none, 0⟩ ⟨50, 26, "KEY", some 78, false, none⟩
    (fun k => sampleInput (55 + k)) ⟨by simp [hm], Or.inr ⟨rfl, rfl⟩⟩ (by decide)
    (by simp [hsecrets]) rfl (by simp [EnvironmentIn, ProjectIn, he, hp])
    (freshStream_sample hpast)
  simp only [hstores, List.getLast?_cons_cons, List.getLast?_singleton, Option.some.injEq,
    Prod.mk.injEq] at hlast
  rw [hvalue, hlast.2]

end EnvVault
