import EnvVault.CallWrites

/-!
# Runs of service calls

Any number of service calls run against one database in any order of their
statements. The inputs they are given never repeat, the database they start from
satisfies its constraints, and so do all the databases they commit.
-/
namespace EnvVault
open EnvVault.Relational EnvVault.Transactions

abbrev VaultWorld (n : ℕ) : Type := World n Input Db RowWrite

abbrev VaultSys (n : ℕ) : Type := Sys n Input Db RowWrite Exn Reply

abbrev Schedule (n : ℕ) : Type := List (Action n Input Exn)

section
variable {n : ℕ} (d : Deployment) (calls : Fin n → ServiceCall)

/-- All calls waiting to begin. -/
def waiting (W : VaultWorld n) : VaultSys n := Sys.initial W fun i => (calls i).program d

end

/-- A world that runs begin in: a valid database, nothing committed yet, and keys
that no later input supplies again. -/
structure Begins {n : ℕ} (W : VaultWorld n) : Prop where
  valid : vaultSchema.Valid W.db
  log : W.log = []
  issued : ∀ t, ∀ r ∈ W.db t, Schema.Issued Input.ids W (rowId t r)

/-- The keys in use when a run begins. -/
def baseKeys (db : Db) (p : Table × UUID) : Prop := p.2 ∈ (db p.1).map (rowId p.1)

section
variable {n : ℕ} {d : Deployment} {calls : Fin n → ServiceCall} {W : VaultWorld n}
  {as : Schedule n} {s : VaultSys n}

theorem Begins.sound (hb : Begins W) (hr : (waiting d calls W).run vaultEngine as = some s) :
    vaultSchema.Sound Input.ids (baseKeys W.db) s :=
  (Schema.Sound.initial hb.valid hb.log hb.issued fun i => (calls i).lawful).run
    (fun _ _ => freshInput_ids) hr

/-- The database committed in any state of a run satisfies its constraints. -/
theorem Begins.valid_run (hb : Begins W)
    (hr : (waiting d calls W).run vaultEngine as = some s) : vaultSchema.Valid s.world.db :=
  (hb.sound hr).valid

/-- Every commit of a run is lawful. -/
theorem Begins.each_lawful (hb : Begins W) :
    (waiting d calls W).Each vaultEngine (fun t a => ∀ k ws, t.committing a = some (k, ws) →
      vaultSchema.LawfulCommit (baseKeys W.db) t.world ws) as :=
  fun _ _ _ _ hr _ _ hc => (hb.sound hr).committing hc

end

/-- The `k`-th input of a run on small numbers. -/
def sampleInput (k : ℕ) : Input :=
  ⟨2 * k, 2 * k + 1, k, ⟨List.replicate 11 0 ++ [UInt8.ofNat k], by simp⟩,
    ⟨List.replicate 32 0, rfl⟩, String.ofList (List.replicate k 'a')⟩

/-- An AEAD that only appends its tag. -/
def sampleAesgcm : Aesgcm where
  encrypt _ _ plain := plain ++ List.replicate 16 0
  decrypt _ _ cipher := if cipher.length < 16 then none else some (cipher.take (cipher.length - 16))
  decrypt_encrypt _ _ plain := by simp
  length_encrypt _ _ plain := by simp

def sampleDeployment : Deployment where
  security := ⟨fun p => p, fun p h => p == h, fun raw => raw, fun _ _ => "access", 100⟩
  kms := ⟨sampleAesgcm, List.replicate 32 0⟩

/-- A session of the application role for a user in an organization. -/
def sampleUow (userId orgId : UUID) : UnitOfWork :=
  ⟨some userId, some orgId, .envvaultApp, .superuser⟩

/-- The inputs that supplied the keys below `2 * m`. -/
def samplePast : ℕ → List Input := consumed sampleInput

/-- A schedule by the order of the callers, after `m` inputs. -/
def sampleSteps {n : ℕ} (m : ℕ) (order : List (Fin n)) : Schedule n :=
  order.zipIdx.map fun p => .run p.1 (sampleInput (m + p.2))

theorem mem_samplePast {m k : ℕ} (h : k < m) : sampleInput k ∈ samplePast m := mem_consumed h

theorem issued_sample {m x : ℕ} (h : x < 2 * m) : ∃ inp ∈ samplePast m, x ∈ inp.ids := by
  refine ⟨_, mem_samplePast (by omega : x / 2 < m), ?_⟩
  have hx : x = 2 * (x / 2) ∨ x = 2 * (x / 2) + 1 := by omega
  simpa [sampleInput, Input.ids] using hx

/-- A valid database whose keys are below `2 * m` begins a run. -/
theorem begins_sample {n : ℕ} {db : Db} (hv : vaultSchema.Valid db) (m : ℕ)
    (hids : ∀ t ∈ allTables, (db t).all (fun r => rowId t r < 2 * m) = true) :
    Begins (⟨db, [], samplePast m⟩ : VaultWorld n) where
  valid := hv
  log := rfl
  issued t r hr := by
    have hlt : rowId t r < 2 * m := by
      simpa using List.all_eq_true.mp (hids t (mem_allTables t)) r hr
    exact issued_sample hlt

end EnvVault
