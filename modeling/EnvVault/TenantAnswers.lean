import EnvVault.TenantIntegrity

/-!
# What the answers show of an organization

A service ties what it returns to the organization of the request by lookups, one statement
after the other, while other requests commit. The keys and the settled columns it has met
on the way are those of the whole run, so what it shows is of this organization by every
state of the run, earlier or later.
-/
namespace EnvVault
open EnvVault.Relational EnvVault.Transactions

/-- What the body shows is, where the database has it, a row of the organization. -/
structure Body.ShowsOnly (o : UUID) (db : Db) (body : Body) : Prop where
  rows : ∀ t, ∀ r : RowOf t, ⟨t, r⟩ ∈ body.rows → ∀ r' ∈ db t, rowId t r' = rowId t r →
    InOrganization db o t r' ∧ settled t r' = settled t r
  revealed : ∀ id keyName value, body = .revealed id keyName value →
    ∀ secret ∈ db .secrets, secret.id = id →
      InOrganization db o .secrets secret ∧ secret.keyName = keyName

section
variable {R : RowRegistry} {o : UUID} {db : Db}

@[simp] theorem rowId_settled (t : Table) (r : RowOf t) : rowId t (settled t r) = rowId t r := by
  cases t <;> rfl

/-- A shown row in a valid database of tied rows. -/
theorem ShownIn.inOrganization (hdb : vaultSchema.Valid db) (hK : Stored (Tied R) db) {t : Table}
    {r r' : RowOf t} (hr : ShownIn (Tied R) o t r) (hr' : r' ∈ db t)
    (hid : rowId t r' = rowId t r) : InOrganization db o t r' ∧ settled t r' = settled t r := by
  obtain ⟨hkey, q, hq, hsame⟩ := hr
  have hqid : rowId t r' = rowId t q := by
    rw [hid, ← rowId_settled t r, ← hsame, rowId_settled]
  refine ⟨?_, ((hK t r' hr').settled_eq hq hqid).trans hsame⟩
  rw [inOrganization_iff hdb hK hr', hid]
  exact hkey

theorem Request.Shows.showsOnly (hdb : vaultSchema.Valid db) (hK : Stored (Tied R) db)
    {body : Body} (h : Request.Shows (Tied R) o body) : body.ShowsOnly o db where
  rows t r hr r' hr' hid := (h.rows t r hr).inOrganization hdb hK hr' hid
  revealed id keyName value hbody secret hsecret hid := by
    obtain ⟨q, hq, hqid, hname⟩ := h.revealed id keyName value hbody
    obtain ⟨hin, hsame⟩ := hq.inOrganization hdb hK hsecret (hid.trans hqid.symm)
    exact ⟨hin, ((congrArg Secret.keyName hsame :)).trans hname⟩

end

section
variable {n : ℕ} {server : Server} {users : Fin n → UUID} {requests : Fin n → Request}
  {W : VaultWorld n} {as bs : Schedule n} {s u : Sys n Input Db RowWrite Exn Response}
  {R : RowRegistry} {o : UUID}

/-- Whatever the other requests of a run do, the answer to a request on an organization
shows rows of this organization only, by every state of the run. -/
theorem answers_show_own_rows (hb : Begins W) (hpoint : PointersHome W.db)
    (hs : (handling server users requests W).run vaultEngine as = some s) {i : Fin n}
    {response : Response} (hanswered : answered s i = some response)
    (ho : (requests i).orgId = some o) (hbs : bs <+: as)
    (hu : (handling server users requests W).run vaultEngine bs = some u) :
    response.body.ShowsOnly o u.world.db := by
  obtain ⟨R, hR⟩ := hb.covered hs
  have hatt := attributed_tied hb.log hpoint hR hs
  have hattu := attributed_tied hb.log hpoint (fun cs v hcs hv => hR cs v (hcs.trans hbs) hv) hu
  have hprog := hatt.progs i
  rw [prog_of_answered hanswered] at hprog
  exact Request.Shows.showsOnly (hb.sound_handling hu).valid hattu.db (hprog o ho)

/-- The second organization is shown the environment that it has added. -/
theorem answers_show_own_rows_twoTenants :
    ∃ s response, (handling sampleServer tenantUsers tenantRequests ⟨twoTenantsDb, [],
        samplePast 12⟩).run vaultEngine (sampleSteps 12 (List.replicate 10 1 ++
          List.replicate 10 0)) = some s ∧
      answered s 1 = some response ∧ response.body.rows ≠ [] ∧
      response.body.ShowsOnly 20 s.world.db := by
  have hrun : ((handling sampleServer tenantUsers tenantRequests ⟨twoTenantsDb, [],
      samplePast 12⟩).run vaultEngine (sampleSteps 12 (List.replicate 10 1 ++
        List.replicate 10 0))).map (fun s => answered s 1) =
      some (some ⟨201, .reply (.environment ⟨32, 22, "prod"⟩)⟩) := by rfl
  obtain ⟨s, hs, hanswered⟩ := Option.map_eq_some_iff.mp hrun
  exact ⟨s, _, hs, hanswered, List.cons_ne_nil _ _,
    answers_show_own_rows begins_twoTenants (fun s hs => absurd hs List.not_mem_nil) hs
      hanswered rfl List.prefix_rfl hs⟩

end

end EnvVault
