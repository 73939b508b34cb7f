import EnvVault.OperationWrites
import EnvVault.RequestRefinement

/-!
# Columns that no request changes

Which columns of a row are settled when it is inserted. The rest are the columns that some
operation updates, and the references that SET NULL clears. A key that has named a row
names no other one, so for as long as the server runs it stands for the same settled
columns: a secret keeps its name and its environment, a version its ciphertext, a refresh
token its user and its expiry, and nothing moves to another organization.
-/
namespace EnvVault
open EnvVault.Relational EnvVault.Transactions

/-- The settled columns of the keys. -/
abbrev RowRegistry : Type := Registry RowOf UUID

/-- The row is as registered. -/
abbrev AsRegistered (R : RowRegistry) : RowPred := R.Fits vaultSchema settled

section
variable {R : RowRegistry}

/-- SET NULL clears only columns that are not settled. -/
theorem registered_clearable : (AsRegistered R).Clearable vaultSchema := by
  intro fk hfk hupdates clear hclear r hr
  simp only [vaultSchema, foreignKeyList, List.mem_cons, List.not_mem_nil, or_false] at hfk
  rcases hfk with rfl | rfl | rfl | rfl | rfl | rfl | rfl | rfl | rfl | rfl | rfl | rfl | rfl |
    rfl | rfl | rfl | rfl <;> cases hclear <;> first | exact hr | cases hupdates

/-- On registered rows an operation stores updates that are as registered. -/
theorem Op.MayWrite.keeps {d : Deployment} {op : Op} {w : RowWrite}
    (hw : op.MayWrite d (AsRegistered R) w) : R.Keeps vaultSchema settled w := by
  cases hw with
  | registered email password fullName id => trivial
  | issued op hissues id userId raw now => trivial
  | revoked op hrevokes r hr now => exact hr
  | organizationCreated name slug userId id => trivial
  | ownerAdded name slug userId m huser hrole => trivial
  | organizationUpdated o u name slug r r' hr horg hid hname hslug =>
    obtain ⟨id, name, slug⟩ := r
    obtain ⟨id', name', slug'⟩ := r'
    obtain rfl : id' = id := hid
    exact hr
  | invited o email role u hrole id userId now => trivial
  | roleUpdated o id role u r hr hin => exact hr
  | projectCreated o name slug u description id => trivial
  | projectUpdated p o u name slug description r r' hr hin hid horg hname hslug hdescription =>
    have hsettled : settled .projects r' = settled .projects r := by
      simp [settled, hid, horg]
    show R .projects r'.id = some (settled .projects r')
    rw [hsettled, hid]
    exact hr
  | environmentCreated p o name u id hin => trivial
  | keyCreated p o name u id environmentId hin dek nonce => trivial
  | secretCreated e o keyName plainValue u id hin => trivial
  | versionStored op plainValue hvalue o ho id secretId hin key hkey nonce encrypted henc number
      hpos hmax => trivial
  | pointed op plainValue hvalue o ho r hr hin v hv hsecret => exact hr
  | secretDeleted s o u r hr hin now => exact hr
  | revealRecorded s o u secret hs version hv id now => trivial
  | cascaded op hdeletes o ho t id hin w hw =>
    cases hw with
    | delete t x h => trivial
    | clear t r hr h => exact hr

end

section
variable {n : ℕ} {server : Server} {users : Fin n → UUID} {requests : Fin n → Request}
  {W : VaultWorld n} {as bs : Schedule n} {s t : Sys n Input Db RowWrite Exn Response}

theorem Request.keepsSettled (currentUser : UUID) (r : Request) :
    KeepsSettled vaultSchema settled (r.handle server currentUser) := by
  intro R
  exact (Request.writes_handle registered_clearable server currentUser r).mono
    (fun w hw => Op.MayWrite.keeps hw) fun _ _ => trivial

/-- The queries around the operation of a route are lawful, they write nothing. -/
theorem reads_lawful {α : Type} {P : α → Prop} {p : Tx α} (hp : p.Reads P) :
    vaultSchema.Lawful Input.ids p := by
  induction p with
  | ret a => trivial
  | raise e => trivial
  | stmt writes next failed ihn ihf =>
    refine ⟨fun inp v => ?_, fun inp v => ihn inp v (hp.2.1 inp v), fun e => ?_⟩
    · rw [hp.1 inp v]
      exact Schema.lawfulWrites_nil inp v
    · obtain ⟨e', he⟩ := hp.2.2 e
      rw [he]
      trivial
  | commit next failed ihn ihf => exact hp.elim
  | rollback next ih => exact hp.elim

theorem Request.lawful_handle (currentUser : UUID) (r : Request) :
    vaultSchema.Lawful Input.ids (r.handle server currentUser) := by
  have hrun : vaultSchema.Lawful Input.ids (r.run server currentUser) := by
    rw [run_eq]
    refine Prog.Comprises.bind ?_ fun _ => reads_lawful (reads_finish _ _)
    exact ServiceCall.lawful ⟨r.op currentUser, r.session server currentUser⟩
  unfold handle
  split
  · exact hrun
  · refine Prog.Comprises.bind (reads_lawful (reads_selectOne _ _)) fun membership => ?_
    split
    · trivial
    · exact hrun

theorem Begins.sound_waiting (hb : Begins W) (server : Server) (users : Fin n → UUID)
    (requests : Fin n → Request) :
    vaultSchema.Sound Input.ids (baseKeys W.db) (handling server users requests W) :=
  .initial hb.valid hb.log hb.issued fun i => (requests i).lawful_handle (users i)

/-- The keys of a run of requests. -/
theorem Begins.sound_handling (hb : Begins W)
    (hr : (handling server users requests W).run vaultEngine as = some s) :
    vaultSchema.Sound Input.ids (baseKeys W.db) s :=
  (hb.sound_waiting server users requests).run (fun _ _ => freshInput_ids) hr

/-- One registry covers all states of a run of requests. -/
theorem Begins.covered (hb : Begins W)
    (hr : (handling server users requests W).run vaultEngine as = some s) :
    ∃ R : RowRegistry, ∀ bs u, bs <+: as →
      (handling server users requests W).run vaultEngine bs = some u →
      R.Covers vaultSchema settled u := by
  have hinit : (Registry.ofStore vaultSchema settled W.db).Invariant vaultSchema settled Input.ids
      (handling server users requests W) :=
    .initial hb.valid hb.issued fun i => (requests i).keepsSettled (users i)
  obtain ⟨R, -, hR⟩ :=
    hinit.run (fun _ _ => freshInput_ids) (hb.sound_waiting server users requests) hr
  exact ⟨R, hR⟩

/-- Whatever the requests of a run do, in whatever order their statements run: rows that
carry one key at any two moments, also after deletions, agree on the settled columns. -/
theorem settled_columns_never_change (hb : Begins W)
    (hs : (handling server users requests W).run vaultEngine as = some s)
    (ht : s.run vaultEngine bs = some t) (τ : Table) {r r' : RowOf τ} (hr : r ∈ s.world.db τ)
    (hr' : r' ∈ t.world.db τ) (hid : rowId τ r = rowId τ r') : settled τ r = settled τ r' := by
  have hrun : (handling server users requests W).run vaultEngine (as ++ bs) = some t := by
    rw [Sys.run_append, hs]
    exact ht
  obtain ⟨R, hR⟩ := hb.covered hrun
  exact (hR as s (List.prefix_append _ _) hs).settled_eq (hR _ t List.prefix_rfl hrun) hr hr' hid

/-- A rotation points the secret at its second version and keeps its name and place. -/
theorem settled_columns_never_change_acme :
    ∃ s t, (handling sampleServer (fun _ => 1) acmeRequests ⟨acmeDb, [], samplePast 10⟩).run
        vaultEngine (sampleSteps 10 (List.replicate 10 0 ++ List.replicate 14 1)) = some s ∧
      s.run vaultEngine (sampleSteps 34 (List.replicate 15 2)) = some t ∧
      ∃ r ∈ s.world.db .secrets, ∃ r' ∈ t.world.db .secrets,
        r.currentVersionId ≠ r'.currentVersionId ∧ settled .secrets r = settled .secrets r' := by
  have hrun : ((handling sampleServer (fun _ => 1) acmeRequests ⟨acmeDb, [], samplePast 10⟩).run
      vaultEngine (sampleSteps 10 (List.replicate 10 0 ++ List.replicate 14 1))).map
        (fun s => (s.world.db .secrets, (s.run vaultEngine (sampleSteps 34
          (List.replicate 15 2))).map fun t => t.world.db .secrets)) =
      some ([⟨54, 28, "KEY", some 56, false, none⟩],
        some [⟨54, 28, "KEY", some 84, false, none⟩]) := by rfl
  obtain ⟨s, hs, hfacts⟩ := Option.map_eq_some_iff.mp hrun
  obtain ⟨hsecrets, hafter⟩ := Prod.mk.inj hfacts
  obtain ⟨t, ht, hsecrets'⟩ := Option.map_eq_some_iff.mp hafter
  have hmem : (⟨54, 28, "KEY", some 56, false, none⟩ : Secret) ∈ s.world.db .secrets := by
    simp [hsecrets]
  have hmem' : (⟨54, 28, "KEY", some 84, false, none⟩ : Secret) ∈ t.world.db .secrets := by
    simp [hsecrets']
  exact ⟨s, t, hs, ht, _, hmem, _, hmem', by decide,
    settled_columns_never_change opens_acme.toBegins hs ht .secrets hmem hmem' rfl⟩

end

end EnvVault
