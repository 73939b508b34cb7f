import EnvVault.AuditPages
import EnvVault.AuditTrail
import EnvVault.RouteCalls
import EnvVault.PhasedContracts

/-!
# Reading the audit log while it grows

The pages of the log are separate queries, and reveals go on between them. Entries are only
added, so an entry that is not on the pages read so far moves towards the later ones: the
reader misses nothing that was there when the reading began.
-/
namespace EnvVault
open EnvVault.Relational EnvVault.Transactions EnvVault.Pagination

/-- The program of a call whose page of the log comes in this order. -/
def ServiceCall.programIn (d : Deployment) (order : OrderBy) (c : ServiceCall) : Tx Reply :=
  match c.op with
  | .listAuditLogs org actor limit offset =>
    Reply.auditLogs <$> AuditService.listInOrder order c.uow org actor limit offset
  | _ => c.program d

example (d : Deployment) (c : ServiceCall) : c.programIn d .stable = c.program d := by
  obtain ⟨op, uow⟩ := c
  cases op <;> rfl

section
variable {n : ℕ} (d : Deployment) (orders : Fin n → OrderBy) (calls : Fin n → ServiceCall)

/-- All calls waiting to begin, each query of a page with an order of its own. -/
def readingAudit (W : VaultWorld n) : VaultSys n :=
  Sys.initial W fun i => (calls i).programIn d (orders i)

/-- A call that has read a page has cut it from the entries that one of its stores showed. -/
def PageRead (i : Fin n) (reply : Reply) (seen : List Db) (_ : VaultWorld n) : Prop :=
  ∀ org actor limit offset, (calls i).op = .listAuditLogs org actor limit offset →
    ∃ db ∈ seen, reply = .auditLogs ((((orders i).sort ((calls i).uow.found .auditLogs
      (fun a : AuditLog => a.organizationId == some org) db)).drop offset).take limit)

variable {d orders calls} {entries : List AuditLog} {i : Fin n}

theorem page_meets : (auditContract calls entries).Meets
    (fun i => (calls i).programIn d (orders i)) (PageRead orders calls) := by
  intro i W hW
  have hX : ∀ (e : Exn) (l : Local Db RowWrite) (V : VaultWorld n), True := fun _ _ _ => trivial
  by_cases hop : ∃ org actor limit offset, (calls i).op = .listAuditLogs org actor limit offset
  · obtain ⟨org, actor, limit, offset, hop⟩ := hop
    simp only [ServiceCall.programIn, hop]
    refine wlp_bind (wlp_reads_bind (reads_requireOrgRole _ _ _) hX stable_true trivial
      fun _ seen V _ _ _ => ?_)
    refine wlp_select_bind hX stable_true trivial fun V _ _ inp => fun U _ => fun U' _ => ?_
    intro o u l k hop'
    obtain ⟨rfl, rfl, rfl, rfl⟩ := Op.listAuditLogs.inj (hop.symm.trans hop')
    exact ⟨V.db, List.mem_cons_self, rfl⟩
  · have hprogram : (calls i).programIn d (orders i) = (calls i).program d := by
      unfold ServiceCall.programIn
      split
      · rename_i org actor limit offset h
        exact absurd ⟨org, actor, limit, offset, h⟩ hop
      · rfl
    show wlp _ i ((calls i).programIn d (orders i)) _ _ _ _
    rw [hprogram]
    exact wlp_mono (fun _ _ _ _ o u l k h => absurd ⟨o, u, l, k, h⟩ hop) (fun _ _ _ h => h)
      (audit_meets i W hW)

theorem lasting_pageRead : Lasting (E := vaultEngine) (PageRead orders calls) where
  consume _ _ _ _ _ h := h
  commit _ _ _ _ _ _ h := h

variable {W : VaultWorld n} {as bs : Schedule n} {s t : VaultSys n}

theorem readingAudit_ok (hlog : W.log = [])
    (hr : (readingAudit d orders calls W).run vaultEngine as = some s) :
    s.Ok (auditContract calls (W.db .auditLogs)) (fun i => (calls i).programIn d (orders i))
      (PageRead orders calls) :=
  Sys.Ok.run page_meets lasting_pageRead
    (.initial (show (auditContract calls _).inv W by simp [auditContract, hlog, audited]))
    (fun _ _ _ _ _ _ _ _ => ⟨trivial, fun _ _ _ => trivial⟩) hr

/-- The log of the database only grows. -/
theorem auditLogs_grow (hlog : W.log = [])
    (hs : (readingAudit d orders calls W).run vaultEngine as = some s)
    (ht : s.run vaultEngine bs = some t) :
    s.world.db .auditLogs <+: t.world.db .auditLogs := by
  have hrun : (readingAudit d orders calls W).run vaultEngine (as ++ bs) = some t := by
    rw [Sys.run_append, hs]
    exact ht
  obtain ⟨rest, hrest⟩ := Sys.run_log_prefix ht
  rw [(readingAudit_ok hlog hs).inv.1, (readingAudit_ok hlog hrun).inv.1, ← hrest, audited_append,
    List.map_append, ← List.append_assoc]
  exact List.prefix_append _ _

/-- So what a call meets lies between the beginning and the end of its run. -/
theorem auditLogs_between (hlog : W.log = [])
    (hs : (readingAudit d orders calls W).run vaultEngine as = some s)
    (ht : s.run vaultEngine bs = some t) (hi : (s.call i).started = false) :
    ∀ db ∈ (t.call i).seen, s.world.db .auditLogs <+: db .auditLogs ∧
      db .auditLogs <+: t.world.db .auditLogs := by
  have hnil : (s.call i).seen = [] := (Sys.run_seen hs i).2 (fun _ => rfl) hi
  intro db hdb
  obtain ⟨pre, u, hpre, hu, rfl⟩ := Sys.seen_once ht hnil db hdb
  obtain ⟨rest, hrest⟩ := Sys.run_of_prefix hpre hu ht
  have hrun : (readingAudit d orders calls W).run vaultEngine (as ++ pre) = some u := by
    rw [Sys.run_append, hs]
    exact hu
  exact ⟨auditLogs_grow hlog hs hu, auditLogs_grow hlog hrun hrest⟩

end

theorem entriesOf_sublist {db db' : Db} (h : db .auditLogs <+: db' .auditLogs) (org : UUID) :
    (entriesOf db org).Sublist (entriesOf db' org) :=
  h.sublist.filter _

/-- A member of the organization reads the log page by page while other calls run: page `k`
is read by a call that begins in state `k` and has returned in the next one. The reader stays
a member, and no page ends between two entries with equal times. -/
structure ReadsPages {n : ℕ} (calls : Fin n → ServiceCall) (state : ℕ → VaultSys n) (m : ℕ)
    (org actor : UUID) (limit : ℕ) (reader : ℕ → Fin n) (pages : ℕ → List AuditLog) : Prop where
  asks : ∀ k < m, (calls (reader k)).op = .listAuditLogs org actor limit (k * limit)
  begins : ∀ k < m, ((state k).call (reader k)).started = false
  goesOn : ∀ k < m, ∃ bs, (state k).run vaultEngine bs = some (state (k + 1))
  returns : ∀ k < m, ((state (k + 1)).call (reader k)).prog = .ret (.auditLogs (pages k))
  member : ∀ k < m, ∀ db ∈ ((state (k + 1)).call (reader k)).seen,
    ∃ u, Acts (calls (reader k)).uow db u ∧ u.organizationId = org
  aligned : ∀ k < m, ∀ db ∈ ((state (k + 1)).call (reader k)).seen,
    Aligned AuditLog.createdAt limit (entriesOf db org)

section
variable {n : ℕ} {d : Deployment} {orders : Fin n → OrderBy} {calls : Fin n → ServiceCall}
  {W : VaultWorld n} {as : Schedule n} {state : ℕ → VaultSys n} {m : ℕ} {org actor : UUID}
  {limit : ℕ} {reader : ℕ → Fin n} {pages : ℕ → List AuditLog}

theorem ReadsPages.run (h : ReadsPages calls state m org actor limit reader pages)
    (hr : (readingAudit d orders calls W).run vaultEngine as = some (state 0)) {k : ℕ}
    (hk : k ≤ m) :
    ∃ bs, (readingAudit d orders calls W).run vaultEngine bs = some (state k) := by
  induction k with
  | zero => exact ⟨as, hr⟩
  | succ k ih =>
    obtain ⟨bs, hbs⟩ := ih (by omega)
    obtain ⟨cs, hcs⟩ := h.goesOn k hk
    refine ⟨bs ++ cs, ?_⟩
    rw [Sys.run_append, hbs]
    exact hcs

/-- Page `k` is cut from the entries of a database between state `k` and the next one. -/
theorem ReadsPages.page (h : ReadsPages calls state m org actor limit reader pages)
    (hlog : W.log = []) (hr : (readingAudit d orders calls W).run vaultEngine as = some (state 0))
    {k : ℕ} (hk : k < m) : ∃ db : Db,
      pages k = page limit k ((orders (reader k)).sort (entriesOf db org)) ∧
      Aligned AuditLog.createdAt limit (entriesOf db org) ∧
      (state k).world.db .auditLogs <+: db .auditLogs ∧
      db .auditLogs <+: (state (k + 1)).world.db .auditLogs := by
  obtain ⟨bs, hbs⟩ := h.run hr hk.le
  obtain ⟨cs, hcs⟩ := h.goesOn k hk
  have hrun : (readingAudit d orders calls W).run vaultEngine (bs ++ cs) =
      some (state (k + 1)) := by
    rw [Sys.run_append, hbs]
    exact hcs
  have hok := readingAudit_ok hlog hrun
  obtain ⟨db, hdb, hreply⟩ := (hok.call (reader k)).ret page_meets hok.inv (h.returns k hk) org
    actor limit (k * limit) (h.asks k hk)
  obtain ⟨u, hacts, rfl⟩ := h.member k hk db hdb
  rw [hacts.found_auditLogs] at hreply
  exact ⟨db, Reply.auditLogs.inj hreply, h.aligned k hk db hdb,
    auditLogs_between hlog hbs hcs (h.begins k hk) db hdb⟩

/-- Whatever runs between and beside the queries, and however each of them orders entries with
equal times: every page shows entries of the organization, and once a page is not full, every
entry that was committed when the reading began has been on one of the pages. -/
theorem growing_log_read (hlog : W.log = [])
    (hr : (readingAudit d orders calls W).run vaultEngine as = some (state 0))
    (h : ReadsPages calls state m org actor limit reader pages) :
    (∀ k < m, ∀ a ∈ pages k, a ∈ entriesOf (state (k + 1)).world.db org) ∧
    ((∃ k < m, (pages k).length < limit) →
      ∀ a ∈ entriesOf (state 0).world.db org, ∃ k < m, a ∈ pages k) := by
  have hpages : ∀ k, ∃ db : Db, k < m →
      pages k = page limit k ((orders (reader k)).sort (entriesOf db org)) ∧
      Aligned AuditLog.createdAt limit (entriesOf db org) ∧
      (state k).world.db .auditLogs <+: db .auditLogs ∧
      db .auditLogs <+: (state (k + 1)).world.db .auditLogs := by
    intro k
    by_cases hk : k < m
    · obtain ⟨db, hdb⟩ := h.page hlog hr hk
      exact ⟨db, fun _ => hdb⟩
    · exact ⟨W.db, fun hk' => absurd hk' hk⟩
  choose db hdb using hpages
  have horder := fun k => (orders (reader k)).descending (entriesOf (db k) org)
  constructor
  · intro k hk a ha
    obtain ⟨hpage, -, -, hafter⟩ := hdb k hk
    rw [hpage] at ha
    have hmem := (horder k).perm.mem_iff.mp (List.mem_of_mem_drop (List.mem_of_mem_take ha))
    exact (entriesOf_sublist hafter org).subset hmem
  · rintro ⟨last, hlast, hshort⟩ a ha
    have hfirst : a ∈ entriesOf (db 0) org :=
      (entriesOf_sublist (hdb 0 (by omega)).2.2.1 org).subset ha
    obtain ⟨k, hk, hmem⟩ := mem_page_of_growing (fun k _ => horder k)
      (fun k hk => entriesOf_sublist ((hdb k (by omega)).2.2.2.trans (hdb (k + 1) hk).2.2.1) org)
      (fun k hk => (hdb k hk).2.1) ⟨last, hlast, (hdb last hlast).1 ▸ hshort⟩ hfirst
    exact ⟨k, hk, (hdb k hk).1 ▸ hmem⟩

end

/-- A secret that is revealed twice, and a third time after the first page has been read; the
pages have one entry each. -/
def growingCalls : Fin 9 → ServiceCall
  | 0 => ⟨.createEnvironment 12 10 "prod" 1, sampleUow 1 10⟩
  | 1 => ⟨.createSecret 26 10 "KEY" "one" 1, sampleUow 1 10⟩
  | 4 => ⟨.listAuditLogs 10 1 1 0, sampleUow 1 10⟩
  | 6 => ⟨.listAuditLogs 10 1 1 1, sampleUow 1 10⟩
  | 7 => ⟨.listAuditLogs 10 1 1 2, sampleUow 1 10⟩
  | 8 => ⟨.listAuditLogs 10 1 1 3, sampleUow 1 10⟩
  | _ => ⟨.getDecryptedValue 50 10 1, sampleUow 1 10⟩

def growingSteps : Schedule 9 := inTurn 10 fun
  | 0 => 9
  | 1 => 13
  | 4 | 6 | 7 | 8 => 2
  | _ => 10

def growingStart : VaultSys 9 :=
  readingAudit sampleDeployment (fun _ => .reversed) growingCalls ⟨acmeDb, [], samplePast 10⟩

/-- The number of steps before page `k`. -/
def growingCut (k : ℕ) : ℕ := [42, 54, 56, 58, 60].getD k 60

/-- The state before page `k`. -/
def growingLog (k : ℕ) : VaultSys 9 :=
  (growingStart.run vaultEngine (growingSteps.take (growingCut k))).getD growingStart

def growingReader (k : ℕ) : Fin 9 := [4, 6, 7, 8].getD k 8

def loggedReveal (id : UUID) (createdAt : Timestamp) : AuditLog :=
  ⟨id, some 10, some 1, .reveal, .secret, some 50,
    some [("key_name", "KEY"), ("version_id", "52")], createdAt⟩

/-- The entries that page `k` is cut from. -/
def loggedAt (k : ℕ) : List AuditLog :=
  [loggedReveal 76 38, loggedReveal 96 48] ++ if k = 0 then [] else [loggedReveal 120 60]

theorem forall_four {P : ℕ → Prop} (h₀ : P 0) (h₁ : P 1) (h₂ : P 2) (h₃ : P 3) :
    ∀ k < 4, P k := by
  intro k hk
  obtain rfl | rfl | rfl | rfl : k = 0 ∨ k = 1 ∨ k = 2 ∨ k = 3 := by omega
  all_goals assumption

/-- What the query of page `k` meets. -/
theorem growingLog_seen {k : ℕ} (hk : k < 4) {db : Db}
    (hdb : db ∈ ((growingLog (k + 1)).call (growingReader k)).seen) :
    db .memberships = [⟨11, 1, 10, .owner, none, 0⟩] ∧ db .auditLogs = loggedAt k := by
  have hfacts : ∀ k < 4, ((growingLog (k + 1)).call (growingReader k)).seen.map
      (fun db => (db .memberships, db .auditLogs)) =
        List.replicate 2 ([⟨11, 1, 10, .owner, none, 0⟩], loggedAt k) :=
    forall_four rfl rfl rfl rfl
  have hmem : (db .memberships, db .auditLogs) ∈
      List.replicate 2 ([(⟨11, 1, 10, .owner, none, 0⟩ : Membership)], loggedAt k) :=
    hfacts k hk ▸ List.mem_map.mpr ⟨db, hdb, rfl⟩
  simpa using hmem

theorem growingLog_readsPages : ReadsPages growingCalls growingLog 4 10 1 1 growingReader
    (fun k => page 1 k (OrderBy.reversed.sort (loggedAt k))) where
  asks := forall_four rfl rfl rfl rfl
  begins := forall_four rfl rfl rfl rfl
  goesOn := forall_four ⟨(growingSteps.drop 42).take 12, rfl⟩ ⟨(growingSteps.drop 54).take 2, rfl⟩
    ⟨(growingSteps.drop 56).take 2, rfl⟩ ⟨(growingSteps.drop 58).take 2, rfl⟩
  returns := forall_four rfl rfl rfl rfl
  member k hk db hdb := by
    have huow : ∀ k < 4, (growingCalls (growingReader k)).uow = sampleUow 1 10 :=
      forall_four rfl rfl rfl rfl
    rw [huow k hk]
    refine ⟨⟨11, 1, 10, .owner, none, 0⟩, ⟨?_, Or.inr ⟨rfl, rfl⟩⟩, rfl⟩
    simp [(growingLog_seen hk hdb).1]
  aligned k hk db hdb := by
    have hentries : ∀ k < 4,
        (loggedAt k).filter (fun a => a.organizationId == some 10) = loggedAt k :=
      forall_four rfl rfl rfl rfl
    have htimes : ∀ k < 4, ((loggedAt k).map AuditLog.createdAt).Nodup :=
      forall_four (by decide) (by decide) (by decide) (by decide)
    rw [entriesOf, (growingLog_seen hk hdb).2, hentries k hk]
    exact aligned_of_nodup (htimes k hk) 1

/-- The third reveal moves the entry of the first page to the second one. -/
theorem growing_log_read_acme : ∃ pages : ℕ → List AuditLog,
    (growingLog 0).world.db .auditLogs = loggedAt 0 ∧
    (growingLog 1).world.db .auditLogs = loggedAt 1 ∧
    pages 0 = [loggedReveal 96 48] ∧ pages 1 = [loggedReveal 96 48] ∧
    ∀ a ∈ entriesOf (growingLog 0).world.db 10, ∃ k < 4, a ∈ pages k := by
  have hsort : ∀ k, OrderBy.reversed.sort (loggedAt k) = (loggedAt k).reverse := by
    intro k
    refine List.mergeSort_of_pairwise ?_
    unfold loggedAt
    split <;> decide
  have hsome : (growingStart.run vaultEngine (growingSteps.take (growingCut 0))).isSome = true := by
    rfl
  obtain ⟨u, hu⟩ := Option.isSome_iff_exists.mp hsome
  have hstart : growingLog 0 = u := by
    rw [growingLog, hu]
    rfl
  refine ⟨_, rfl, rfl, ?_, ?_,
    (growing_log_read rfl (hstart ▸ hu) growingLog_readsPages).2 ⟨3, by decide, ?_⟩⟩
  · rw [hsort 0]
    rfl
  · rw [hsort 1]
    rfl
  · rw [hsort 3]
    decide

end EnvVault
