import Mathlib.Data.Fintype.Card
import EnvVault.CallShapes
import EnvVault.Reveal
import EnvVault.StagedRuns

/-!
# The audit trail of reveals

A reveal commits one audit entry before it returns the plaintext, and no other call
writes to the audit log. The log is append-only: a DELETE whose referential actions
would reach an entry is refused.
-/
namespace EnvVault
open EnvVault.Relational EnvVault.Transactions

/-- The audit entries that a commit adds. -/
def auditRows (ws : List RowWrite) : List AuditLog :=
  ws.filterMap fun w => match w with
    | .insert .auditLogs a => some a
    | _ => none

/-- The audit entries of a run, each with the call that committed it. -/
def audited {n : ℕ} (log : List (Fin n × List RowWrite)) : List (Fin n × AuditLog) :=
  log.flatMap fun e => (auditRows e.2).map fun a => (e.1, a)

/-- The entry of a reveal of this secret. -/
structure RecordsReveal (secretId org actor : UUID) (a : AuditLog) : Prop where
  action : a.action = .reveal
  resourceType : a.resourceType = .secret
  resource : a.resourceId = some secretId
  user : a.userId = some actor
  organization : a.organizationId = some org

/-- The metadata of the entry name this version. -/
def NamesVersion (a : AuditLog) (version : SecretVersion) : Prop :=
  ∃ keyName, a.metadata = some [("key_name", keyName), ("version_id", toString version.id)]

/-- The plaintext of a version, decrypted with its key, both as the call has read them. -/
def DecryptsRead (d : Deployment) (seen : List Db) (version : SecretVersion) (plainValue : String) :
    Prop :=
  (∃ db ∈ seen, version ∈ db .secretVersions) ∧
    ∃ db ∈ seen, ∃ key ∈ db .encryptionKeys, key.id = version.encryptionKeyId ∧
      CryptoService.decryptSecret d.kms version.encryptedValue version.iv key.wrappedDek =
        .ok plainValue

/-- What a commit adds to the audit log. -/
inductive AuditEffect : Op → List RowWrite → Prop
  | nothing (op : Op) (ws : List RowWrite) (hop : ∀ s o u, op ≠ .getDecryptedValue s o u)
      (h : ∀ w ∈ ws, w.table ≠ .auditLogs) : AuditEffect op ws
  | reveal (secretId org actor : UUID) (a : AuditLog) (h : RecordsReveal secretId org actor a) :
      AuditEffect (.getDecryptedValue secretId org actor) [.insert .auditLogs a]

theorem auditRows_eq_nil {ws : List RowWrite} (h : ∀ w ∈ ws, w.table ≠ .auditLogs) :
    auditRows ws = [] := by
  refine List.filterMap_eq_nil_iff.mpr fun w hw => ?_
  split
  · exact absurd rfl (h _ hw)
  · rfl

/-- A commit appends its entries to the audit log. -/
theorem AuditEffect.view {op : Op} {ws : List RowWrite} (h : AuditEffect op ws) (db : Db) :
    vaultSchema.view ws db .auditLogs = db .auditLogs ++ auditRows ws := by
  cases h with
  | nothing op ws hop h => rw [Schema.view_untouched _ h, auditRows_eq_nil h, List.append_nil]
  | reveal secretId org actor a h => rfl

theorem AuditEffect.length_le {op : Op} {ws : List RowWrite} (h : AuditEffect op ws) :
    (auditRows ws).length ≤ 1 := by
  cases h with
  | nothing op ws hop h => simp [auditRows_eq_nil h]
  | reveal secretId org actor a h => exact le_rfl

/-- An entry is added by a reveal, and records it. -/
theorem AuditEffect.entry {op : Op} {ws : List RowWrite} (h : AuditEffect op ws) {a : AuditLog}
    (ha : a ∈ auditRows ws) : ∃ secretId org actor,
      op = .getDecryptedValue secretId org actor ∧ RecordsReveal secretId org actor a := by
  cases h with
  | nothing op ws hop h =>
    rw [auditRows_eq_nil h] at ha
    cases ha
  | reveal secretId org actor b h =>
    obtain rfl : a = b := List.mem_singleton.mp ha
    exact ⟨secretId, org, actor, rfl, h⟩

section
variable {n : ℕ}

theorem mem_audited {log : List (Fin n × List RowWrite)} {i : Fin n} {a : AuditLog} :
    (i, a) ∈ audited log ↔ ∃ ws, (i, ws) ∈ log ∧ a ∈ auditRows ws := by
  simp only [audited, List.mem_flatMap, List.mem_map, Prod.mk.injEq]
  constructor
  · rintro ⟨⟨k, ws⟩, he, b, hb, rfl, rfl⟩
    exact ⟨ws, he, hb⟩
  · rintro ⟨ws, he, ha⟩
    exact ⟨(i, ws), he, a, ha, rfl, rfl⟩

theorem audited_append (log log' : List (Fin n × List RowWrite)) :
    audited (log ++ log') = audited log ++ audited log' := List.flatMap_append

/-- The callers of the entries are callers of the log, in its order. -/
theorem audited_sublist {log : List (Fin n × List RowWrite)}
    (h : ∀ e ∈ log, (auditRows e.2).length ≤ 1) :
    List.Sublist ((audited log).map Prod.fst) (log.map Prod.fst) := by
  induction log with
  | nil => exact List.Sublist.slnil
  | cons e log ih =>
    have hrest := ih fun e' he' => h e' (List.mem_cons_of_mem _ he')
    have hone := h e List.mem_cons_self
    simp only [audited, List.flatMap_cons, List.map_append, List.map_map, List.map_cons]
    cases hrows : auditRows e.2 with
    | nil => simpa [audited] using hrest.cons e.1
    | cons a rest =>
      rw [hrows] at hone
      obtain rfl : rest = [] := List.length_eq_zero_iff.mp (by simpa using hone)
      simpa [audited] using hrest.cons_cons e.1

end

/-- Of a list with one entry for each caller at most, the entries that satisfy `q` are as
many as their callers. -/
theorem countP_eq_card {n : ℕ} {β : Type} {l : List (Fin n × β)} (hnodup : (l.map Prod.fst).Nodup)
    (q : β → Bool) (P : Fin n → Prop) [DecidablePred P]
    (h : ∀ i, P i ↔ ∃ b, (i, b) ∈ l ∧ q b = true) :
    (l.map Prod.snd).countP q = (Finset.univ.filter P).card := by
  have hcallers : ((l.filter fun p => q p.2).map Prod.fst).Nodup :=
    hnodup.sublist (List.filter_sublist.map Prod.fst)
  have hset : Finset.univ.filter P = ((l.filter fun p => q p.2).map Prod.fst).toFinset := by
    ext i
    simp [h i]
  rw [hset, List.toFinset_card_of_nodup hcallers, List.length_map, List.countP_map,
    List.countP_eq_length_filter]
  rfl

section
variable {n : ℕ} (d : Deployment) (calls : Fin n → ServiceCall) (entries : List AuditLog)

/-- The audit log is what it was when the run began, and what its commits have added. -/
def auditContract : Contract n vaultEngine where
  inv W := W.db .auditLogs = entries ++ (audited W.log).map Prod.snd ∧
    ∀ e ∈ W.log, AuditEffect (calls e.1).op e.2
  guar k _ ws := AuditEffect (calls k).op ws
  assume _ _ _ := True
  quiet _ _ _ _ := True
  inv_consume _ _ h _ := h
  inv_commit k W ws h _ hg := by
    constructor
    · have hnew : audited [(k, ws)] = (auditRows ws).map fun a => (k, a) := by simp [audited]
      rw [World.commit_db, vaultEngine_view, hg.view, h.1, World.commit_log, audited_append, hnew]
      simp [Function.comp_def]
    · intro e he
      rcases List.mem_append.mp he with he | he
      · exact h.2 e he
      · obtain rfl := List.mem_singleton.mp he
        exact hg

/-- A reveal that has returned has committed its entry, which names the version that it
has decrypted. -/
def RevealAudited (i : Fin n) (reply : Reply) (seen : List Db) (W : VaultWorld n) : Prop :=
  ∀ secretId org actor, (calls i).op = .getDecryptedValue secretId org actor →
    ∃ plainValue a version, reply = .value plainValue ∧ (i, a) ∈ audited W.log ∧
      NamesVersion a version ∧ DecryptsRead d seen version plainValue

variable {d calls entries} {i : Fin n}

theorem stable_audited {ws : List RowWrite} (p : Fin n × AuditLog) :
    Stable (auditContract calls entries) i ws fun W => p ∈ audited W.log := by
  refine .of_steps (fun _ _ _ _ hA => hA) fun W k vs _ _ _ _ _ hA => ?_
  rw [World.commit_log, audited_append]
  exact List.mem_append_left _ hA

theorem reads_getOwnedSecret {uow : UnitOfWork} (secretId org : UUID) :
    (SecretService.getOwnedSecret uow secretId org).Reads fun s => s.id = secretId := by
  refine .bind (reads_get _ _) fun found h => ?_
  split
  · trivial
  · rename_i s hs
    have hid := h s (Option.eq_some_of_filter_eq_some hs)
    exact .bind (SecretService.reads_resolveEnvironmentOrg _ _) fun _ _ => hid

theorem getDecryptedValue_audited {uow : UnitOfWork} (secretId org actor : UUID)
    (hop : (calls i).op = .getDecryptedValue secretId org actor) {W : VaultWorld n} :
    wlp (auditContract calls entries) i
      (SecretService.getDecryptedValue d.kms uow secretId org actor)
      (fun plainValue l V => ∃ a version, (i, a) ∈ audited V.log ∧ NamesVersion a version ∧
        DecryptsRead d l.seen version plainValue) (fun _ _ _ => True) ⟨[], []⟩ W := by
  have hX : ∀ (e : Exn) (l : Local Db RowWrite) (V : VaultWorld n), True := fun _ _ _ => trivial
  refine wlp_reads_bind (reads_requireOrgRole _ _ _) hX stable_true trivial fun _ _ V _ _ _ => ?_
  refine wlp_reads_bind (reads_getOwnedSecret _ _) hX stable_true trivial
    fun secret _ V hid _ _ => ?_
  split
  · exact wlp_throw hX
  refine wlp_get_bind hX stable_true trivial (fun V _ => wlp_throw hX)
    fun V inp version _ _ hversion _ => ?_
  refine wlp_get_bind hX stable_true trivial (fun V _ => wlp_throw hX)
    fun V' inp' key _ _ hkey hkeyId => ?_
  refine wlp_reads_bind (reads_liftCrypto _) hX stable_true trivial
    fun plainValue seen V₂ hplain hseen _ => ?_
  simp only [SecretService.recordReveal, Prog.bind_eq, Prog.bind_assoc, Prog.pure_eq, Prog.ret_bind]
  refine wlp_insertFlushed_bind hX stable_true trivial fun V₃ inp₃ _ _ _ => ?_
  obtain ⟨entry, hentry⟩ : ∃ a : AuditLog, a = ⟨inp₃.uuid, some org, some actor, .reveal, .secret,
    some secret.id, some [("key_name", secret.keyName), ("version_id", toString version.id)],
      inp₃.now⟩ := ⟨_, rfl⟩
  rw [← hentry]
  have hG : AuditEffect (calls i).op [.insert .auditLogs entry] := by
    rw [hop, hentry]
    exact .reveal _ _ _ _ ⟨rfl, rfl, congrArg some hid, rfl, rfl⟩
  refine wlp_commit_reads (P := fun b => b = plainValue) (k := fun _ => .ret plainValue) hX
    stable_true trivial rfl (fun _ _ _ _ => hG) fun V₄ b seen₄ _ _ _ _ hb hseen₄ U hU => ?_
  subst hb
  refine ⟨entry, version, stable_audited (i, entry) _ _ hU ?_, ?_, ?_⟩
  · exact mem_audited.mpr ⟨_, List.mem_append_right _ (List.mem_singleton.mpr rfl),
      List.mem_singleton.mpr rfl⟩
  · exact ⟨secret.keyName, by rw [hentry]⟩
  · have hsub : seen ⊆ seen₄ := fun db hdb => hseen₄.subset (List.mem_cons_of_mem _ hdb)
    exact ⟨⟨V.db, hsub (hseen.subset (by simp)), hversion⟩, V'.db, hsub (hseen.subset (by simp)),
      key, hkey, hkeyId, hplain⟩

/-- No statement writes to the audit log. -/
def LeavesAudit {α : Type} (p : Tx α) : Prop :=
  p.Comprises fun writes => ∀ inp v, ∀ w ∈ writes inp v, w.table ≠ .auditLogs

theorem leavesAudit_of_tables {α : Type} {p : Tx α} {ts : List Table}
    (hp : p.Comprises (WritesTo ts)) (hts : .auditLogs ∉ ts) : LeavesAudit p := by
  refine hp.mono fun writes hw inp v w hmem htable => hts ?_
  rw [← htable]
  exact (hw inp v).2 w hmem

/-- A DELETE takes no entry along. -/
theorem leavesAudit_delete {uow : UnitOfWork} (t : Table) (id : UUID) :
    LeavesAudit (uow.delete t id) := by
  refine .statement fun inp v w hw htable => ?_
  dsimp only at hw
  cases hdelete : uow.deleteRow t id v with
  | error e => simp [hdelete] at hw
  | ok r =>
    obtain ⟨ws, a⟩ := r
    rw [hdelete, Prog.answerWrites_ok] at hw
    rcases UnitOfWork.deleteRow_ok hdelete with rfl | hok
    · cases hw
    · have hopen := Schema.deleteRow_appendOnly hok w hw
      simp [htable, vaultSchema] at hopen

theorem leavesAudit_deleteCommit {uow : UnitOfWork} (t : Table) (id : UUID) :
    LeavesAudit (do uow.delete t id; UnitOfWork.commit) :=
  .bind (leavesAudit_delete t id) fun _ =>
    leavesAudit_of_tables (UnitOfWork.comprises_commit : UnitOfWork.commit.Comprises (WritesTo []))
      (by simp)

theorem Op.leavesAudit {uow : UnitOfWork} {op : Op}
    (hop : ∀ s o u, op ≠ .getDecryptedValue s o u) : LeavesAudit (op.program d uow) := by
  have hread {α : Type} {p : Tx α} (hp : p.Comprises (WritesTo [])) : LeavesAudit p :=
    leavesAudit_of_tables hp (by simp)
  by_cases htables : .auditLogs ∉ op.tables
  · exact leavesAudit_of_tables op.comprises htables
  · cases op with
    | deleteOrganization org actor =>
      exact .bind (.bind (hread (comprises_requireOrgRole _ _ _)) fun _ =>
        .bind (hread (OrganizationService.comprises_get _)) fun _ =>
          leavesAudit_deleteCommit _ _) fun _ => trivial
    | deleteProject id org actor =>
      exact .bind (.bind (hread (comprises_requireOrgRole _ _ _)) fun _ =>
        .bind (hread (comprises_requireOrgRoleAgain _ _ _ _)) fun _ =>
          .bind (hread (ProjectService.comprises_lookup _ _)) fun _ =>
            leavesAudit_deleteCommit _ _) fun _ => trivial
    | deleteEnvironment id org actor =>
      exact .bind (.bind (hread (comprises_requireOrgRole _ _ _)) fun _ =>
        .bind (hread (comprises_requireOrgRoleAgain _ _ _ _)) fun _ =>
          .bind (hread (EnvironmentService.comprises_getIn _ _)) fun _ =>
            leavesAudit_deleteCommit _ _) fun _ => trivial
    | getDecryptedValue s o u => exact absurd rfl (hop s o u)
    | _ => simp [tables] at htables

theorem audit_meets : (auditContract calls entries).Meets (fun i => (calls i).program d)
    (RevealAudited d calls) := by
  intro i W _
  by_cases hop : ∃ s o u, (calls i).op = .getDecryptedValue s o u
  · obtain ⟨secretId, org, actor, hop⟩ := hop
    change wlp _ i ((calls i).op.program d (calls i).uow) _ _ _ _
    rw [hop]
    refine wlp_bind (wlp_mono (fun plainValue l V h => fun U hU => ?_) (fun _ _ _ h => h)
      (getDecryptedValue_audited secretId org actor hop))
    intro s o u hop'
    obtain ⟨a, version, ha, hnames, hdecrypts⟩ := h
    exact ⟨plainValue, a, version, rfl, stable_audited _ _ _ hU ha, hnames, hdecrypts⟩
  · have hne : ∀ s o u, (calls i).op ≠ .getDecryptedValue s o u :=
      fun s o u h => hop ⟨s, o, u, h⟩
    refine wlp_comprises (Op.leavesAudit hne) (fun a l V s o u h => absurd h (hne s o u))
      (fun _ _ _ => trivial) (fun V ws _ _ h => .nothing _ ws hne h) (by simp)

theorem revealAudited_lasting : Lasting (E := vaultEngine) (RevealAudited d calls) where
  consume _ _ _ _ _ h := h
  commit i a seen W k ws h := by
    intro s o u hop
    obtain ⟨plainValue, e, version, hreply, he, hrest⟩ := h s o u hop
    refine ⟨plainValue, e, version, hreply, ?_, hrest⟩
    rw [World.commit_log, audited_append]
    exact List.mem_append_left _ he

end

/-- This call reveals the secret for the user. -/
def Op.reveals (secretId actor : UUID) : Op → Bool
  | .getDecryptedValue secret _ user => secret == secretId && user == actor
  | _ => false

theorem Op.reveals_iff {secretId actor : UUID} {op : Op} : op.reveals secretId actor = true ↔
    ∃ org, op = .getDecryptedValue secretId org actor := by
  cases op <;> simp [reveals]

/-- The entries of reveals of the secret by the user. -/
def isReveal (secretId actor : UUID) (a : AuditLog) : Bool :=
  a.action == .reveal && a.resourceType == .secret && a.resourceId == some secretId &&
    a.userId == some actor

theorem isReveal_of_records {secretId org actor : UUID} {a : AuditLog}
    (h : RecordsReveal secretId org actor a) : isReveal secretId actor a = true := by
  simp [isReveal, h.action, h.resourceType, h.resource, h.user]

theorem records_of_isReveal {secretId secretId' org actor actor' : UUID} {a : AuditLog}
    (h : RecordsReveal secretId org actor a) (hreveal : isReveal secretId' actor' a = true) :
    secretId = secretId' ∧ actor = actor' := by
  simpa [isReveal, h.action, h.resourceType, h.resource, h.user] using hreveal

section
variable {n : ℕ} (d : Deployment) (calls : Fin n → ServiceCall)

/-- What the audit log says of the reveals of a run. -/
structure AuditTrail (W : VaultWorld n) (s : VaultSys n) : Prop where
  /-- The entries that were there are unchanged, and those of the run follow them. -/
  appended : s.world.db .auditLogs =
    W.db .auditLogs ++ (audited s.world.log).map Prod.snd
  /-- An entry of the run records a reveal that has not raised. -/
  recorded : ∀ p ∈ audited s.world.log, ∃ secretId org actor,
    (calls p.1).op = .getDecryptedValue secretId org actor ∧
      RecordsReveal secretId org actor p.2 ∧ ∀ e, (s.call p.1).prog ≠ .raise e
  /-- A reveal that has returned a plaintext has its entry, which names the version. -/
  revealed : ∀ i secretId org actor plainValue,
    (calls i).op = .getDecryptedValue secretId org actor →
      (s.call i).prog = .ret (.value plainValue) → ∃ a version, (i, a) ∈ audited s.world.log ∧
        NamesVersion a version ∧ DecryptsRead d (s.call i).seen version plainValue
  /-- While no reveal of the secret by the user is in progress, the entries are as many
  as the plaintexts that were returned. -/
  counted : ∀ secretId actor,
    (∀ i, (calls i).op.reveals secretId actor = true → ¬ s.InProgress i) →
      ((audited s.world.log).map Prod.snd).countP (isReveal secretId actor) =
        (Finset.univ.filter fun i => (calls i).op.reveals secretId actor = true ∧
          (returnedValue s i).isSome = true).card

variable {d calls} {W : VaultWorld n} {as : Schedule n} {s : VaultSys n}

/-- In a run without failures, a reveal that has committed has not raised. -/
theorem not_raised_of_audited (hstaged : s.Staged (fun i => (calls i).op.RaisesCommitted)
    fun _ _ => True) {p : Fin n × AuditLog} (hp : p ∈ audited s.world.log)
    (hop : (calls p.1).op.authenticates = false) (e : Exn) : (s.call p.1).prog ≠ .raise e := by
  intro hprog
  obtain ⟨ws, hcommit, -⟩ := mem_audited.mp hp
  have hstage := hstaged p.1
  rw [hprog] at hstage
  rcases hstage.raise with ⟨⟨raw, hrefresh⟩, -⟩ | hnot
  · rw [hrefresh] at hop
    cases hop
  · exact hnot _ hcommit rfl

/-- In a run without failures, of any calls in any order of their statements, the audit
log records the reveals, and no entry of it ever changes or goes away. -/
theorem audit_trail {n : ℕ} (d : Deployment) (calls : Fin n → ServiceCall) (W : VaultWorld n)
    (hlog : W.log = []) (as : Schedule n) (s : VaultSys n)
    (hr : (waiting d calls W).run vaultEngine as = some s) (ha : ∀ a ∈ as, a.Proceeds) :
    AuditTrail d calls W s ∧ ∀ pre m, pre <+: as →
      (waiting d calls W).run vaultEngine pre = some m →
        m.world.db .auditLogs <+: s.world.db .auditLogs := by
  have hok : ∀ bs m, (waiting d calls W).run vaultEngine bs = some m →
      m.Ok (auditContract calls (W.db .auditLogs)) (fun i => (calls i).program d)
        (RevealAudited d calls) := fun bs m hm =>
    (Sys.Ok.initial (by simp [auditContract, hlog, audited])).run audit_meets revealAudited_lasting
      (fun _ _ _ _ _ _ _ _ => ⟨trivial, fun _ _ _ => trivial⟩) hm
  have hstaged : s.Staged (fun i => (calls i).op.RaisesCommitted) fun _ _ => True :=
    (Sys.Staged.initial hlog fun i => (calls i).op.commitsLast).run ha hr
  have hstarted := Sys.run_started hr (by simp [waiting, Sys.initial, hlog])
  have hinv := (hok as s hr).inv
  have hrecorded : ∀ p ∈ audited s.world.log, ∃ secretId org actor,
      (calls p.1).op = .getDecryptedValue secretId org actor ∧
        RecordsReveal secretId org actor p.2 := by
    intro p hp
    obtain ⟨ws, hcommit, hrow⟩ := mem_audited.mp hp
    exact (hinv.2 _ hcommit).entry hrow
  have hreveals : ∀ p ∈ audited s.world.log, (calls p.1).op.authenticates = false := by
    intro p hp
    obtain ⟨secretId, org, actor, hop, -⟩ := hrecorded p hp
    rw [hop]
    rfl
  have hreturned : ∀ i reply, (s.call i).prog = .ret reply → ∀ secretId org actor,
      (calls i).op = .getDecryptedValue secretId org actor →
        ∃ plainValue a version, reply = .value plainValue ∧ (i, a) ∈ audited s.world.log ∧
          NamesVersion a version ∧ DecryptsRead d (s.call i).seen version plainValue :=
    fun i reply hprog => ((hok as s hr).call i).ret audit_meets hinv hprog
  refine ⟨⟨hinv.1, fun p hp => ?_, ?_, fun secretId actor hidle => ?_⟩, ?_⟩
  · obtain ⟨secretId, org, actor, hop, hrecords⟩ := hrecorded p hp
    exact ⟨secretId, org, actor, hop, hrecords,
      not_raised_of_audited hstaged hp (hreveals p hp)⟩
  · intro i secretId org actor plainValue hop hprog
    obtain ⟨plainValue', a, version, hreply, ha, hrest⟩ := hreturned i _ hprog _ _ _ hop
    obtain rfl : plainValue = plainValue' := Reply.value.inj hreply
    exact ⟨a, version, ha, hrest⟩
  · have hnodup : ((audited s.world.log).map Prod.fst).Nodup :=
      hstaged.nodup.sublist (audited_sublist fun e he => (hinv.2 e he).length_le)
    refine countP_eq_card hnodup _ _ fun i => ?_
    constructor
    · rintro ⟨hop, hvalue⟩
      obtain ⟨org, hop⟩ := Op.reveals_iff.mp hop
      obtain ⟨plainValue, hvalue⟩ := Option.isSome_iff_exists.mp hvalue
      obtain ⟨_, a, version, -, ha, -⟩ := hreturned i _ (prog_of_returnedValue hvalue) _ _ _ hop
      obtain ⟨_, _, _, hop', hrecords⟩ := hrecorded _ ha
      obtain ⟨rfl, -, rfl⟩ := Op.getDecryptedValue.inj (hop'.symm.trans hop)
      have hreveal := isReveal_of_records hrecords
      exact ⟨a, ha, hreveal⟩
    · rintro ⟨a, ha, hreveal⟩
      obtain ⟨secretId', org, actor', hop, hrecords⟩ := hrecorded _ ha
      obtain ⟨rfl, rfl⟩ := records_of_isReveal hrecords hreveal
      have hrow : (calls i).op.reveals secretId' actor' = true := Op.reveals_iff.mpr ⟨org, hop⟩
      refine ⟨hrow, ?_⟩
      obtain ⟨ws, hcommit, -⟩ := mem_audited.mp ha
      have hidle := hidle i hrow
      simp only [Sys.InProgress, hstarted _ hcommit, true_and] at hidle
      cases hprog : (s.call i).prog with
      | ret reply =>
        obtain ⟨plainValue, _, _, rfl, -⟩ := hreturned i reply hprog _ _ _ hop
        simp [returnedValue, hprog]
      | raise e =>
        exact absurd hprog (not_raised_of_audited hstaged ha (hreveals _ ha) e)
      | _ => simp [hprog] at hidle
  · rintro pre m ⟨post, rfl⟩ hm
    rw [Sys.run_append, hm] at hr
    obtain ⟨log, hlog'⟩ := Sys.run_log_prefix (t := s) hr
    rw [(hok pre m hm).inv.1, hinv.1, ← hlog', audited_append, List.map_append,
      ← List.append_assoc]
    exact List.prefix_append _ _

end

theorem audit_trail_acme : ∃ s, (waiting sampleDeployment acmeCalls
    ⟨acmeDb, [], samplePast 10⟩).run vaultEngine acmeSteps = some s ∧
      AuditTrail sampleDeployment acmeCalls ⟨acmeDb, [], samplePast 10⟩ s := by
  obtain ⟨s, hs⟩ := Option.isSome_iff_exists.mp (rfl : ((waiting sampleDeployment acmeCalls
    ⟨acmeDb, [], samplePast 10⟩).run vaultEngine acmeSteps).isSome = true)
  refine ⟨s, hs, (audit_trail sampleDeployment acmeCalls _ rfl acmeSteps s hs fun a ha => ?_).1⟩
  obtain ⟨p, -, rfl⟩ := List.mem_map.mp ha
  trivial

end EnvVault
