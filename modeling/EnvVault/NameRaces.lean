import EnvVault.CallShapes
import EnvVault.ClaimFirst
import EnvVault.NameContest
import EnvVault.VersionChain

/-!
# Races for a unique name

Any number of calls contend for one free name. `EnvironmentService.create` inserts the
environment outside its `try`, and `SecretService.create_secret` has none: a call of
these that has looked for the name before the winner commits ends in the raw error of the
database.
-/
namespace EnvVault
open EnvVault.Relational EnvVault.Transactions

section
variable {d : Deployment} {uow : UnitOfWork} {k key : UniqueName} {base : Db} {β : Type}
open Prog

theorem claimsFirst_commit_ret {b : β} {held : Bool} :
    (UnitOfWork.commit.bind fun _ => .ret b).ClaimsFirst (k.admits base) (k.Extends base)
      k.Claims held := by
  rw [UnitOfWork.commit_bind]
  exact claimsFirst_commitNow_bind (reads_setRlsContext.bind_claimsFirst fun _ _ => trivial)

theorem claimsFirst_exceptIntegrityError {body : Tx β} {exn : Exn} {held : Bool}
    (hb : body.ClaimsFirst (k.admits base) (k.Extends base) k.Claims held) :
    (exceptIntegrityError body (do UnitOfWork.rollback; throw exn)).ClaimsFirst (k.admits base)
      (k.Extends base) k.Claims held :=
  ClaimsFirst.handle hb fun e => by split <;> trivial

theorem claimsFirst_insertFlushed_bind {row : Input → RowOf k.table} {p : RowOf k.table → Tx β}
    (hrow : ∀ inp, k.holds (row inp) = true)
    (hp : ∀ r, (p r).ClaimsFirst (k.admits base) (k.Extends base) k.Claims true) :
    ((uow.insertFlushed k.table row).bind p).ClaimsFirst (k.admits base) (k.Extends base)
      k.Claims false :=
  claimsFirst_statement_bind (fun inp v ws r h => by
    obtain ⟨rfl, -, -⟩ := UnitOfWork.insertRow_ok h
    exact ⟨row inp, List.mem_cons_self, hrow inp⟩) hp

/-- The INSERT of the name and its COMMIT, with the handler. -/
theorem claimsFirst_insertOrConflict {row : Input → RowOf k.table} {exn : Exn}
    (hrow : ∀ inp, k.holds (row inp) = true) :
    (exceptIntegrityError
      (do let r ← uow.insertFlushed k.table row
          UnitOfWork.commit
          return r)
      (do UnitOfWork.rollback
          throw exn)).ClaimsFirst (k.admits base) (k.Extends base) k.Claims false :=
  claimsFirst_exceptIntegrityError (claimsFirst_insertFlushed_bind hrow fun _ =>
    claimsFirst_commit_ret)

theorem claimsFirst_createOrganization {name slug : String} {userId : UUID} :
    (OrganizationService.create uow name slug userId).ClaimsFirst
      ((UniqueName.organizationSlug slug).admits base)
      ((UniqueName.organizationSlug slug).Extends base)
      (UniqueName.organizationSlug slug).Claims false := by
  refine (reads_selectOne _ _).bind_claimsFirst fun _ _ => ?_
  refine (reads_raiseIf _ _ _).bind_claimsFirst fun _ _ => ?_
  refine claimsFirst_exceptIntegrityError ?_
  simp only [OrganizationRepository.createWithOwner, Prog.bind_eq, Prog.bind_assoc]
  refine claimsFirst_statement_bind (fun inp v ws org h => ?_) fun row =>
    (reads_get _ _).preliminary.bind_claimsFirst fun org => ?_
  · obtain ⟨rfl, m, -, -, -, -, rfl, -⟩ := createOrganizationWithOwner_ok h
    exact ⟨⟨inp.uuid, name, slug⟩, List.mem_cons_self, by simp [UniqueName.holds]⟩
  · cases org with
    | none => trivial
    | some org => exact claimsFirst_commit_ret

theorem claimsFirst_createEnvironment {project o actor : UUID} {name : String} :
    (EnvironmentService.create d.kms uow project o name actor).ClaimsFirst
      ((UniqueName.environmentName project name).admits base)
      ((UniqueName.environmentName project name).Extends base)
      (UniqueName.environmentName project name).Claims false := by
  refine (reads_requireOrgRole _ _ _).bind_claimsFirst fun _ _ => ?_
  refine (ProjectService.reads_lookup _ _).bind_claimsFirst fun _ _ => ?_
  refine (reads_selectOne _ _).bind_claimsFirst fun _ _ => ?_
  refine (reads_raiseIf _ _ _).bind_claimsFirst fun _ _ => ?_
  refine claimsFirst_insertFlushed_bind (k := .environmentName project name)
    (fun inp => by simp [UniqueName.holds]) fun environment => ?_
  refine reads_readInput.preliminary.bind_claimsFirst fun random => ?_
  exact claimsFirst_exceptIntegrityError
    ((preliminary_statement _).bind_claimsFirst fun _ => claimsFirst_commit_ret)

theorem claimsFirst_createSecret {environment o actor : UUID} {keyName plainValue : String} :
    (SecretService.createSecret d.kms uow environment o keyName plainValue actor).ClaimsFirst
      ((UniqueName.secretName environment keyName).admits base)
      ((UniqueName.secretName environment keyName).Extends base)
      (UniqueName.secretName environment keyName).Claims false := by
  refine (reads_requireOrgRole _ _ _).bind_claimsFirst fun _ _ => ?_
  refine (SecretService.reads_resolveEnvironmentOrg _ _).bind_claimsFirst fun _ _ => ?_
  refine (reads_selectOne _ _).bind_claimsFirst fun _ _ => ?_
  refine (reads_raiseIf _ _ _).bind_claimsFirst fun _ _ => ?_
  have hkey : (SecretService.activeKey uow environment).Reads fun _ => True := by
    refine (reads_selectOne _ _).bind fun found _ => ?_
    cases found <;> trivial
  refine hkey.bind_claimsFirst fun found _ => ?_
  refine (reads_encryptSecret plainValue found).bind_claimsFirst fun encrypted _ => ?_
  refine claimsFirst_insertFlushed_bind (k := .secretName environment keyName)
    (fun inp => by simp [UniqueName.holds]) fun secret => ?_
  refine (preliminary_statement _).bind_claimsFirst fun version => ?_
  simp only [SecretService.commitPointer, Prog.bind_eq, Prog.bind_assoc]
  exact (preliminary_updateFlushed _ _).bind_claimsFirst fun _ =>
    (SecretService.reads_checkCurrentVersion _ _).preliminary.bind_claimsFirst fun _ =>
      claimsFirst_commit_ret

/-- What a race asks of the program of a call. -/
structure Contender (key : UniqueName) (base : Db) (past : List Input) (p : Tx Reply) : Prop where
  competes : ∀ (n : ℕ) (i : Fin n) (W : VaultWorld n), Competes n key base past i p ⟨[], []⟩ W
  commits : CommitsToReturn p
  claims : p.ClaimsFirst (key.admits base) (key.Extends base) key.Claims false

theorem Contender.map {α : Type} {past : List Input} {p : Tx α} {g : α → Reply}
    (hcompetes : ∀ (n : ℕ) (i : Fin n) (W : VaultWorld n),
      Competes n key base past i p ⟨[], []⟩ W)
    (hcommits : CommitsToReturn p)
    (hclaims : p.ClaimsFirst (key.admits base) (key.Extends base) key.Claims false) :
    Contender key base past (p.bind fun a => .ret (g a)) :=
  ⟨fun n i W => competes_map (hcompetes n i W), .map hcommits, .map hclaims⟩

theorem UniqueName.Contends.contender {past : List Input} {op : Op}
    (hc : key.Contends d uow base op)
    (howner : (∃ slug, key = .organizationSlug slug) → uow.schemaOwner = .superuser)
    (hfree : ¬ key.Taken base) (hids : Supplied base past) (hbase : vaultSchema.Valid base) :
    Contender key base past (op.program d uow) := by
  cases key with
  | email e =>
    cases op with
    | register email password fullName =>
      refine .map (fun n i W => competes_register hfree hids hbase rfl hc)
        (AuthService.commitsToReturn_register _ _ _) ?_
      refine (reads_selectOne _ _).bind_claimsFirst fun _ _ => ?_
      refine (reads_raiseIf _ _ _).bind_claimsFirst fun _ _ => ?_
      exact claimsFirst_insertOrConflict (k := .email e) fun inp => hc
    | _ => exact hc.elim
  | organizationSlug slug =>
    cases op with
    | createOrganization name slug' userId =>
      obtain ⟨rfl, hctx, hu⟩ := hc
      exact .map (fun n i W => competes_createOrganization hfree hids hbase rfl hctx
        (howner ⟨_, rfl⟩) hu) (OrganizationService.commitsToReturn_create _ _ _)
        claimsFirst_createOrganization
    | _ => exact hc.elim
  | member userId o =>
    cases op with
    | invite o' email role actor =>
      obtain ⟨rfl, hrole, hu, hacts⟩ := hc
      refine .map (fun n i W => competes_invite hfree hids hbase rfl hrole hu hacts)
        (MembershipService.commitsToReturn_invite _ _) ?_
      obtain ⟨user, hu, rfl, hemail⟩ := hu
      refine (reads_raiseIf _ _ _).bind_claimsFirst fun _ _ => ?_
      refine (reads_requireOrgRole _ _ _).bind_claimsFirst fun m _ => ?_
      refine (reads_raiseIf _ _ _).bind_claimsFirst fun _ _ => ?_
      refine (finds_getByEmail hu hemail).bind_claimsFirst fun found hfound => ?_
      subst hfound
      refine (reads_selectOne _ _).bind_claimsFirst fun _ _ => ?_
      refine (reads_raiseIf _ _ _).bind_claimsFirst fun _ _ => ?_
      exact claimsFirst_insertOrConflict (k := .member user.id o') fun inp => by
        simp [UniqueName.holds]
    | _ => exact hc.elim
  | projectSlug o slug =>
    cases op with
    | createProject o' name slug' actor description =>
      obtain ⟨rfl, rfl, hacts⟩ := hc
      refine .map (fun n i W => competes_createProject hfree hids hbase rfl hacts)
        (ProjectService.commitsToReturn_create _ _ _) ?_
      refine (reads_requireOrgRole _ _ _).bind_claimsFirst fun _ _ => ?_
      refine (reads_selectOne _ _).bind_claimsFirst fun _ _ => ?_
      refine (reads_raiseIf _ _ _).bind_claimsFirst fun _ _ => ?_
      exact claimsFirst_insertOrConflict (k := .projectSlug o' slug') fun inp => by
        simp [UniqueName.holds]
    | _ => exact hc.elim
  | environmentName project name =>
    cases op with
    | createEnvironment project' o name' actor =>
      obtain ⟨rfl, rfl, hproject, hacts⟩ := hc
      exact .map (fun n i W => competes_createEnvironment hfree hids hbase rfl hproject hacts)
        (EnvironmentService.commitsToReturn_create _ _) claimsFirst_createEnvironment
    | _ => exact hc.elim
  | secretName environment keyName =>
    cases op with
    | createSecret environment' o keyName' plainValue actor =>
      obtain ⟨rfl, rfl, henv, hkey, hacts⟩ := hc
      exact .map (fun n i W => competes_createSecret hfree hids hbase rfl henv hkey hacts)
        (SecretService.commitsToReturn_createSecret _ _ _) claimsFirst_createSecret
    | _ => exact hc.elim

end

/-- Calls authorised to create one name that is free. -/
structure Race {n : ℕ} (d : Deployment) (calls : Fin n → ServiceCall) (W : VaultWorld n)
    (key : UniqueName) : Prop where
  begins : Begins W
  free : ¬ key.Taken W.db
  contends : ∀ i, key.Contends d (calls i).uow W.db (calls i).op
  /-- Elsewhere no organization can be created at all. -/
  owner : ∀ i, (∃ slug, key = .organizationSlug slug) → (calls i).uow.schemaOwner = .superuser

/-- No call commits while another one that does not catch the violation has looked for the
name. -/
def ChecksApart {n : ℕ} (key : UniqueName) (s : VaultSys n) (a : Action n Input Exn) : Prop :=
  ∀ c, key.checkedAt = some c → ∀ j ws, s.committing a = some (j, ws) →
    ∀ i, i ≠ j → s.InProgress i → (s.call i).seen.length < c

/-- Every call has returned or raised. -/
def Over {n : ℕ} (s : VaultSys n) : Prop :=
  ∀ i, (∃ reply, (s.call i).prog = .ret reply) ∨ ∃ e, (s.call i).prog = .raise e

/-- One call has returned; every other one has raised the error of the method and has
committed nothing. -/
def WonByOne {n : ℕ} (key : UniqueName) (s : VaultSys n) : Prop :=
  ∃ j, (∃ reply, (s.call j).prog = .ret reply) ∧ ∀ i, i ≠ j → ∃ e, (s.call i).prog = .raise e ∧
    e.cls = key.alreadyExists ∧ ∀ c ∈ s.world.log, c.1 ≠ i

section
variable {n : ℕ} {d : Deployment} {calls : Fin n → ServiceCall} {W : VaultWorld n}
  {key : UniqueName} {as : Schedule n} {s : VaultSys n} (h : Race d calls W key)
  (hok : ∀ a ∈ as, a.Admitted (key.admits W.db))
  (hr : (waiting d calls W).run vaultEngine as = some s)
include h

theorem Race.contender (i : Fin n) : Contender key W.db W.past ((calls i).program d) :=
  (h.contends i).contender (h.owner i) h.free h.begins.issued h.begins.valid

include hok hr

/-- What is committed, and how the calls that are over have ended. -/
theorem Race.outcome : ContestInv key W.db W.past s.world ∧ ∀ i e,
    (s.call i).prog = .raise e → Loses n key W.db e (s.call i).seen s.world := by
  have hbase : ContestInv key W.db W.past W :=
    ⟨.refl h.begins.valid, List.suffix_refl _, Or.inl ⟨h.begins.log, rfl⟩⟩
  have hallowed : (waiting d calls W).Each vaultEngine (contest n key W.db W.past).Allows as :=
    fun pre a t hpre ht k ws hc =>
      ⟨(h.begins.each_lawful pre a t hpre ht k ws hc).after, fun _ _ _ => trivial⟩
  obtain ⟨hinv, -, hraise⟩ := reaches_run (Q := fun _ _ _ _ => True)
    (X := fun _ e seen V => Loses n key W.db e seen V)
    (fun i V _ => (h.contender i).competes n i V) ⟨fun _ _ _ _ _ h => h, fun _ _ _ _ _ _ h => h⟩
    ⟨fun _ _ _ _ _ h => h, fun _ e seen V k ws hl => ⟨by simp, hl.2⟩⟩ hbase hok hallowed hr
  exact ⟨hinv, hraise⟩

/-- Who has returned has committed once, and who has raised has not. -/
theorem Race.staged : s.Staged (fun _ _ => False) fun _ _ => False :=
  (Sys.Staged.initial h.begins.log fun i => (h.contender i).commits).run
    (fun a ha => (hok a ha).proceeds) hr

theorem Race.ret_committed {i : Fin n} {reply : Reply} (hi : (s.call i).prog = .ret reply) :
    ∃ c ∈ s.world.log, c.1 = i := by
  have hstage := h.staged hok hr i
  rw [hi] at hstage
  obtain ⟨ws, hlog⟩ := hstage.ret.resolve_left id
  have hmem : (i, ws) ∈ s.world.log.filter fun e => e.1 = i := hlog ▸ List.mem_singleton.mpr rfl
  exact ⟨(i, ws), List.mem_of_mem_filter hmem, rfl⟩

theorem Race.raise_uncommitted {i : Fin n} {e : Exn} (hi : (s.call i).prog = .raise e) :
    ∀ c ∈ s.world.log, c.1 ≠ i := by
  have hstage := h.staged hok hr i
  rw [hi] at hstage
  exact hstage.raise.resolve_left id

/-- As long as a call has something to do, some call can take its next step. -/
theorem Race.goes_on (hwork : ∃ i, ¬ (s.call i).Done) : ∃ i, ¬ (s.call i).Done ∧
    ∀ inp, freshInput s.world.past inp = true →
      ∃ t, s.step vaultEngine (.run i inp) = some t := by
  have hclaims := Sys.claiming_run (D := key.Extends W.db) (fun ws vs hw => hw.append vs)
    (fun pre u hpre hu => (h.outcome (fun a ha => hok a (hpre.subset ha)) hu).1.extended)
    (fun i => Or.inl ⟨rfl, (h.contender i).claims⟩) hok hr
  exact Sys.goes_on hclaims (fun ws vs hw hv => hw.excludes hv)
    (fun i j hij => (h.begins.sound hr).apart i j hij) hwork

/-- The one commit. -/
theorem Race.committed_once {c c' : Fin n × List RowWrite} (hc : c ∈ s.world.log)
    (hc' : c' ∈ s.world.log) : c' = c := by
  rcases (h.outcome hok hr).1.standing with ⟨hlog, -⟩ | ⟨⟨e, hlog⟩, -⟩
  · rw [hlog] at hc
    cases hc
  · rw [hlog] at hc hc'
    rw [List.mem_singleton.mp hc, List.mem_singleton.mp hc']

end

section
variable {n : ℕ} {d : Deployment} {calls : Fin n → ServiceCall} {W : VaultWorld n}
  {key : UniqueName} {as : Schedule n} {s : VaultSys n}

theorem admitted_before {ok : Input → Bool} {pre : Schedule n} {a : Action n Input Exn}
    (hok : ∀ b ∈ as, b.Admitted ok) (hpre : pre ++ [a] <+: as) : ∀ b ∈ pre, b.Admitted ok :=
  fun b hb => hok b (hpre.subset (List.mem_append_left _ hb))

/-- Before the first commit all calls meet the database that they begin in. -/
theorem Race.seen_base (h : Race d calls W key)
    (hok : ∀ a ∈ as, a.Admitted (key.admits W.db))
    (hr : (waiting d calls W).run vaultEngine as = some s) (hlog : s.world.log = []) (i : Fin n) :
    ∀ db ∈ (s.call i).seen, db = W.db := by
  revert hlog
  refine Sys.run_invariant (I := fun _ u => u.world.log = [] → ∀ db ∈ (u.call i).seen, db = W.db)
    hr (fun _ db hdb => absurd hdb List.not_mem_nil) ?_
  intro pre a u u' hpre hu hbase hstep hlog
  have hulog : u.world.log = [] := by
    rw [Sys.step_log hstep, List.append_eq_nil_iff] at hlog
    exact hlog.1
  rcases Sys.step_seen hstep i with ⟨hseen, -⟩ | ⟨hseen, -⟩
  · rw [hseen]
    exact hbase hulog
  · rw [hseen]
    intro db hdb
    rcases List.mem_cons.mp hdb with rfl | hdb
    · rcases (h.outcome (admitted_before hok hpre) hu).1.untaken_or with ⟨-, hdb⟩ | ⟨hne, -⟩
      · exact hdb
      · exact absurd hulog hne
    · exact hbase hulog db hdb

/-- Where no call has looked for the name when another one commits, who passed its
existence check in time is the winner. -/
theorem Race.passed_committed (h : Race d calls W key)
    (hok : ∀ a ∈ as, a.Admitted (key.admits W.db))
    (hr : (waiting d calls W).run vaultEngine as = some s)
    (hapart : (waiting d calls W).Each vaultEngine (ChecksApart key) as)
    (hlog : s.world.log ≠ []) {i : Fin n} (hpassed : key.Passed W.db (s.call i).seen) :
    ∃ c ∈ s.world.log, c.1 = i := by
  revert hlog hpassed
  refine Sys.run_invariant (I := fun _ u => u.world.log ≠ [] →
    key.Passed W.db (u.call i).seen → ∃ c ∈ u.world.log, c.1 = i) hr
    (fun hlog _ => absurd h.begins.log hlog) ?_
  intro pre a u u' hpre hu hwon hstep hlog hpassed
  have hok' := admitted_before hok hpre
  have hulog' := Sys.step_log hstep
  by_cases hulog : u.world.log = []
  · -- this step is the first commit
    cases hc : u.committing a with
    | none => simp [hulog', hulog, hc] at hlog
    | some e =>
      obtain ⟨j, ws⟩ := e
      by_cases hij : i = j
      · exact ⟨(j, ws), by simp [hulog', hc], hij.symm⟩
      rw [Sys.committing_other hstep hc hij] at hpassed
      obtain ⟨c, hcheck, hpos, hlen⟩ := hpassed.le_length
      have hidle : ¬ u.InProgress i := fun hprog =>
        absurd (hapart pre a u hpre hu c hcheck j ws hc i hij hprog) (by omega)
      cases hstart : (u.call i).started with
      | false =>
        have hnil := (Sys.run_seen hu i).2 (fun _ => rfl) hstart
        rw [hnil] at hlen
        simp only [List.length_nil] at hlen
        omega
      | true =>
        cases hp : (u.call i).prog with
        | ret reply =>
          obtain ⟨c, hc, -⟩ := h.ret_committed hok' hu hp
          rw [hulog] at hc
          cases hc
        | raise e => exact absurd hulog ((h.outcome hok' hu).2 i e hp).1
        | stmt writes next failed => exact absurd ⟨hstart, by simp [hp]⟩ hidle
        | commit next failed => exact absurd ⟨hstart, by simp [hp]⟩ hidle
        | rollback next => exact absurd ⟨hstart, by simp [hp]⟩ hidle
  · have hbefore : key.Passed W.db (u.call i).seen := by
      rcases Sys.step_seen hstep i with ⟨hseen, -⟩ | ⟨hseen, -⟩
      · rwa [hseen] at hpassed
      · rw [hseen] at hpassed
        refine UniqueName.passed_of_cons ?_ hpassed
        rcases (h.outcome hok' hu).1.untaken_or with ⟨hnil, -⟩ | ⟨-, hocc⟩
        · exact absurd hnil hulog
        · exact ne_base h.free hocc
    obtain ⟨c, hc, hci⟩ := hwon hulog hbefore
    exact ⟨c, hulog' ▸ List.mem_append_left _ hc, hci⟩

end

/-- In every interleaving of calls that contend for a free name, as long as a call has
something to do some call can go on; and when all are over, one of them has returned and
the others have raised the error of the method without committing anything, if and only if
no call committed while another one of a method that does not catch the violation had
looked for the name. -/
theorem name_race_iff {n : ℕ} (d : Deployment) (calls : Fin n → ServiceCall) (W : VaultWorld n)
    (key : UniqueName) (hn : 0 < n) (h : Race d calls W key) (as : Schedule n)
    (hok : ∀ a ∈ as, a.Admitted (key.admits W.db)) (s : VaultSys n)
    (hr : (waiting d calls W).run vaultEngine as = some s) :
    ((∃ i, ¬ (s.call i).Done) → ∃ i, ¬ (s.call i).Done ∧
      ∀ inp, freshInput s.world.past inp = true →
        ∃ t, s.step vaultEngine (.run i inp) = some t) ∧
    (Over s → (WonByOne key s ↔ (waiting d calls W).Each vaultEngine (ChecksApart key) as)) := by
  obtain ⟨hinv, hraise⟩ := h.outcome hok hr
  refine ⟨h.goes_on hok hr, fun hover => ⟨?_, fun hapart => ?_⟩⟩
  · rintro ⟨w, ⟨reply, hw⟩, hlost⟩ pre a u hpre hu c hc j ws hcommit i hij hprog
    by_contra hlen
    obtain ⟨rest, rfl⟩ := hpre
    have hcontinue := hr
    rw [List.append_assoc, Sys.run_append, hu, Option.bind_some, List.singleton_append,
      Sys.run_cons, Option.bind_eq_some_iff] at hcontinue
    obtain ⟨t, hstep, hrest⟩ := hcontinue
    have hcommitted : (j, ws) ∈ s.world.log := by
      refine (Sys.run_log_prefix hrest).subset ?_
      rw [Sys.step_log hstep, hcommit]
      exact List.mem_append_right _ (List.mem_singleton.mpr rfl)
    -- the commit is the first one, and the other call has looked for the name before it
    have hulog : u.world.log = [] := by
      have ht : (waiting d calls W).run vaultEngine (pre ++ [a]) = some t := by
        rw [Sys.run_snoc, hu]
        exact hstep
      have hlog := Sys.step_log hstep
      rw [hcommit] at hlog
      rcases (h.outcome (fun b hb => hok b (List.mem_append_left _ hb)) ht).1.standing with
        ⟨hnil, -⟩ | ⟨⟨e, hone⟩, -⟩
      · simp [hnil] at hlog
      · rw [hone] at hlog
        have hlength := congrArg List.length hlog
        simp only [List.length_singleton, Option.toList_some, List.length_append] at hlength
        exact List.length_eq_zero_iff.mp (by omega)
    have hpassed : key.Passed W.db (u.call i).seen :=
      UniqueName.passed_of_forall hc (UniqueName.checkedAt_pos hc) (not_lt.mp hlen)
        (h.seen_base (fun b hb => hok b (by simp [hb])) hu hulog i)
    have hrun : u.run vaultEngine (a :: rest) = some s := by
      rw [Sys.run_cons, hstep]
      exact hrest
    obtain ⟨later, hlater⟩ := (Sys.run_seen hrun i).1
    obtain ⟨c', hc', rfl⟩ := h.ret_committed hok hr hw
    have hwin := h.committed_once hok hr hcommitted hc'
    obtain ⟨e, he, hcls, -⟩ := hlost i (by rw [hwin]; exact hij)
    rcases (hraise i e he).2 with ⟨-, hnot⟩ | ⟨hintegrity, -⟩
    · exact hnot (hlater ▸ hpassed.append later)
    · exact key.alreadyExists_ne (hcls.symm.trans hintegrity)
  · have hlog : s.world.log ≠ [] := by
      rcases hover ⟨0, hn⟩ with ⟨reply, hi⟩ | ⟨e, hi⟩
      · obtain ⟨c, hc, -⟩ := h.ret_committed hok hr hi
        exact List.ne_nil_of_mem hc
      · exact (hraise _ e hi).1
    obtain ⟨⟨w, ws⟩, hwin⟩ := List.exists_mem_of_ne_nil _ hlog
    refine ⟨w, ?_, fun i hi => ?_⟩
    · rcases hover w with hret | ⟨e, he⟩
      · exact hret
      · exact absurd rfl (h.raise_uncommitted hok hr he _ hwin)
    · rcases hover i with ⟨reply, hret⟩ | ⟨e, he⟩
      · obtain ⟨c, hc, rfl⟩ := h.ret_committed hok hr hret
        rw [h.committed_once hok hr hwin hc] at hi
        exact absurd rfl hi
      · have hnone := h.raise_uncommitted hok hr he
        refine ⟨e, he, ?_, hnone⟩
        rcases (hraise i e he).2 with ⟨hcls, -⟩ | ⟨-, hpassed⟩
        · exact hcls
        · obtain ⟨c, hc, hci⟩ := h.passed_committed hok hr hapart hlog hpassed
          exact absurd hci (hnone c hc)

/-- How a call has ended: with a result, or with an exception of this class. -/
def ended : Tx Reply → Option (Option ExnClass)
  | .ret _ => some none
  | .raise e => some (some e.cls)
  | _ => none

theorem ended_ret {p : Tx Reply} (h : ended p = some none) : ∃ reply, p = .ret reply := by
  cases p with
  | ret reply => exact ⟨reply, rfl⟩
  | _ => cases h

theorem ended_raise {p : Tx Reply} {cls : ExnClass} (h : ended p = some (some cls)) :
    ∃ e, p = .raise e ∧ e.cls = cls := by
  cases p with
  | raise e => exact ⟨e, rfl, Option.some.inj (Option.some.inj h)⟩
  | _ => cases h

/-- Two calls create a project under one slug. -/
def projectCalls : Fin 2 → ServiceCall
  | 0 => ⟨.createProject 10 "Website" "web" 1 none, sampleUow 1 10⟩
  | 1 => ⟨.createProject 10 "Web shop" "web" 1 none, sampleUow 1 10⟩

theorem actsAs_acme : ActsAs (sampleUow 1 10) acmeDb 10 1 .member :=
  ⟨⟨11, 1, 10, .owner, none, 0⟩, ⟨List.mem_singleton.mpr rfl, Or.inr ⟨rfl, rfl⟩⟩, rfl, rfl,
    by decide⟩

theorem race_projects : Race sampleDeployment projectCalls ⟨acmeDb, [], samplePast 10⟩
    (.projectSlug 10 "web") where
  begins := opens_acme.toBegins
  free := by
    rintro ⟨r, hr, hh⟩
    obtain rfl := List.mem_singleton.mp hr
    cases hh
  contends i := match i with
    | 0 => ⟨rfl, rfl, actsAs_acme⟩
    | 1 => ⟨rfl, rfl, actsAs_acme⟩
  owner i h := by
    obtain ⟨slug, h⟩ := h
    cases h

/-- Both look for the slug before either inserts it. -/
theorem name_race_iff_projects : ∃ s, (waiting sampleDeployment projectCalls
    ⟨acmeDb, [], samplePast 10⟩).run vaultEngine
      (sampleSteps 10 [0, 0, 1, 1, 0, 0, 0, 0, 1, 1]) = some s ∧
        WonByOne (.projectSlug 10 "web") s := by
  have hrun : ((waiting sampleDeployment projectCalls ⟨acmeDb, [], samplePast 10⟩).run vaultEngine
      (sampleSteps 10 [0, 0, 1, 1, 0, 0, 0, 0, 1, 1])).map (fun s => (ended (s.call 0).prog,
        ended (s.call 1).prog)) = some (some none, some (some .projectAlreadyExistsError)) := by
    rfl
  obtain ⟨s, hs, hends⟩ := Option.map_eq_some_iff.mp hrun
  simp only [Prod.mk.injEq] at hends
  have hover : Over s := fun i => match i with
    | 0 => Or.inl (ended_ret hends.1)
    | 1 => Or.inr ((ended_raise hends.2).imp fun _ h => h.1)
  refine ⟨s, hs, ((name_race_iff sampleDeployment projectCalls _ (.projectSlug 10 "web")
    (by decide) race_projects _ ?_ s hs).2 hover).mpr fun _ _ _ _ _ c hc => nomatch hc⟩
  intro a ha
  obtain ⟨p, -, rfl⟩ := List.mem_map.mp ha
  rfl

/-- Two calls create one environment. -/
def environmentCalls : Fin 2 → ServiceCall
  | 0 => ⟨.createEnvironment 12 10 "prod" 1, sampleUow 1 10⟩
  | 1 => ⟨.createEnvironment 12 10 "prod" 1, sampleUow 1 10⟩

/-- Both look for the name before the first one commits, and the second one raises the raw
error of the database. -/
theorem environment_race_raises_integrityError : ∃ s, (∀ i, (UniqueName.environmentName 12
      "prod").Contends sampleDeployment (environmentCalls i).uow acmeDb (environmentCalls i).op) ∧
    ¬ (UniqueName.environmentName 12 "prod").Taken acmeDb ∧
    Begins (⟨acmeDb, [], samplePast 10⟩ : VaultWorld 2) ∧
    (waiting sampleDeployment environmentCalls ⟨acmeDb, [], samplePast 10⟩).run vaultEngine
      (sampleSteps 10 [0, 0, 0, 1, 1, 1, 0, 0, 0, 0, 0, 0, 1]) = some s ∧ Over s ∧
    (∃ e, (s.call 1).prog = .raise e ∧ e.cls = .integrityError) ∧
    ¬ WonByOne (.environmentName 12 "prod") s := by
  have hrun : ((waiting sampleDeployment environmentCalls ⟨acmeDb, [], samplePast 10⟩).run
      vaultEngine (sampleSteps 10 [0, 0, 0, 1, 1, 1, 0, 0, 0, 0, 0, 0, 1])).map (fun s =>
        (ended (s.call 0).prog, ended (s.call 1).prog)) =
      some (some none, some (some .integrityError)) := by rfl
  obtain ⟨s, hs, hends⟩ := Option.map_eq_some_iff.mp hrun
  simp only [Prod.mk.injEq] at hends
  obtain ⟨reply, hret⟩ := ended_ret hends.1
  obtain ⟨e, hraise, hcls⟩ := ended_raise hends.2
  have hcontends : (UniqueName.environmentName 12 "prod").Contends sampleDeployment
      (sampleUow 1 10) acmeDb (.createEnvironment 12 10 "prod" 1) :=
    ⟨rfl, rfl, ⟨_, List.mem_singleton.mpr rfl, rfl, rfl⟩, actsAs_acme⟩
  have hover : Over s := fun i => match i with
    | 0 => Or.inl ⟨reply, hret⟩
    | 1 => Or.inr ⟨e, hraise⟩
  refine ⟨s, fun i => ?_, fun ⟨r, hr, _⟩ => (nomatch hr), opens_acme.toBegins, hs, hover,
    ⟨e, hraise, hcls⟩, ?_⟩
  · match i with
    | 0 => exact hcontends
    | 1 => exact hcontends
  rintro ⟨w, ⟨reply', hw⟩, hlost⟩
  match w with
  | 0 =>
    obtain ⟨e', he', hcls', -⟩ := hlost 1 (by decide)
    obtain rfl : e = e' := Prog.raise.inj (hraise.symm.trans he')
    cases hcls.symm.trans hcls'
  | 1 => cases hraise.symm.trans hw

end EnvVault
