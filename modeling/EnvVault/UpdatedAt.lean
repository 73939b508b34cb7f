import EnvVault.CallResults
import EnvVault.CommittedWrites
import EnvVault.SerialCalls
import EnvVault.VersionChain

/-!
# `created_at` and `updated_at`

The times of a row are set in the database: both by their default, `now()`, and
`updated_at` by a trigger with every UPDATE. A session loads them with the object and does
not read them again, so the object that an update returns has the times of the row before
the update.
-/
namespace EnvVault
open EnvVault.Relational EnvVault.Transactions

structure RowTimes where
  createdAt : Timestamp
  updatedAt : Timestamp
deriving DecidableEq

/-- The database with the times of its rows. -/
structure TimedDb where
  db : Db
  times : Table → UUID → RowTimes

/-- The tables with a trigger `trg_*_updated_at`. -/
def hasUpdatedAt (t : Table) : Bool :=
  t == .organizations || t == .users || t == .projects || t == .secrets

/-- What becomes of the times with a write of a transaction that began at `start`, which
is its `now()`. -/
def stampWrite (start : Timestamp) (times : Table → UUID → RowTimes) :
    RowWrite → Table → UUID → RowTimes
  | .insert t r => Function.update times t (Function.update (times t) (rowId t r) ⟨start, start⟩)
  | .update t r => if hasUpdatedAt t then Function.update times t (Function.update (times t)
      (rowId t r) { times t (rowId t r) with updatedAt := start }) else times
  | .delete _ _ => times

/-- An object as the session has loaded it, or as a response shows it. -/
structure Loaded (R : Type) where
  row : R
  times : RowTimes
deriving DecidableEq

namespace TimedDb

/-- A method that returns an object of the table, run in a transaction that began at
`start`: the object has the times with which it was loaded, and the writes that the method
commits set the times of their rows. -/
def serve (s : TimedDb) (inputs : ℕ → Input) (t : Table) (start : Timestamp) (k : ℕ)
    (p : Tx (RowOf t)) : Except Exn (Loaded (RowOf t)) × TimedDb :=
  ((p.exec vaultEngine inputs ⟨k, [], s.db⟩).1.map fun r => ⟨r, s.times t (rowId t r)⟩,
    ⟨(p.exec vaultEngine inputs ⟨k, [], s.db⟩).2.db,
      (p.committed vaultEngine inputs ⟨k, [], s.db⟩).foldl (stampWrite start) s.times⟩)

/-- The object is what the database holds. -/
def Holds (s : TimedDb) (t : Table) (object : Loaded (RowOf t)) : Prop :=
  object.row ∈ s.db t ∧ s.times t (rowId t object.row) = object.times

/-- The object is the stored row, and the answer to every GET by a member of the
organization. -/
structure Shows (s : TimedDb) (t : Table) (o : UUID) (get : UnitOfWork → UUID → Tx (RowOf t))
    (object : Loaded (RowOf t)) : Prop where
  stored : s.Holds t object
  answered : ∀ uow m, Acts uow s.db m → m.organizationId = o → ∀ inputs start k,
    (s.serve inputs t start k (get uow m.userId)).1 = .ok object

end TimedDb

section
variable {uow : UnitOfWork} {inputs : ℕ → Input} {ws : List RowWrite} {db : Db} {β : Type}
  {R : β → List RowWrite → Prop} {t : Table}

theorem leaves_commit_ret {b : β} (h : R b ws) :
    (UnitOfWork.commit.bind fun _ => .ret b).Leaves vaultEngine inputs ws db R := by
  rw [UnitOfWork.commit_bind]
  exact Prog.leaves_commit_bind (answers_setRlsContext.bind (f := fun _ => .ret b)
    Prog.answers_ret) (S := fun _ => True) (reads_setRlsContext.bind fun _ _ => trivial) h

/-- The UPDATE of a changed object, if it returns, has found the object. -/
theorem leaves_updateFlushed_bind {id : UUID} {set : RowOf t → RowOf t} {k : Unit → Tx β}
    (h : ∀ r ∈ vaultSchema.view ws db t, rowId t r = id →
      vaultSchema.admitsUpdate t (set r) (vaultSchema.view ws db) = true →
        (k ()).Leaves vaultEngine inputs (ws ++ [.update t (set r)]) db R) :
    ((uow.updateFlushed t id set).bind k).Leaves vaultEngine inputs ws db R := by
  rw [UnitOfWork.updateFlushed_bind]
  refine Prog.leaves_statement_bind fun inp vs n hr => ?_
  rw [vaultEngine_view] at hr
  rcases UnitOfWork.updateRow_ok hr with ⟨rfl, rfl, -⟩ | ⟨r, hmem, hid, -, rfl, rfl, hadm⟩
  · exact Prog.leaves_raise
  · exact h r hmem hid hadm

/-- An update that makes `r` of the row `p`: it stores `r` unless nothing has changed. -/
def Stores (t : Table) (db : Db) (p r : RowOf t) (vs : List RowWrite) : Prop :=
  r = p ∧ vs = [] ∨ r ≠ p ∧ vs = [.update t r] ∧ vaultSchema.admitsUpdate t r db = true

/-- The flush and the COMMIT of a loaded object. -/
theorem leaves_flush_commit (hdb : vaultSchema.Valid db) {p r : RowOf t} (hp : p ∈ db t)
    [DecidableEq (RowOf t)] {set : RowOf t → RowOf t} (hset : set p = r)
    {R : RowOf t → List RowWrite → Prop} (h : ∀ vs, Stores t db p r vs → R r vs) :
    ((if r ≠ p then uow.updateFlushed t (rowId t p) set else pure () : Tx Unit).bind fun _ =>
      UnitOfWork.commit.bind fun _ => .ret r).Leaves vaultEngine inputs [] db R := by
  by_cases hch : r = p
  · rw [if_neg (not_not.mpr hch)]
    exact leaves_commit_ret (h [] (Or.inl ⟨hch, rfl⟩))
  · rw [if_pos hch]
    refine leaves_updateFlushed_bind fun p' hp' hid hadm => ?_
    obtain rfl : p' = p := hdb.eq_of_id hp' hp hid
    rw [hset] at hadm ⊢
    exact leaves_commit_ret (h _ (Or.inr ⟨hch, rfl, hadm⟩))

theorem leaves_conflict {body : Tx β} {exn : Exn}
    (hb : body.Leaves vaultEngine inputs ws db R) :
    (exceptIntegrityError body (do UnitOfWork.rollback; throw exn)).Leaves vaultEngine inputs ws
      db R := by
  refine Prog.leaves_handle hb fun e so a so' hexec => ?_
  split at hexec
  · cases congrArg Prod.fst hexec
  · cases congrArg Prod.fst hexec

variable {o u : UUID}

theorem ProjectService.leaves_update (hdb : vaultSchema.Valid db) (id : UUID)
    (name slug description : Option String) :
    (ProjectService.update uow id o u name slug description).Leaves vaultEngine inputs [] db
      fun r vs => ∃ p ∈ db .projects, p.id = id ∧ p.organizationId = o ∧
        r = p.changed name slug description ∧ Stores .projects db p r vs := by
  refine (observes_requireOrgRole _).leaves (reads_requireOrgRole _ _ _) fun m hm => ?_
  refine (observes_requireOrgRoleAgain _ _).leaves (reads_requireOrgRoleAgain _ _ _ _)
    fun _ _ => ?_
  refine (ProjectService.observes_lookup id).leaves (ProjectService.reads_lookup _ _)
    fun p hp => ?_
  refine Prog.Reads.leaves (S := fun _ => True) ?_ fun _ _ => leaves_conflict ?_
  · split
    · trivial
    · split
      · exact (reads_selectOne _ _).bind fun _ _ => (reads_raiseIf _ _ _).mono fun _ _ => trivial
      · trivial
  exact leaves_flush_commit (t := .projects) hdb hp.1 (by simp only [changedColumn_eq])
    fun vs hvs => ⟨p, hp.1, hp.2.1, hp.2.2, rfl, hvs⟩

theorem OrganizationService.leaves_update (hdb : vaultSchema.Valid db)
    (name slug : Option String) :
    (OrganizationService.update uow o u name slug).Leaves vaultEngine inputs [] db
      fun r vs => ∃ p ∈ db .organizations, p.id = o ∧ r = p.changed name slug ∧
        Stores .organizations db p r vs := by
  refine (observes_requireOrgRole _).leaves (reads_requireOrgRole _ _ _) fun m hm => ?_
  refine OrganizationService.observes_getOrganization.leaves
    (OrganizationService.reads_getOrganization _) fun p hp => ?_
  refine Prog.Reads.leaves (S := fun _ => True) ?_ fun _ _ => leaves_conflict ?_
  · split
    · trivial
    · split
      · exact (reads_selectOne _ _).bind fun _ _ => (reads_raiseIf _ _ _).mono fun _ _ => trivial
      · trivial
  exact leaves_flush_commit (t := .organizations) hdb hp.1 (by simp only [changedColumn_eq])
    fun vs hvs => ⟨p, hp.1, hp.2, rfl, hvs⟩

end

section
variable {start : Timestamp} {s : TimedDb} {t : Table} {p r : RowOf t} {vs : List RowWrite}

/-- The database and the times that the writes leave. -/
def TimedDb.after (s : TimedDb) (start : Timestamp) (vs : List RowWrite) : TimedDb :=
  ⟨vaultSchema.view vs s.db, vs.foldl (stampWrite start) s.times⟩

/-- A method that returns leaves what it has committed. -/
theorem TimedDb.serve_ok {inputs : ℕ → Input} {k : ℕ} {body : Tx (RowOf t)}
    {R : RowOf t → List RowWrite → Prop} (hleaves : body.Leaves vaultEngine inputs [] s.db R)
    {response : Loaded (RowOf t)} (hserve : (s.serve inputs t start k body).1 = .ok response) :
    ∃ vs, R response.row vs ∧ response.times = s.times t (rowId t response.row) ∧
      (s.serve inputs t start k body).2 = s.after start vs := by
  have hdb := body.exec_db vaultEngine inputs ⟨k, [], s.db⟩
  rw [vaultEngine_view] at hdb
  cases hexec : body.exec vaultEngine inputs ⟨k, [], s.db⟩ with
  | mk result so =>
    unfold TimedDb.serve at hserve
    rw [hexec] at hserve
    cases result with
    | error e => cases hserve
    | ok a =>
      obtain rfl : Loaded.mk a (s.times t (rowId t a)) = response := Except.ok.inj hserve
      refine ⟨_, hleaves k a so hexec, rfl, ?_⟩
      unfold TimedDb.serve TimedDb.after
      rw [hdb]

namespace Stores

theorem mem (h : Stores t s.db p r vs) (hp : p ∈ s.db t) (hid : rowId t r = rowId t p) :
    r ∈ (s.after start vs).db t := by
  rcases h with ⟨rfl, rfl⟩ | ⟨-, rfl, -⟩
  · exact hp
  · exact Schema.mem_apply_update.mpr (Or.inl ⟨rfl, p, hp, hid.symm⟩)

theorem valid (h : Stores t s.db p r vs) (hdb : vaultSchema.Valid s.db) :
    vaultSchema.Valid (s.after start vs).db := by
  rcases h with ⟨-, rfl⟩ | ⟨-, rfl, hadm⟩
  · exact hdb
  · exact hdb.update hadm

/-- The trigger sets the time of a row that the update changes. -/
theorem times_eq_iff (h : Stores t s.db p r vs) (ht : hasUpdatedAt t = true)
    (hid : rowId t r = rowId t p) :
    (s.after start vs).times t (rowId t r) = s.times t (rowId t r) ↔
      r = p ∨ (s.times t (rowId t p)).updatedAt = start := by
  rcases h with ⟨hsame, rfl⟩ | ⟨hch, rfl, -⟩
  · exact iff_of_true rfl (Or.inl hsame)
  · have htimes : (s.after start [.update t r]).times t (rowId t r) =
        { s.times t (rowId t r) with updatedAt := start } := by
      simp [TimedDb.after, stampWrite, ht]
    rw [htimes, ← hid]
    constructor
    · intro heq
      exact Or.inr (congrArg RowTimes.updatedAt heq).symm
    · rintro (hsame | heq)
      · exact absurd hsame hch
      · rw [← heq]

/-- The object with the times of before is the stored row when nothing has changed, or
when the row had the time of the update already. -/
theorem holds_iff (h : Stores t s.db p r vs) (ht : hasUpdatedAt t = true) (hp : p ∈ s.db t)
    (hid : rowId t r = rowId t p) :
    (s.after start vs).Holds t ⟨r, s.times t (rowId t r)⟩ ↔
      r = p ∨ (s.times t (rowId t p)).updatedAt = start :=
  ⟨fun hholds => (h.times_eq_iff ht hid).mp hholds.2,
    fun hc => ⟨h.mem hp hid, (h.times_eq_iff ht hid).mpr hc⟩⟩

end Stores

/-- What the method answers is its result with the times that are stored. -/
theorem TimedDb.serve_answers {inputs : ℕ → Input} {k : ℕ} {body : Tx (RowOf t)}
    (h : body.Answers vaultEngine inputs [] s.db r) :
    (s.serve inputs t start k body).1 = .ok ⟨r, s.times t (rowId t r)⟩ := by
  obtain ⟨k', hk⟩ := h k
  unfold TimedDb.serve
  rw [hk]
  rfl

/-- A stored object is shown when the GETs find its row. -/
theorem TimedDb.shows_iff {o : UUID} {get : UnitOfWork → UUID → Tx (RowOf t)}
    {object : Loaded (RowOf t)} (hget : ∀ uow m, Acts uow s.db m → m.organizationId = o →
      ∀ inputs, (get uow m.userId).Answers vaultEngine inputs [] s.db object.row) :
    s.Shows t o get object ↔ s.Holds t object := by
  constructor
  · exact fun h => h.stored
  · intro h
    refine ⟨h, fun uow m hacts ho inputs start k => ?_⟩
    rw [TimedDb.serve_answers (hget uow m hacts ho inputs), h.2]

/-- An update that returns shows the stored row exactly under the condition of
`Stores.holds_iff`. -/
theorem TimedDb.serve_shows_iff {inputs : ℕ → Input} {k : ℕ} {body : Tx (RowOf t)} {o : UUID}
    {get : UnitOfWork → UUID → Tx (RowOf t)} (ht : hasUpdatedAt t = true) (hp : p ∈ s.db t)
    (hid : rowId t r = rowId t p) (hstores : Stores t s.db p r vs)
    {response : Loaded (RowOf t)} (hrow : response.row = r)
    (htimes : response.times = s.times t (rowId t response.row))
    (hafter : (s.serve inputs t start k body).2 = s.after start vs)
    (hget : ∀ uow m, Acts uow (s.after start vs).db m → m.organizationId = o → ∀ inputs,
      (get uow m.userId).Answers vaultEngine inputs [] (s.after start vs).db r) :
    (s.serve inputs t start k body).2.Shows t o get response ↔
      r = p ∨ (s.times t (rowId t p)).updatedAt = start := by
  obtain rfl : response = ⟨r, s.times t (rowId t r)⟩ := by
    obtain ⟨row, times⟩ := response
    dsimp only at hrow htimes
    rw [htimes, hrow]
  rw [hafter, TimedDb.shows_iff hget]
  exact hstores.holds_iff ht hp hid

end

section
variable {uow : UnitOfWork} {inputs : ℕ → Input} {db : Db} {m : Membership}

theorem Acts.answers_get_project (hdb : vaultSchema.Valid db) (hacts : Acts uow db m)
    {p : Project} (hp : p ∈ db .projects) (ho : p.organizationId = m.organizationId) :
    (ProjectService.get uow p.id m.organizationId m.userId).Answers vaultEngine inputs [] db p :=
  (hacts.answers_requireOrgRole hdb (Nat.zero_le _)).bind (hacts.answers_getProject hdb hp ho)

theorem Acts.answers_get_organization (hdb : vaultSchema.Valid db) (hacts : Acts uow db m)
    {o : Organization} (ho : o ∈ db .organizations) (hid : o.id = m.organizationId) :
    (OrganizationService.get uow m.organizationId).Answers vaultEngine inputs [] db o :=
  (answers_get (t := .organizations) hdb ho (hacts.may_organization hid) hid).bind
    Prog.answers_ret

end

/-- The object that an update returns is the stored row, and the answer to the GETs that
follow, exactly when the update changes nothing or the row had its time already. -/
theorem updates_show_iff (s : TimedDb) (hdb : vaultSchema.Valid s.db) (uow : UnitOfWork)
    (inputs : ℕ → Input) (start : Timestamp) (k : ℕ) (o u : UUID) :
    (∀ projectId name slug description response,
      (s.serve inputs .projects start k
        (ProjectService.update uow projectId o u name slug description)).1 = .ok response →
      ∃ p : Project, p ∈ s.db .projects ∧ p.id = projectId ∧
        ((s.serve inputs .projects start k
            (ProjectService.update uow projectId o u name slug description)).2.Shows .projects o
            (fun uow' u' => ProjectService.get uow' projectId o u') response ↔
          p.changed name slug description = p ∨
            (s.times .projects projectId).updatedAt = start)) ∧
    (∀ name slug response,
      (s.serve inputs .organizations start k
        (OrganizationService.update uow o u name slug)).1 = .ok response →
      ∃ p : Organization, p ∈ s.db .organizations ∧ p.id = o ∧
        ((s.serve inputs .organizations start k
            (OrganizationService.update uow o u name slug)).2.Shows .organizations o
            (fun uow' _ => OrganizationService.get uow' o) response ↔
          p.changed name slug = p ∨ (s.times .organizations o).updatedAt = start)) := by
  constructor
  · intro projectId name slug description response hserve
    obtain ⟨vs, ⟨p, hp, rfl, ho, hrow, hstores⟩, htimes, hafter⟩ :=
      TimedDb.serve_ok (ProjectService.leaves_update hdb projectId name slug description) hserve
    rw [hrow] at hstores
    refine ⟨p, hp, rfl, TimedDb.serve_shows_iff (t := .projects)
      (r := p.changed name slug description) rfl hp rfl hstores hrow htimes hafter
      fun uow' m hacts hm inputs' => ?_⟩
    obtain rfl := hm
    exact hacts.answers_get_project (hstores.valid hdb) (hstores.mem hp rfl) ho
  · intro name slug response hserve
    obtain ⟨vs, ⟨p, hp, rfl, hrow, hstores⟩, htimes, hafter⟩ :=
      TimedDb.serve_ok (OrganizationService.leaves_update hdb name slug) hserve
    rw [hrow] at hstores
    refine ⟨p, hp, rfl, TimedDb.serve_shows_iff (t := .organizations) (r := p.changed name slug)
      rfl hp rfl hstores hrow htimes hafter fun uow' m hacts hm inputs' => ?_⟩
    rw [← hm]
    exact hacts.answers_get_organization (hstores.valid hdb) (hstores.mem hp rfl) hm.symm

/-- A database whose rows are all of this time. -/
def TimedDb.since (db : Db) (time : Timestamp) : TimedDb := ⟨db, fun _ _ => ⟨time, time⟩⟩

def renameBilling (name : String) : Tx Project :=
  ProjectService.update (sampleUow 1 10) 12 10 1 (some name) none none

theorem updates_show_iff_same_name :
    vaultSchema.Valid (TimedDb.since acmeDb 50).db ∧
    ∃ response, ((TimedDb.since acmeDb 50).serve sampleInput .projects 100 0
        (renameBilling "billing")).1 = .ok response ∧
      ((TimedDb.since acmeDb 50).serve sampleInput .projects 100 0
        (renameBilling "billing")).2.Shows .projects 10
          (fun uow' u' => ProjectService.get uow' 12 10 u') response := by
  have hdb : vaultSchema.Valid (TimedDb.since acmeDb 50).db := (opens_acme (n := 0)).valid
  refine ⟨hdb, ⟨⟨12, 10, "billing", "billing", none, some 1⟩, ⟨50, 50⟩⟩, by rfl, ?_⟩
  obtain ⟨p, hp, hid, hiff⟩ := (updates_show_iff (TimedDb.since acmeDb 50) hdb (sampleUow 1 10)
    sampleInput 100 0 10 1).1 12 (some "billing") none none _ rfl
  refine hiff.mpr (Or.inl ?_)
  obtain rfl := List.mem_singleton.mp hp
  rfl

/-- The response to a rename at 100 has the time of before, 50; the GET has 100. -/
theorem rename_answers_old_time :
    ∃ response, ((TimedDb.since acmeDb 50).serve sampleInput .projects 100 0
        (renameBilling "invoices")).1 = .ok response ∧
      response.times.updatedAt = 50 ∧
      (((TimedDb.since acmeDb 50).serve sampleInput .projects 100 0
        (renameBilling "invoices")).2.serve sampleInput .projects 200 0
          (ProjectService.get (sampleUow 1 10) 12 10 1)).1.map (fun read => read.times.updatedAt) =
        .ok 100 ∧
      ¬ ((TimedDb.since acmeDb 50).serve sampleInput .projects 100 0
        (renameBilling "invoices")).2.Shows .projects 10
          (fun uow' u' => ProjectService.get uow' 12 10 u') response := by
  refine ⟨⟨⟨12, 10, "invoices", "billing", none, some 1⟩, ⟨50, 50⟩⟩, by rfl, rfl, by rfl,
    fun h => ?_⟩
  have htimes : (⟨50, 100⟩ : RowTimes) = ⟨50, 50⟩ := h.stored.2
  cases htimes

end EnvVault
