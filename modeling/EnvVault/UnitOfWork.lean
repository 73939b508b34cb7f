import EnvVault.Crypto
import EnvVault.Policies
import EnvVault.SoloRun

/-!
# The unit of work and its statements

A service call runs in one session: reads and writes of the repositories are
statements filtered by row-level security and checked against the constraints,
ORM changes are emitted at a flush, and `commit` is COMMIT followed by a new
transaction that sets the context again.
-/
namespace EnvVault
open EnvVault.Relational EnvVault.RowSecurity EnvVault.Transactions

/-- What a statement may take from outside the database: keys of
`gen_random_uuid()`, the clock, random bytes and a raw refresh token. -/
structure Input where
  uuid : UUID
  secondUuid : UUID
  now : Timestamp
  nonce : Nonce
  dek : Dek
  rawToken : String
deriving DecidableEq

def Input.ids (inp : Input) : List UUID := [inp.uuid, inp.secondUuid]

/-- Generated keys never repeat. -/
def freshInput (past : List Input) (inp : Input) : Bool :=
  decide (inp.uuid ≠ inp.secondUuid) && past.all fun p =>
    decide (inp.uuid ∉ p.ids ∧ inp.secondUuid ∉ p.ids)

def vaultEngine : Engine Input Db RowWrite := vaultSchema.engine freshInput

/-- The classes of the exceptions that reach a caller: those of the services, of
Python, of the cryptography library and of the database driver. -/
inductive ExnClass : Type
  | insufficientRoleError
  | membershipRequiredError
  | membershipNotFoundError
  | membershipAlreadyExistsError
  | userNotFoundError
  | lastOwnerError
  | invalidMembershipRoleError
  | organizationNotFoundError
  | organizationAlreadyExistsError
  | projectNotFoundError
  /-- The class of this name that the module `environment` defines for itself. -/
  | environmentProjectNotFoundError
  | projectAlreadyExistsError
  | environmentNotFoundError
  | environmentAlreadyExistsError
  | secretNotFoundError
  | secretAlreadyExistsError
  | encryptionKeyNotFoundError
  | emailAlreadyRegisteredError
  | invalidCredentialsError
  | inactiveUserError
  | invalidRefreshTokenError
  | valueError
  | runtimeError
  | invalidTag
  | unicodeDecodeError
  | assertionError
  | integrityError
  | staleDataError
  | multipleResultsFound
  | insufficientPrivilege
  | raisedByTrigger
  | numericValueOutOfRange
  | operationalError
deriving DecidableEq, Repr

structure Exn where
  cls : ExnClass
  detail : String
deriving DecidableEq, Repr

abbrev Tx (α : Type) : Type := Prog Input Db RowWrite Exn α

structure UnitOfWork where
  userId : Option UUID
  orgId : Option UUID
  /-- The role the connection runs as. -/
  role : DbRole
  /-- The role that owns the tables and the SECURITY DEFINER functions. -/
  schemaOwner : DbRole

def raiseIf (cond : Bool) (cls : ExnClass) (detail : String) : Tx Unit :=
  if cond then throw ⟨cls, detail⟩ else pure ()

def tableName : Table → String
  | .users => "users"
  | .refreshTokens => "refresh_tokens"
  | .organizations => "organizations"
  | .memberships => "memberships"
  | .projects => "projects"
  | .environments => "environments"
  | .encryptionKeys => "encryption_keys"
  | .secrets => "secrets"
  | .secretVersions => "secret_versions"
  | .apiTokens => "api_tokens"
  | .auditLogs => "audit_logs"

def rlsViolation (t : Table) : Exn :=
  ⟨.insufficientPrivilege, "new row violates row-level security policy for table " ++ tableName t⟩

def integrityViolation (t : Table) : Exn :=
  ⟨.integrityError, "a constraint of table " ++ tableName t ++ " is violated"⟩

/-- `reject_audit_log_mutation`. -/
def auditLogMutation : Exn :=
  ⟨.raisedByTrigger, "audit_logs es de solo escritura (append-only)"⟩

def referentialExn : ReferentialError Table → Exn
  | .violated t => integrityViolation t
  | .rejected _ => auditLogMutation
  | .exhausted => ⟨.operationalError, "stack depth limit exceeded"⟩

namespace UnitOfWork
variable (uow : UnitOfWork)

def context : RlsContext := ⟨uow.userId, uow.orgId⟩

def may (db : Db) (a : Access) (t : Table) (r : RowOf t) : Bool :=
  mayAccess uow.role uow.schemaOwner uow.context db a t r

/-- The rows that a SELECT with this WHERE clause finds in a view. -/
def found (t : Table) (cond : RowOf t → Bool) (v : Db) : List (RowOf t) :=
  (v t).filter fun r => uow.may v .select t r && cond r

def select (t : Table) (cond : RowOf t → Bool) : Tx (List (RowOf t)) :=
  Prog.statement fun _ v => .ok ([], uow.found t cond v)

/-- `result.scalar_one_or_none()`. -/
def scalarOneOrNone {α : Type} : List α → Tx (Option α)
  | [] => pure none
  | [a] => pure (some a)
  | _ => throw ⟨.multipleResultsFound, "Multiple rows were found when one or none was required"⟩

def selectOne (t : Table) (cond : RowOf t → Bool) : Tx (Option (RowOf t)) := do
  let rows ← uow.select t cond
  scalarOneOrNone rows

theorem selectOne_bind {β : Type} {t : Table} (cond : RowOf t → Bool)
    (k : Option (RowOf t) → Tx β) : (uow.selectOne t cond).bind k =
      (uow.select t cond).bind fun rows => (scalarOneOrNone rows).bind k :=
  Prog.bind_assoc _ _ _

/-- `BaseRepository.get`. -/
def get (t : Table) (id : UUID) : Tx (Option (RowOf t)) :=
  uow.selectOne t fun r => rowId t r == id

/-- `INSERT ... RETURNING`: the new row must also pass the SELECT policies. -/
def insertRow (t : Table) (r : RowOf t) (v : Db) : Except Exn (List RowWrite × RowOf t) :=
  if !(uow.may v .insert t r && uow.may v .select t r) then .error (rlsViolation t)
  else if !vaultSchema.admitsInsert t r v then .error (integrityViolation t)
  else .ok ([.insert t r], r)

/-- The INSERT of a flushed object. -/
def insertFlushed (t : Table) (row : Input → RowOf t) : Tx (RowOf t) :=
  Prog.statement fun inp v => uow.insertRow t (row inp) v

/-- The row that an UPDATE by id reaches. -/
def reached (t : Table) (id : UUID) (cond : RowOf t → Bool) (v : Db) : Option (RowOf t) :=
  (v t).find? fun r => rowId t r == id && cond r && uow.may v .select t r &&
    uow.may v .updateOld t r

/-- The UPDATE of the row it reaches, with the row count. -/
def updateRow (t : Table) (id : UUID) (cond : RowOf t → Bool) (set : RowOf t → RowOf t) (v : Db) :
    Except Exn (List RowWrite × ℕ) :=
  match uow.reached t id cond v with
  | none => .ok ([], 0)
  | some r =>
    if vaultSchema.appendOnly t then .error auditLogMutation
    else if !(uow.may v .updateNew t (set r) && uow.may v .select t (set r)) then
      .error (rlsViolation t)
    else if !vaultSchema.admitsUpdate t (set r) v then .error (integrityViolation t)
    else .ok ([.update t (set r)], 1)

/-- `UPDATE ... SET ... WHERE id = id AND cond`. -/
def updateById (t : Table) (id : UUID) (cond : RowOf t → Bool) (set : Input → RowOf t → RowOf t) :
    Tx ℕ :=
  Prog.statement fun inp v => uow.updateRow t id cond (set inp) v

/-- The UPDATE of a changed object, which must find its row. -/
def updateFlushed (t : Table) (id : UUID) (set : RowOf t → RowOf t) : Tx Unit := do
  let count ← uow.updateById t id (fun _ => true) fun _ => set
  raiseIf (count == 0) .staleDataError
    ("UPDATE statement on table '" ++ tableName t ++ "' expected to update 1 row(s)")

theorem updateFlushed_bind {β : Type} {t : Table} (id : UUID) (set : RowOf t → RowOf t)
    (k : Unit → Tx β) : (uow.updateFlushed t id set).bind k =
      (uow.updateById t id (fun _ => true) fun _ => set).bind fun count =>
        (raiseIf (count == 0) .staleDataError ("UPDATE statement on table '" ++ tableName t ++
          "' expected to update 1 row(s)")).bind k :=
  Prog.bind_assoc _ _ _

def updateEach (t : Table) (cond : RowOf t → Bool) (set : Input → RowOf t → RowOf t) :
    List UUID → Tx Unit
  | [] => pure ()
  | id :: ids => do
    let _ ← uow.updateById t id cond set
    updateEach t cond set ids

/-- `UPDATE ... WHERE cond`: the rows of the statement's snapshot are locked one
after the other, and the condition is evaluated again on each locked row. -/
def updateWhere (t : Table) (cond : RowOf t → Bool) (set : Input → RowOf t → RowOf t) :
    Tx Unit := do
  let rows ← uow.select t cond
  uow.updateEach t cond set (rows.map (rowId t))

theorem updateEach_cons_bind {β : Type} {t : Table} (cond : RowOf t → Bool)
    (set : Input → RowOf t → RowOf t) (id : UUID) (ids : List UUID) (k : Unit → Tx β) :
    (uow.updateEach t cond set (id :: ids)).bind k =
      (uow.updateById t id cond set).bind fun _ => (uow.updateEach t cond set ids).bind k :=
  Prog.bind_assoc _ _ _

theorem updateWhere_bind {β : Type} {t : Table} (cond : RowOf t → Bool)
    (set : Input → RowOf t → RowOf t) (k : Unit → Tx β) :
    (uow.updateWhere t cond set).bind k =
      (uow.select t cond).bind fun rows =>
        (uow.updateEach t cond set (rows.map (rowId t))).bind k :=
  Prog.bind_assoc _ _ _

/-- The row and everything its foreign keys take along. -/
def deleteRow (t : Table) (id : UUID) (v : Db) : Except Exn (List RowWrite × Unit) :=
  if (v t).any fun r => rowId t r == id && uow.may v .select t r && uow.may v .delete t r then
    match vaultSchema.deleteRow t id v with
    | .error e => .error (referentialExn e)
    | .ok ws => .ok (ws, ())
  else .ok ([], ())

theorem any_deletable_iff {t : Table} {id : UUID} {v : Db} :
    ((v t).any fun r => rowId t r == id && uow.may v .select t r && uow.may v .delete t r) = true ↔
      ∃ r ∈ v t, rowId t r = id ∧ uow.may v .select t r = true ∧ uow.may v .delete t r = true := by
  simp [List.any_eq_true, and_assoc]

/-- `BaseRepository.delete`. -/
def delete (t : Table) (id : UUID) : Tx Unit := Prog.statement fun _ v => uow.deleteRow t id v

/-- `set_rls_context`: two calls of `set_config`. -/
def setRlsContext : Tx Unit := do
  Prog.statement fun _ _ => .ok ([], ())
  Prog.statement fun _ _ => .ok ([], ())

/-- COMMIT ends the transaction and with it the local settings. -/
def commit : Tx Unit := do
  Prog.commitNow
  setRlsContext

theorem commit_bind {β : Type} (k : Unit → Tx β) :
    commit.bind k = Prog.commitNow.bind fun _ => setRlsContext.bind k :=
  Prog.bind_assoc _ _ _

def rollback : Tx Unit := Prog.rollbackNow

end UnitOfWork

/-- `except IntegrityError`. -/
def exceptIntegrityError {α : Type} (body : Tx α) (handler : Tx α) : Tx α :=
  tryCatch body fun e => if e.cls = .integrityError then handler else throw e

/-- `os.urandom` and the clock, read between two statements. -/
def readInput : Tx Input := Prog.statement fun inp _ => .ok ([], inp)

/-- The statement is lawful and writes to these tables only. -/
def WritesTo (ts : List Table) (writes : Input → Db → List RowWrite) : Prop :=
  ∀ inp v, vaultSchema.LawfulWrites Input.ids inp v (writes inp v) ∧
    ∀ w ∈ writes inp v, w.table ∈ ts

theorem writesTo_nil (ts : List Table) : WritesTo ts fun _ _ => [] :=
  fun inp v => ⟨Schema.lawfulWrites_nil inp v, by simp⟩

theorem comprises_of_ok {α : Type} {f : Input → Db → Except Exn (List RowWrite × α)}
    {ts : List Table} (h : ∀ inp v ws a, f inp v = .ok (ws, a) →
      vaultSchema.LawfulWrites Input.ids inp v ws ∧ ∀ w ∈ ws, w.table ∈ ts) :
    (Prog.statement f).Comprises (WritesTo ts) := by
  refine .statement fun inp v => ?_
  dsimp only
  cases hf : f inp v with
  | ok r => exact h inp v r.1 r.2 hf
  | error e => exact writesTo_nil ts inp v

theorem comprises_raiseIf {ts : List Table} (cond : Bool) (cls : ExnClass) (detail : String) :
    (raiseIf cond cls detail).Comprises (WritesTo ts) := by
  unfold raiseIf
  split <;> trivial

theorem comprises_readInput {ts : List Table} : readInput.Comprises (WritesTo ts) :=
  .statement (writesTo_nil ts)

theorem comprises_exceptIntegrityError {ts : List Table} {α : Type} {body handler : Tx α}
    (hb : body.Comprises (WritesTo ts)) (hh : handler.Comprises (WritesTo ts)) :
    (exceptIntegrityError body handler).Comprises (WritesTo ts) := by
  refine .handle hb fun e => ?_
  split
  · exact hh
  · trivial

namespace UnitOfWork
variable {uow : UnitOfWork} {ts : List Table} {t : Table}

theorem comprises_select (cond : RowOf t → Bool) :
    (uow.select t cond).Comprises (WritesTo ts) :=
  .statement (writesTo_nil ts)

theorem comprises_scalarOneOrNone {α : Type} (rows : List α) :
    (scalarOneOrNone rows).Comprises (WritesTo ts) := by
  unfold scalarOneOrNone
  split <;> trivial

theorem comprises_selectOne (cond : RowOf t → Bool) :
    (uow.selectOne t cond).Comprises (WritesTo ts) :=
  .bind (comprises_select cond) comprises_scalarOneOrNone

theorem comprises_get (id : UUID) : (uow.get t id).Comprises (WritesTo ts) :=
  comprises_selectOne _

/-- What an INSERT that succeeds has checked and written. -/
theorem insertRow_ok {r r' : RowOf t} {v : Db} {ws : List RowWrite}
    (h : uow.insertRow t r v = .ok (ws, r')) :
    ws = [.insert t r] ∧ r' = r ∧ vaultSchema.admitsInsert t r v = true := by
  rw [insertRow] at h
  split at h
  · cases h
  · split at h
    · cases h
    · rename_i hadm
      simp only [Except.ok.injEq, Prod.mk.injEq] at h
      exact ⟨h.1.symm, h.2.symm, by simpa using hadm⟩

theorem comprises_insertFlushed {row : Input → RowOf t} (ht : t ∈ ts)
    (hid : ∀ inp, rowId t (row inp) = inp.uuid) :
    (uow.insertFlushed t row).Comprises (WritesTo ts) := by
  refine comprises_of_ok fun inp v ws r h => ?_
  obtain ⟨rfl, -, hadm⟩ := insertRow_ok h
  refine ⟨⟨?_, by simp, fun hv _ => hv.insert hadm⟩, by simpa [Write.table] using ht⟩
  intro p hp
  obtain rfl : p = (t, rowId t (row inp)) := by simpa using hp
  rw [hid]
  exact List.mem_cons_self

/-- What an UPDATE that succeeds has done: nothing, or it stored a new version of
the row it reached. -/
theorem updateRow_ok {id : UUID} {cond : RowOf t → Bool} {set : RowOf t → RowOf t} {v : Db}
    {ws : List RowWrite} {n : ℕ} (h : uow.updateRow t id cond set v = .ok (ws, n)) :
    (ws = [] ∧ n = 0 ∧ uow.reached t id cond v = none) ∨ ∃ r ∈ v t, rowId t r = id ∧
      cond r = true ∧ n = 1 ∧ ws = [.update t (set r)] ∧
        vaultSchema.admitsUpdate t (set r) v = true := by
  rw [updateRow] at h
  split at h
  · rename_i hnone
    simp only [Except.ok.injEq, Prod.mk.injEq] at h
    exact Or.inl ⟨h.1.symm, h.2.symm, hnone⟩
  · rename_i r hr
    have hcond := List.find?_some hr
    simp only [Bool.and_eq_true, beq_iff_eq] at hcond
    split at h
    · cases h
    · split at h
      · cases h
      · split at h
        · cases h
        · rename_i hadm
          simp only [Except.ok.injEq, Prod.mk.injEq] at h
          exact Or.inr ⟨r, List.mem_of_find?_eq_some hr, hcond.1.1.1, hcond.1.1.2, h.2.symm,
            h.1.symm, by simpa using hadm⟩

theorem comprises_updateById {id : UUID} {cond : RowOf t → Bool}
    {set : Input → RowOf t → RowOf t} (ht : t ∈ ts) :
    (uow.updateById t id cond set).Comprises (WritesTo ts) := by
  refine comprises_of_ok fun inp v ws n h => ?_
  rcases updateRow_ok h with ⟨rfl, -⟩ | ⟨r, -, -, -, -, rfl, hadm⟩
  · exact writesTo_nil ts inp v
  · exact ⟨⟨by simp, by simp, fun hv _ => hv.update hadm⟩, by simpa [Write.table] using ht⟩

theorem comprises_updateFlushed {id : UUID} {set : RowOf t → RowOf t} (ht : t ∈ ts) :
    (uow.updateFlushed t id set).Comprises (WritesTo ts) :=
  .bind (comprises_updateById ht) fun _ => comprises_raiseIf _ _ _

theorem comprises_updateEach {cond : RowOf t → Bool} {set : Input → RowOf t → RowOf t}
    (ht : t ∈ ts) (ids : List UUID) : (uow.updateEach t cond set ids).Comprises (WritesTo ts) := by
  induction ids with
  | nil => trivial
  | cons id ids ih => exact .bind (comprises_updateById ht) fun _ => ih

theorem comprises_updateWhere {cond : RowOf t → Bool} {set : Input → RowOf t → RowOf t}
    (ht : t ∈ ts) : (uow.updateWhere t cond set).Comprises (WritesTo ts) :=
  .bind (comprises_select cond) fun _ => comprises_updateEach ht _

/-- What a DELETE that succeeds has done. -/
theorem deleteRow_ok {id : UUID} {v : Db} {ws : List RowWrite} {a : Unit}
    (h : uow.deleteRow t id v = .ok (ws, a)) :
    ws = [] ∨ vaultSchema.deleteRow t id v = .ok ws := by
  rw [deleteRow] at h
  split at h
  · split at h
    · cases h
    · rename_i us hus
      simp only [Except.ok.injEq, Prod.mk.injEq] at h
      exact Or.inr (h.1 ▸ hus)
  · simp only [Except.ok.injEq, Prod.mk.injEq] at h
    exact Or.inl h.1.symm

theorem comprises_delete {id : UUID} (hts : ∀ t, t ∈ ts) :
    (uow.delete t id).Comprises (WritesTo ts) := by
  refine comprises_of_ok fun inp v ws a h => ⟨?_, fun w _ => hts _⟩
  rcases deleteRow_ok h with rfl | h
  · exact Schema.lawfulWrites_nil inp v
  · have hins := Schema.deleteRow_inserted h
    exact ⟨by simp [hins], by simp [hins], fun hv _ => hv.deleteRow vaultSchema_clearsOk h⟩

theorem comprises_setRlsContext : setRlsContext.Comprises (WritesTo ts) :=
  .bind (.statement (writesTo_nil ts)) fun _ => .statement (writesTo_nil ts)

theorem comprises_commit : commit.Comprises (WritesTo ts) :=
  ⟨comprises_setRlsContext, fun _ => trivial⟩

theorem comprises_rollback : rollback.Comprises (WritesTo ts) := trivial

end UnitOfWork

end EnvVault
