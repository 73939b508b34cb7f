import Mathlib.Data.List.Basic
import Mathlib.Data.List.Induction
import Mathlib.Tactic.Common

/-!
# The row-level security context of a unit of work

The settings `app.current_user_id` and `app.current_org_id` are local to a
transaction, and the transactions of a session begin and end implicitly. The unit
of work sets them when it is entered and again after each COMMIT, and not after a
ROLLBACK.
-/
namespace EnvVault.SessionContext

/-- The values of `app.current_user_id` and `app.current_org_id`. -/
structure Settings where
  currentUserId : String
  currentOrgId : String
deriving DecidableEq

/-- An open transaction on the server with its local settings; after a failed
statement the server refuses all others. -/
structure Transaction where
  localUserId : Option String
  localOrgId : Option String
  aborted : Bool

def Transaction.begun : Transaction := ⟨none, none, false⟩

/-- A connection of the pool: the session values of the settings, and the open
transaction. -/
structure Connection where
  sessionValues : Settings
  transaction : Option Transaction

namespace Connection

/-- `current_setting`: the local value, else the session value. -/
def settings (c : Connection) : Settings :=
  match c.transaction with
  | none => c.sessionValues
  | some t => ⟨t.localUserId.getD c.sessionValues.currentUserId,
      t.localOrgId.getD c.sessionValues.currentOrgId⟩

def aborted (c : Connection) : Bool := c.transaction.any Transaction.aborted

/-- A statement begins a transaction if none is open; a failed one aborts it. -/
def execute (effect : Transaction → Transaction) (ok : Bool) (c : Connection) : Connection :=
  let t := c.transaction.getD .begun
  { c with transaction := some (if ok then effect t else { t with aborted := true }) }

/-- COMMIT or ROLLBACK. -/
def ended (c : Connection) : Connection := { c with transaction := none }

end Connection

/-- The part of an `AsyncSession` that matters here: objects waiting for a flush,
and whether it refuses all statements until `rollback`. -/
structure AsyncSession where
  pending : Bool
  invalid : Bool

/-- The arguments of `SqlAlchemyUnitOfWork`. -/
structure SqlAlchemyUnitOfWork where
  userId : Option String
  orgId : Option String

/-- `str(user_id) if user_id else ""` for both settings. -/
def SqlAlchemyUnitOfWork.settings (uow : SqlAlchemyUnitOfWork) : Settings :=
  ⟨uow.userId.getD "", uow.orgId.getD ""⟩

/-- The connection, the session of the unit of work while it is open, the settings
that its queries were executed with, and whether a ROLLBACK came after the settings
were last set. The last two are history. -/
structure State where
  connection : Connection
  session : Option AsyncSession
  observed : List Settings
  rolledBack : Bool

namespace State

/-- A statement of the session would reach the server and be executed. -/
def executes (s : State) : Bool :=
  s.session.any (fun σ => !σ.invalid) && !s.connection.aborted

/-- A query issued through the unit of work. -/
def query (ok : Bool) (s : State) : State :=
  if s.executes then
    { s with
      connection := s.connection.execute id ok
      observed := s.observed ++ [s.connection.settings] }
  else s

/-- `SELECT set_config(..., true)`. -/
def setConfig (effect : Transaction → Transaction) (ok : Bool) (s : State) : State :=
  if s.executes then { s with connection := s.connection.execute effect ok } else s

/-- `set_rls_context`: the second statement follows only the success of the first. -/
def setRlsContext (uow : SqlAlchemyUnitOfWork) (setUser setOrg : Bool) (s : State) : State :=
  let t := (s.setConfig (fun t => { t with localUserId := some (uow.userId.getD "") })
    setUser).setConfig (fun t => { t with localOrgId := some (uow.orgId.getD "") }) setOrg
  { t with rolledBack := s.rolledBack && !t.executes }

/-- The server ends the transaction. -/
def endTransaction (s : State) : State := { s with connection := s.connection.ended }

/-- The session has seen its transaction fail and wants a `rollback`. -/
def invalidate (s : State) : State :=
  { s.endTransaction with session := s.session.map fun _ => ⟨false, true⟩ }

def hasPending (s : State) : Bool := s.session.any AsyncSession.pending

/-- `session.flush()`: the INSERTs and UPDATEs of the pending objects. -/
def flush (ok : Bool) (s : State) : State :=
  if s.hasPending then
    let t := s.query ok
    if t.executes then { t with session := t.session.map fun σ => { σ with pending := false } }
    else t.invalidate
  else s

/-- `session.commit()`, and then the context for the next transaction. COMMIT of an
aborted transaction is a ROLLBACK that the client does not notice. -/
def commit (uow : SqlAlchemyUnitOfWork) (flushed durable setUser setOrg : Bool) (s : State) :
    State :=
  let t := s.flush flushed
  if t.session.any AsyncSession.invalid then t
  else if t.connection.transaction.isSome && !durable then t.invalidate
  else t.endTransaction.setRlsContext uow setUser setOrg

end State

/-- The calls of a unit of work, with the success of the statements they issue. -/
inductive UowCall : Type
  | enter (setUser setOrg : Bool)
  | add
  | query (ok : Bool)
  | flush (ok : Bool)
  | commit (flushed durable setUser setOrg : Bool)
  | rollback
  | exit

/-- A new session, on a connection on which the pool has rolled back whatever its
last user left open. -/
def State.opened (s : State) : State :=
  { s.endTransaction with session := some ⟨false, false⟩, rolledBack := false }

def State.call (uow : SqlAlchemyUnitOfWork) (s : State) : UowCall → State
  | .enter setUser setOrg => s.opened.setRlsContext uow setUser setOrg
  | .add => { s with session := s.session.map fun σ => { σ with pending := true } }
  | .query ok => s.query ok
  | .flush ok => s.flush ok
  | .commit flushed durable setUser setOrg => s.commit uow flushed durable setUser setOrg
  | .rollback =>
    { s.endTransaction with session := s.session.map fun _ => ⟨false, false⟩, rolledBack := true }
  | .exit => { s.endTransaction with session := none }

def State.run (uow : SqlAlchemyUnitOfWork) (s : State) (calls : List UowCall) : State :=
  calls.foldl (State.call uow) s

/-- The connection after one unit of work has used it and has been left. -/
def Connection.afterUnit (c : Connection) (unit : SqlAlchemyUnitOfWork × List UowCall) :
    Connection :=
  ((State.run unit.1 ⟨c, none, [], false⟩ unit.2).call unit.1 .exit).connection

/-- A new unit of work on a connection that these units of work have used before. -/
def State.initial (sessionValues : Settings)
    (earlier : List (SqlAlchemyUnitOfWork × List UowCall)) : State :=
  ⟨earlier.foldl Connection.afterUnit ⟨sessionValues, none⟩, none, [], false⟩

/-- The call would execute a query, its own or that of a flush. -/
def State.Emits (s : State) : UowCall → Bool
  | .query _ => s.executes
  | .flush _ => s.executes && s.hasPending
  | .commit _ _ _ _ => s.executes && s.hasPending
  | _ => false

section
variable {uow : SqlAlchemyUnitOfWork} {base : Settings} {s : State}

@[simp] theorem Connection.sessionValues_execute (effect : Transaction → Transaction) (ok : Bool)
    (c : Connection) : (c.execute effect ok).sessionValues = c.sessionValues := rfl

/-- A query leaves the settings as they are, also when it is the one that begins
the transaction. -/
theorem Connection.settings_execute_id (ok : Bool) (c : Connection) :
    (c.execute id ok).settings = c.settings := by
  unfold Connection.execute Connection.settings
  cases c.transaction <;> cases ok <;> rfl

/-- A state in which a query would be executed with the settings of the unit of
work, or after a ROLLBACK with the session values. -/
structure Tracks (uow : SqlAlchemyUnitOfWork) (base : Settings) (s : State) : Prop where
  values : s.connection.sessionValues = base
  held : s.executes = true →
    s.connection.settings = if s.rolledBack then base else uow.settings

theorem executes_invalidate (s : State) : s.invalidate.executes = false := by
  cases hs : s.session <;> simp [State.invalidate, State.executes, State.endTransaction, hs]

theorem Tracks.invalidate (h : Tracks uow base s) : Tracks uow base s.invalidate :=
  ⟨h.values, fun he => by simp [executes_invalidate] at he⟩

/-- The settings after `set_rls_context`, begun outside of a transaction. -/
theorem tracks_setRlsContext (hv : s.connection.sessionValues = base)
    (hn : s.connection.transaction = none) (setUser setOrg : Bool) :
    Tracks uow base (s.setRlsContext uow setUser setOrg) := by
  obtain ⟨⟨values, transaction⟩, session, observed, rolledBack⟩ := s
  obtain rfl : values = base := hv
  obtain rfl : transaction = none := hn
  -- an open and valid session executes both statements, unless the first fails
  rcases session with _ | ⟨pending, _ | _⟩
  · exact ⟨rfl, fun h => by cases h⟩
  · cases setUser with
    | false => exact ⟨rfl, fun h => by cases h⟩
    | true =>
      cases setOrg with
      | false => exact ⟨rfl, fun h => by cases h⟩
      | true =>
        have hset : (State.setRlsContext uow true true ⟨⟨values, none⟩, some ⟨pending, false⟩,
            observed, rolledBack⟩).rolledBack = false := Bool.and_false _
        exact ⟨rfl, fun _ => by rw [hset]; rfl⟩
  · exact ⟨rfl, fun h => by cases h⟩

theorem Tracks.query (h : Tracks uow base s) (ok : Bool) : Tracks uow base (s.query ok) := by
  unfold State.query
  split
  · rename_i he
    exact ⟨h.values, fun _ => (Connection.settings_execute_id ok _).trans (h.held he)⟩
  · exact h

theorem Tracks.flush (h : Tracks uow base s) (ok : Bool) : Tracks uow base (s.flush ok) := by
  unfold State.flush
  split
  · dsimp only
    split
    · rename_i he
      exact ⟨(h.query ok).values, fun _ => (h.query ok).held he⟩
    · exact (h.query ok).invalidate
  · exact h

theorem Tracks.commit (h : Tracks uow base s) (flushed durable setUser setOrg : Bool) :
    Tracks uow base (s.commit uow flushed durable setUser setOrg) := by
  have ht := h.flush flushed
  unfold State.commit
  dsimp only
  split
  · exact ht
  · split
    · exact ht.invalidate
    · exact tracks_setRlsContext (s := (s.flush flushed).endTransaction) ht.values rfl _ _

/-- Every call keeps the settings where they belong. -/
theorem Tracks.call (h : Tracks uow base s) (c : UowCall) : Tracks uow base (s.call uow c) := by
  cases c with
  | enter setUser setOrg =>
    exact tracks_setRlsContext (s := s.opened) h.values rfl _ _
  | add =>
    refine ⟨h.values, fun he => h.held ?_⟩
    cases hs : s.session <;> simp_all [State.call, State.executes]
  | query ok => exact h.query ok
  | flush ok => exact h.flush ok
  | commit flushed durable setUser setOrg => exact h.commit flushed durable setUser setOrg
  | rollback => exact ⟨h.values, fun _ => h.values⟩
  | exit => exact ⟨h.values, fun he => by simp [State.call, State.executes] at he⟩

theorem Tracks.run (h : Tracks uow base s) (calls : List UowCall) :
    Tracks uow base (s.run uow calls) := by
  induction calls generalizing s with
  | nil => exact h
  | cons c calls ih => exact ih (h.call c)

theorem observed_setRlsContext (setUser setOrg : Bool) :
    (s.setRlsContext uow setUser setOrg).observed = s.observed := by
  have hset : ∀ (t : State) effect ok, (t.setConfig effect ok).observed = t.observed := by
    intro t effect ok
    unfold State.setConfig
    split <;> rfl
  simp only [State.setRlsContext, hset]

theorem observed_query (ok : Bool) : (s.query ok).observed =
    s.observed ++ if s.executes then [s.connection.settings] else [] := by
  unfold State.query
  split <;> simp

theorem observed_flush (ok : Bool) : (s.flush ok).observed =
    s.observed ++ if s.executes && s.hasPending then [s.connection.settings] else [] := by
  unfold State.flush
  by_cases hp : s.hasPending = true
  · have hq : (s.flush ok).observed = (s.query ok).observed := by
      simp only [State.flush, hp, if_true]
      split <;> rfl
    simpa [State.flush, hp, observed_query] using hq
  · simp [hp]

/-- A call adds the settings its query is executed with, and otherwise nothing. -/
theorem observed_call (c : UowCall) : (s.call uow c).observed =
    s.observed ++ if s.Emits c then [s.connection.settings] else [] := by
  cases c with
  | enter setUser setOrg =>
    simp [State.call, observed_setRlsContext, State.opened, State.endTransaction, State.Emits]
  | add => simp [State.call, State.Emits]
  | query ok => exact observed_query ok
  | flush ok => exact observed_flush ok
  | commit flushed durable setUser setOrg =>
    have hflush : (s.call uow (.commit flushed durable setUser setOrg)).observed =
        (s.flush flushed).observed := by
      simp only [State.call, State.commit]
      split
      · rfl
      · split
        · rfl
        · exact observed_setRlsContext _ _
    rw [hflush]
    exact observed_flush flushed
  | rollback => simp [State.call, State.Emits, State.endTransaction]
  | exit => simp [State.call, State.Emits, State.endTransaction]

/-- The settings that a run of calls adds come from the calls of it that emit a query. -/
theorem mem_observed_run {calls : List UowCall} {settings : Settings} :
    settings ∈ (s.run uow calls).observed ↔ settings ∈ s.observed ∨ ∃ pre c,
      pre ++ [c] <+: calls ∧ (s.run uow pre).Emits c = true ∧
        (s.run uow pre).connection.settings = settings := by
  induction calls using List.reverseRecOn with
  | nil =>
    refine ⟨Or.inl, ?_⟩
    rintro (h | ⟨pre, c, hpre, -⟩)
    · exact h
    · simp at hpre
  | append_singleton calls c ih =>
    have hrun : s.run uow (calls ++ [c]) = (s.run uow calls).call uow c := by simp [State.run]
    rw [hrun, observed_call, List.mem_append, ih]
    constructor
    · rintro ((h | ⟨pre, c', hpre, h⟩) | h)
      · exact Or.inl h
      · exact Or.inr ⟨pre, c', hpre.trans (List.prefix_append _ _), h⟩
      · split at h
        · rename_i he
          exact Or.inr ⟨calls, c, List.prefix_refl _, he, (List.mem_singleton.mp h).symm⟩
        · cases h
    · rintro (h | ⟨pre, c', hpre, he, hs⟩)
      · exact Or.inl (Or.inl h)
      · rcases List.prefix_concat_iff.mp hpre with heq | hpre
        · obtain ⟨rfl, hc⟩ := List.append_inj' heq rfl
          obtain rfl : c' = c := by simpa using hc
          exact Or.inr (by simp [he, hs])
        · exact Or.inl (Or.inr ⟨pre, c', hpre, he, hs⟩)

/-- Earlier units of work leave the session values and no transaction behind. -/
theorem tracks_initial (base : Settings)
    (earlier : List (SqlAlchemyUnitOfWork × List UowCall)) :
    Tracks uow base (State.initial base earlier) := by
  have hkeep : ∀ (c : Connection) (units : List (SqlAlchemyUnitOfWork × List UowCall)),
      c.sessionValues = base → (units.foldl Connection.afterUnit c).sessionValues = base := by
    intro c units hc
    induction units generalizing c with
    | nil => exact hc
    | cons unit units ih =>
      refine ih _ ?_
      have hclosed : Tracks unit.1 base ⟨c, none, [], false⟩ := ⟨hc, fun he => by cases he⟩
      exact ((hclosed.run unit.2).call .exit).values
  exact ⟨hkeep _ _ rfl, fun he => by cases he⟩

end

/-- The queries of a unit of work are all executed with its own context exactly when
none of them follows a `rollback` after which the context was not set again, unless
its own context is that of the session anyway. -/
theorem queries_under_own_context_iff (uow : SqlAlchemyUnitOfWork) (base : Settings)
    (earlier : List (SqlAlchemyUnitOfWork × List UowCall)) (calls : List UowCall) :
    (∀ settings ∈ ((State.initial base earlier).run uow calls).observed,
        settings = uow.settings) ↔
      uow.settings = base ∨ ∀ pre c, pre ++ [c] <+: calls →
        ((State.initial base earlier).run uow pre).Emits c = true →
          ((State.initial base earlier).run uow pre).rolledBack = false := by
  have hheld : ∀ pre c, ((State.initial base earlier).run uow pre).Emits c = true →
      ((State.initial base earlier).run uow pre).connection.settings =
        if ((State.initial base earlier).run uow pre).rolledBack then base else uow.settings := by
    intro pre c he
    refine ((tracks_initial base earlier).run pre).held ?_
    cases c <;> simp_all [State.Emits]
  constructor
  · intro h
    by_cases hbase : uow.settings = base
    · exact Or.inl hbase
    · refine Or.inr fun pre c hpre he => ?_
      have hown := h _ (mem_observed_run.mpr (Or.inr ⟨pre, c, hpre, he, rfl⟩))
      rw [hheld pre c he] at hown
      by_contra hrolled
      rw [Bool.not_eq_false] at hrolled
      rw [if_pos hrolled] at hown
      exact hbase hown.symm
  · rintro h settings hmem
    rcases mem_observed_run.mp hmem with hmem | ⟨pre, c, hpre, he, rfl⟩
    · cases hmem
    · rw [hheld pre c he]
      rcases h with hbase | h
      · rw [hbase, ite_self]
      · simp [h pre c hpre he]

/-- User 1 at work in organization 10. -/
def memberUow : SqlAlchemyUnitOfWork := ⟨some "1", some "10"⟩

/-- After the ROLLBACK a query runs with no context at all. -/
theorem rollback_loses_context :
    Settings.mk "" "" ∈ ((State.initial ⟨"", ""⟩ []).run memberUow
      [.enter true true, .query true, .rollback, .query true]).observed ∧
    Settings.mk "" "" ≠ memberUow.settings := by
  decide

end EnvVault.SessionContext
