import EnvVault.CallShapes
import EnvVault.SerialCalls
import EnvVault.TokenRotation

/-!
# Calls with a failing statement

One statement of a call, or its COMMIT, fails with an exception, and the call raises.
`commit` issues two statements after the COMMIT: when one of these fails, what the call
reports as failed is durable.
-/
namespace EnvVault
open EnvVault.Relational EnvVault.Transactions

section
variable (uow : UnitOfWork) {t : Table}

/-- A query for one row, run alone. -/
theorem selectOne_exec (inputs : ℕ → Input) (ws : List RowWrite) (db : Db)
    (cond : RowOf t → Bool) (k : ℕ) :
    (uow.found t cond (vaultSchema.view ws db) = [] ∧
      (uow.selectOne t cond).exec vaultEngine inputs ⟨k, ws, db⟩ = (.ok none, ⟨k + 1, ws, db⟩)) ∨
    (∃ r, uow.found t cond (vaultSchema.view ws db) = [r] ∧
      (uow.selectOne t cond).exec vaultEngine inputs ⟨k, ws, db⟩ =
        (.ok (some r), ⟨k + 1, ws, db⟩)) ∨
    ∃ e, (uow.selectOne t cond).exec vaultEngine inputs ⟨k, ws, db⟩ =
      (.error e, ⟨k + 1, ws, db⟩) := by
  have hselect : (uow.select t cond).exec vaultEngine inputs ⟨k, ws, db⟩ =
      (.ok (uow.found t cond (vaultSchema.view ws db)), ⟨k + 1, ws, db⟩) := by
    rw [UnitOfWork.select, Prog.exec_statement]
    simp only [vaultEngine_view, List.append_nil]
  have hexec : (uow.selectOne t cond).exec vaultEngine inputs ⟨k, ws, db⟩ =
      (UnitOfWork.scalarOneOrNone (uow.found t cond (vaultSchema.view ws db))).exec vaultEngine
        inputs ⟨k + 1, ws, db⟩ := by
    rw [UnitOfWork.selectOne, Prog.bind_eq, Prog.exec_bind, hselect]
  rw [hexec]
  cases hfound : uow.found t cond (vaultSchema.view ws db) with
  | nil => exact Or.inl ⟨rfl, rfl⟩
  | cons r rs =>
    cases rs with
    | nil => exact Or.inr (Or.inl ⟨r, rfl, rfl⟩)
    | cons r' rs => exact Or.inr (Or.inr ⟨_, rfl⟩)

/-- No policy covers the users and the refresh tokens. -/
theorem found_open (ht : t = .users ∨ t = .refreshTokens) (cond : RowOf t → Bool) (v : Db) :
    uow.found t cond v = (v t).filter cond := by
  refine List.filter_congr fun r _ => ?_
  rcases ht with rfl | rfl <;> simp [UnitOfWork.may, mayAccess, policiesAdmit]

end

/-- A refresh that is presented a token already revoked, an expired one, or one of a user
who is not active: it revokes and raises. The clock is read by its second statement. -/
def Op.RevokesThenRaises (d : Deployment) (inputs : ℕ → Input) (db : Db) (op : Op) : Prop :=
  ∃ raw, op = .refresh raw ∧ ∃ stored ∈ db .refreshTokens,
    stored.tokenHash = d.security.hashRefreshToken raw ∧
      (stored.revokedAt.isSome = true ∨ stored.expiresAt ≤ (inputs 1).now ∨
        ∀ user ∈ db .users, user.id = stored.userId → user.isActive = false)

section
variable {d : Deployment} {uow : UnitOfWork} {inputs : ℕ → Input} {db : Db}

/-- Undisturbed, every other refresh that raises has changed nothing. -/
theorem refresh_raises_unchanged {raw : String} {e : Exn}
    (hnot : ¬ (Op.refresh raw).RevokesThenRaises d inputs db)
    (h : ((AuthService.refresh d.security uow raw).exec vaultEngine inputs ⟨0, [], db⟩).1 =
      .error e) :
    ((AuthService.refresh d.security uow raw).exec vaultEngine inputs ⟨0, [], db⟩).2.db = db := by
  have hrevokes : ∀ stored ∈ db .refreshTokens,
      stored.tokenHash = d.security.hashRefreshToken raw →
      (stored.revokedAt.isSome = true ∨ stored.expiresAt ≤ (inputs 1).now ∨
        ∀ user ∈ db .users, user.id = stored.userId → user.isActive = false) → False :=
    fun stored hmem hhash hcase => hnot ⟨raw, rfl, stored, hmem, hhash, hcase⟩
  revert h
  simp only [AuthService.refresh, RefreshTokenRepository.getByTokenHash, Prog.bind_eq,
    Prog.exec_bind]
  rcases selectOne_exec uow inputs [] db (t := .refreshTokens)
    (fun t => t.tokenHash == d.security.hashRefreshToken raw) 0 with
    ⟨-, hexec⟩ | ⟨stored, hfound, hexec⟩ | ⟨e', hexec⟩
  · simp [hexec]
  · rw [hexec]
    have hmem : stored ∈ (db .refreshTokens).filter
        fun t => t.tokenHash == d.security.hashRefreshToken raw := by
      rw [← found_open uow (Or.inr rfl), ← vaultSchema.view_nil db, hfound]
      exact List.mem_singleton_self _
    obtain ⟨hmem, hhash⟩ := List.mem_filter.mp hmem
    have hhash := eq_of_beq hhash
    have hlive : ¬ stored.revokedAt.isSome = true :=
      fun hs => hrevokes stored hmem hhash (Or.inl hs)
    have hunexpired : ¬ stored.expiresAt ≤ (inputs 1).now :=
      fun he => hrevokes stored hmem hhash (Or.inr (Or.inl he))
    have hclock : readInput.exec vaultEngine inputs ⟨1, [], db⟩ =
      (.ok (inputs 1), ⟨2, [], db⟩) := rfl
    simp only [if_neg hlive, Prog.exec_bind, hclock, if_neg hunexpired, UserRepository.get,
      UnitOfWork.get]
    rcases selectOne_exec uow inputs [] db (t := .users)
      (fun u => rowId .users u == stored.userId) 2 with
      ⟨hfound, hexec⟩ | ⟨user, hfound, hexec⟩ | ⟨e', hexec⟩
    · rw [found_open uow (Or.inl rfl), Schema.view_nil] at hfound
      refine (hrevokes stored hmem hhash (Or.inr (Or.inr fun user huser hid => ?_))).elim
      exact absurd (beq_iff_eq.mpr hid) (List.filter_eq_nil_iff.mp hfound user huser)
    · rw [found_open uow (Or.inl rfl), Schema.view_nil] at hfound
      by_cases hactive : user.isActive = true
      · rw [hexec]
        simp only [Option.filter_some, hactive, if_true]
        exact fun h => ((AuthService.commitsToReturn_rotate _ _).exec_error h).resolve_left id
      · refine (hrevokes stored hmem hhash (Or.inr (Or.inr fun user' huser' hid => ?_))).elim
        have honly : user' ∈ [user] := by
          rw [← hfound]
          exact List.mem_filter.mpr ⟨huser', beq_iff_eq.mpr hid⟩
        obtain rfl := List.mem_singleton.mp honly
        simpa using hactive
    · simp [hexec]
  · simp [hexec]

/-- Undisturbed, a call that raises has changed nothing, by design of `refresh` apart. -/
theorem Op.raises_unchanged {op : Op} (hnot : ¬ op.RevokesThenRaises d inputs db) {e : Exn}
    (h : (alone inputs (op.program d uow) db).1 = .error e) :
    (alone inputs (op.program d uow) db).2.db = db := by
  rcases op.commitsLast.exec_error h with ⟨⟨raw, rfl⟩, -⟩ | hsame
  · have hraises : ∀ e, ((AuthService.refresh d.security uow raw).exec vaultEngine inputs
        ⟨0, [], db⟩).1 = .error e → ((AuthService.refresh d.security uow raw).exec vaultEngine
          inputs ⟨0, [], db⟩).2.db = db := fun e => refresh_raises_unchanged hnot
    revert h
    simp only [alone, Op.program, Prog.map_eq, Prog.exec_bind]
    cases hexec : (AuthService.refresh d.security uow raw).exec vaultEngine inputs ⟨0, [], db⟩ with
    | mk result so =>
      rw [hexec] at hraises
      cases result with
      | ok tokens => simp
      | error e' => exact fun _ => hraises e' rfl
  · exact hsame

end

/-- A call that runs alone and whose statement, or COMMIT, after the first `f` fails
with this exception. -/
def failing (inputs : ℕ → Input) (f : ℕ) (e : Exn) {α : Type} (p : Tx α) (db : Db) :
    Except Exn α × Solo Db RowWrite :=
  p.execFailing vaultEngine inputs e f ⟨0, [], db⟩

/-- The failing statement comes after the COMMIT: it is a `set_config` of
`SqlAlchemyUnitOfWork.commit`, or the reading of the clock for an access token. -/
def Op.FailsAfterCommit (d : Deployment) (uow : UnitOfWork) (inputs : ℕ → Input) (f : ℕ) (db : Db)
    (op : Op) : Prop :=
  (op.program d uow).pastCommit vaultEngine inputs f ⟨0, [], db⟩ = true

instance (d : Deployment) (uow : UnitOfWork) (inputs : ℕ → Input) (f : ℕ) (db : Db) (op : Op) :
    Decidable (op.FailsAfterCommit d uow inputs f db) := inferInstanceAs (Decidable
  ((op.program d uow).pastCommit vaultEngine inputs f ⟨0, [], db⟩ = true))

/-- Where nobody else is in a transaction, a waiting call can run in this way. -/
theorem failing_run {n : ℕ} {d : Deployment} {calls : Fin n → ServiceCall} {s : VaultSys n}
    {inputs : ℕ → Input} {i : Fin n} (hi : s.call i = Call.initial ((calls i).program d))
    (hidle : ∀ j, j ≠ i → (s.call j).pending = [])
    (hf : FreshStream vaultEngine inputs s.world.past) (f : ℕ) (e : Exn) :
    RunsTo vaultEngine i s (failing inputs f e ((calls i).program d) s.world.db) :=
  StandsAlone.runsTo_failing hf ⟨hidle, by rw [hi]; rfl, by rw [hi]; rfl, rfl, rfl⟩ e f

/-- A call that does not revoke and raise by design, and raises because one of its
statements fails, has committed nothing, if and only if it is not so that the statement
comes after the COMMIT of a call that changes the database. So no statement up to the COMMIT
leaves anything behind. In a state where nobody else is in a transaction the call can run in
this way. -/
theorem raises_commits_nothing_iff (d : Deployment) (uow : UnitOfWork) (op : Op)
    (inputs : ℕ → Input) (db : Db) (hnot : ¬ op.RevokesThenRaises d inputs db) (f : ℕ) (e : Exn) :
    ((∀ e', (failing inputs f e (op.program d uow) db).1 = .error e' →
      (failing inputs f e (op.program d uow) db).2.db = db) ↔
      ¬ (op.FailsAfterCommit d uow inputs f db ∧
        (alone inputs (op.program d uow) db).2.db ≠ db)) ∧
    (¬ op.FailsAfterCommit d uow inputs f db →
      ∀ e', (failing inputs f e (op.program d uow) db).1 = .error e' →
        (failing inputs f e (op.program d uow) db).2.db = db) ∧
    ∀ (n : ℕ) (calls : Fin n → ServiceCall) (s : VaultSys n) (i : Fin n), calls i = ⟨op, uow⟩ →
      s.call i = Call.initial ((calls i).program d) → (∀ j, j ≠ i → (s.call j).pending = []) →
      s.world.db = db → FreshStream vaultEngine inputs s.world.past →
        RunsTo vaultEngine i s (failing inputs f e (op.program d uow) db) := by
  have hundisturbed : ∀ e', (alone inputs (op.program d uow) db).1 = .error e' →
      (alone inputs (op.program d uow) db).2.db = db := fun _ => Op.raises_unchanged hnot
  have hiff := op.commitsLast.raises_unchanged_iff (f := f) (e := e) hundisturbed
  refine ⟨hiff, fun hbefore => hiff.mpr fun h => hbefore h.1, ?_⟩
  intro n calls s i hcall hi hidle hdb hf
  have hrun := failing_run hi hidle hf f e
  rwa [hcall, hdb] at hrun

def connectionLost : Exn := ⟨.operationalError, "the connection is closed"⟩

/-- The refresh of the one token, from the `m`-th sample on. -/
def refreshesOneToken (m f : ℕ) : Except Exn Reply × Solo Db RowWrite :=
  failing (fun k => sampleInput (m + k)) f connectionLost ((Op.refresh "t").program sampleDeployment
    ⟨none, none, .envvaultApp, .superuser⟩) oneTokenDb

theorem not_revokesThenRaises_oneToken : ¬ (Op.refresh "t").RevokesThenRaises sampleDeployment
    (fun k => sampleInput (10 + k)) oneTokenDb := by
  rintro ⟨raw, hop, stored, hmem, -, hcase⟩
  obtain rfl := List.mem_singleton.mp hmem
  revert hcase
  decide

/-- Its COMMIT fails, also in a system of this one call. -/
theorem raises_commits_nothing_iff_oneToken : (refreshesOneToken 10 6).1 = .error connectionLost ∧
    (refreshesOneToken 10 6).2.db = oneTokenDb ∧
    RunsTo vaultEngine (0 : Fin 1) (waiting sampleDeployment
      (fun _ => ⟨.refresh "t", ⟨none, none, .envvaultApp, .superuser⟩⟩)
      ⟨oneTokenDb, [], samplePast 10⟩) (refreshesOneToken 10 6) := by
  obtain ⟨-, hkeeps, hruns⟩ := raises_commits_nothing_iff sampleDeployment
    ⟨none, none, .envvaultApp, .superuser⟩ (.refresh "t") (fun k => sampleInput (10 + k)) oneTokenDb
    not_revokesThenRaises_oneToken 6 connectionLost
  refine ⟨rfl, hkeeps (by decide +kernel) _ rfl, ?_⟩
  exact hruns 1 (fun _ => ⟨.refresh "t", ⟨none, none, .envvaultApp, .superuser⟩⟩) _ 0 rfl rfl
    (fun j hj => absurd (Subsingleton.elim j 0) hj) rfl (freshStream_sample (by decide))

/-- The first `set_config` after the COMMIT fails: the refresh raises, the token it was
presented is revoked, and presenting it again is taken for theft. -/
theorem raised_refresh_has_rotated :
    ¬ (Op.refresh "t").RevokesThenRaises sampleDeployment (fun k => sampleInput (10 + k))
      oneTokenDb ∧
    (refreshesOneToken 10 7).1 = .error connectionLost ∧
    (refreshesOneToken 10 7).2.db ≠ oneTokenDb ∧
    (alone (fun k => sampleInput (20 + k)) ((Op.refresh "t").program sampleDeployment
      ⟨none, none, .envvaultApp, .superuser⟩) (refreshesOneToken 10 7).2.db).1 =
        .error ⟨.invalidRefreshTokenError, "Refresh token reuse detected."⟩ := by
  refine ⟨not_revokesThenRaises_oneToken, rfl, fun h => ?_, rfl⟩
  have htokens := congrFun h .refreshTokens
  revert htokens
  decide +kernel

end EnvVault
