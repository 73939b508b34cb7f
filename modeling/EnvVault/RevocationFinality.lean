import EnvVault.MassRevocation

/-!
# When the revocation of all sessions is final

A call that revokes all tokens of a user goes through three phases: before its UPDATE the
commits of the run keep to `movesContract`, from then on to `revokingContract`, and after
its commit to `revokedContract`, whose invariant is that no usable token of the user is
older.
-/
namespace EnvVault
open EnvVault.Relational EnvVault.Transactions

theorem Op.RevokesAll.of_suffix {d : Deployment} {u : UUID} {op : Op} {seen later : List Db}
    (h : op.RevokesAll d u seen) (hs : seen <:+ later) : op.RevokesAll d u later := by
  obtain ⟨more, rfl⟩ := hs
  cases op with
  | logoutAll userId =>
    refine ⟨h.1, fun hnil => h.2 ?_⟩
    exact (List.append_eq_nil_iff.mp hnil).2
  | refresh raw =>
    obtain ⟨hlen, first, hfirst, htoken⟩ := h
    refine ⟨?_, first, ?_, htoken⟩
    · rw [List.length_append]
      omega
    · rw [Option.mem_def] at hfirst ⊢
      rw [List.getLast?_append, hfirst]
      rfl
  | _ => exact h.elim

/-- The next statement of the call is the UPDATE of `revoke_all_for_user`. -/
structure AboutToRevoke (d : Deployment) (op : Op) (u : UUID)
    (c : Call Input Db RowWrite Exn Reply) : Prop where
  prog : ∃ (uow : UnitOfWork) (k : Unit → Tx Reply), (k ()).Reads (fun _ => True) ∧
    c.prog = (RefreshTokenRepository.revokeAllForUser uow u).bind fun _ => UnitOfWork.commit.bind k
  pending : c.pending = []
  begun : c = Call.initial c.prog ∨ c.started = true
  next : ∀ db, op.RevokesAll d u (db :: c.seen)

section
variable {n : ℕ} {t t' : VaultSys n} {a : Action n Input Exn} {j : Fin n}

/-- One step of a caller whose next statement is a query. -/
theorem step_select {uow : UnitOfWork} {tb : Table} {cond : RowOf tb → Bool}
    {k : List (RowOf tb) → Tx Reply} (hstep : t.step vaultEngine a = some t')
    (hcaller : a.caller = j) (hp : (t.call j).prog = (uow.select tb cond).bind k) :
    t.committing a = none ∧ ((∃ e, (t'.call j).prog = .raise e) ∨
      t'.call j = ⟨k (uow.found tb cond (vaultSchema.view (t.call j).pending t.world.db)),
        (t.call j).pending, t.world.db :: (t.call j).seen, true⟩) := by
  have hstmt : (t.call j).prog = .stmt (fun _ _ => []) (fun _ v => k (uow.found tb cond v))
      .raise := hp
  cases Sys.step_cases hstep with
  | closed i inp hp' ht =>
    obtain rfl : i = j := hcaller
    rcases hp' with ⟨a, hp'⟩ | ⟨e, hp'⟩ <;> rw [hstmt] at hp' <;> cases hp'
  | stmt i inp writes next failed hp' fresh free ht =>
    obtain rfl : i = j := hcaller
    rw [hstmt] at hp'
    cases hp'
    refine ⟨by simp [Sys.committing, hstmt], Or.inr ?_⟩
    rw [ht, Sys.setCall_self, List.append_nil, vaultEngine_view]
  | commit i inp next failed hp' ht =>
    obtain rfl : i = j := hcaller
    rw [hstmt] at hp'
    cases hp'
  | rollback i inp next hp' ht =>
    obtain rfl : i = j := hcaller
    rw [hstmt] at hp'
    cases hp'
  | failed i e failed hp' ht =>
    obtain rfl : i = j := hcaller
    have hraise : failed = .raise := by
      rcases hp' with ⟨writes, next, hp'⟩ | ⟨next, hp'⟩ <;> rw [hstmt] at hp' <;> cases hp'
      rfl
    refine ⟨rfl, Or.inl ⟨e, ?_⟩⟩
    rw [ht, Sys.setCall_self, hraise]

/-- One that has left its program stays where it is. -/
theorem step_left (hstep : t.step vaultEngine a = some t') (hcaller : a.caller = j)
    (hp : (∃ b, (t.call j).prog = .ret b) ∨ ∃ e, (t.call j).prog = .raise e) :
    t.committing a = none ∧ (t'.call j).prog = (t.call j).prog := by
  cases Sys.step_cases hstep with
  | closed i inp hp' ht =>
    obtain rfl : i = j := hcaller
    refine ⟨?_, by rw [ht, Sys.setCall_self]; rfl⟩
    rcases hp' with ⟨b, hp'⟩ | ⟨e, hp'⟩ <;> simp [Sys.committing, hp']
  | stmt i inp writes next failed hp' fresh free ht =>
    obtain rfl : i = j := hcaller
    simp [hp'] at hp
  | commit i inp next failed hp' ht =>
    obtain rfl : i = j := hcaller
    simp [hp'] at hp
  | rollback i inp next hp' ht =>
    obtain rfl : i = j := hcaller
    simp [hp'] at hp
  | failed i e failed hp' ht =>
    obtain rfl : i = j := hcaller
    rcases hp' with ⟨writes, next, hp'⟩ | ⟨next, hp'⟩
    · simp [hp'] at hp
    · simp [hp'] at hp

end

section
variable (d : Deployment) (uow : UnitOfWork)

theorem logoutAll_program (u : UUID) : (Op.logoutAll u).program d uow =
    (RefreshTokenRepository.revokeAllForUser uow u).bind fun _ =>
      UnitOfWork.commit.bind fun _ => .ret .unit :=
  Prog.bind_assoc _ _ _

/-- A refresh reads its token; when it was revoked, it revokes all of the user. -/
theorem refresh_program (raw : String) : ∃ cont : Option RefreshToken → Tx Reply,
    (Op.refresh raw).program d uow = ((uow.select .refreshTokens fun t : RefreshToken =>
      t.tokenHash == d.security.hashRefreshToken raw).bind fun rows =>
        (UnitOfWork.scalarOneOrNone rows).bind cont) ∧
    ∀ stored, stored.revokedAt.isSome = true → ∃ k : Unit → Tx Reply,
      (k ()).Reads (fun _ => True) ∧ cont (some stored) =
        (RefreshTokenRepository.revokeAllForUser uow stored.userId).bind fun _ =>
          UnitOfWork.commit.bind k := by
  refine ⟨_, (Prog.bind_assoc _ _ _).trans (Prog.bind_assoc _ _ _), fun stored h => ?_⟩
  dsimp only
  rw [if_pos h]
  exact ⟨fun _ => .raise ⟨.invalidRefreshTokenError, "Refresh token reuse detected."⟩, trivial,
    Prog.bind_assoc _ _ _⟩

end

section
variable {n : ℕ} {d : Deployment} {calls : Fin n → ServiceCall} {u : UUID} {j : Fin n}

theorem aboutToRevoke_logoutAll (hop : (calls j).op = .logoutAll u) :
    AboutToRevoke d (calls j).op u (Call.initial ((calls j).program d)) where
  prog := by
    refine ⟨(calls j).uow, fun _ => .ret .unit, trivial, ?_⟩
    change (calls j).op.program d (calls j).uow = _
    rw [hop]
    exact logoutAll_program _ _ _
  pending := rfl
  begun := Or.inl rfl
  next db := by
    rw [hop]
    exact ⟨rfl, List.cons_ne_nil _ _⟩

/-- The refresh has read a revoked token of the user. -/
theorem step_read {t t' : VaultSys n} {a : Action n Input Exn} {raw : String}
    (hop : (calls j).op = .refresh raw) (hstep : t.step vaultEngine a = some t')
    (hcaller : a.caller = j) (hcall : t.call j = Call.initial ((calls j).program d))
    (hvalid : vaultSchema.Valid t.world.db)
    (hrev : ∀ first, (t'.call j).seen = [first] → ∃ tok ∈ first .refreshTokens,
      tok.tokenHash = d.security.hashRefreshToken raw ∧ tok.userId = u ∧ tok.revokedAt.isSome) :
    t.committing a = none ∧ (AboutToRevoke d (calls j).op u (t'.call j) ∨
      ∃ e, (t'.call j).prog = .raise e) := by
  obtain ⟨cont, hprogram, hcont⟩ := refresh_program d (calls j).uow raw
  have hprog : (t.call j).prog = (Op.refresh raw).program d (calls j).uow := by
    rw [hcall, ← hop]
    rfl
  obtain ⟨hquiet, hraise | hnext⟩ := step_select hstep hcaller (hprog.trans hprogram)
  · exact ⟨hquiet, Or.inr hraise⟩
  have hseen : (t'.call j).seen = [t.world.db] := by
    rw [hnext, hcall]
    rfl
  obtain ⟨tok, htok, hhash, huser, hspent⟩ := hrev _ hseen
  have hfound : (calls j).uow.found .refreshTokens
      (fun r : RefreshToken => r.tokenHash == d.security.hashRefreshToken raw) t.world.db =
        [tok] := by
    refine found_singleton hvalid htok ?_ (by simpa using hhash) fun r hr hc => ?_
    · simp [UnitOfWork.may, mayAccess, policiesAdmit]
    · exact eq_of_tokenHash hvalid hr htok ((by simpa using hc : r.tokenHash = _).trans hhash.symm)
  refine ⟨hquiet, Or.inl ⟨?_, ?_, ?_, fun db => ?_⟩⟩
  · obtain ⟨k, hk, heq⟩ := hcont tok hspent
    refine ⟨(calls j).uow, k, hk, ?_⟩
    have hempty : (t.call j).pending = [] := by
      rw [hcall]
      rfl
    rw [hnext]
    dsimp only
    rw [hempty, Schema.view_nil, hfound]
    change cont (some tok) = _
    rw [heq, huser]
  · rw [hnext, hcall]
    rfl
  · rw [hnext]
    exact Or.inr rfl
  · rw [hseen, hop]
    exact ⟨le_rfl, t.world.db, rfl, tok, htok, hhash, huser, hspent⟩

end

/-- Where call `j` stands in the revocation of all tokens of the user, and which contract the
run keeps to there. -/
inductive RevokerPhase {n : ℕ} (d : Deployment) (calls : Fin n → ServiceCall)
    (base : Table × UUID → Prop) (u : UUID) (j : Fin n) (logins late : Fin n → Prop)
    (t : VaultSys n) : Prop
  | before (hlog : ∀ e ∈ t.world.log, e.1 ≠ j)
      (hcall : t.call j = Call.initial ((calls j).program d) ∨
        AboutToRevoke d (calls j).op u (t.call j) ∨
        (∃ b, (t.call j).prog = .ret b) ∨ ∃ e, (t.call j).prog = .raise e)
  | during (p : Tx Reply) (hlog : ∀ e ∈ t.world.log, e.1 ≠ j)
      (hrev : (calls j).op.RevokesAll d u (t.call j).seen)
      (hmeets : (revokingContract d calls base u j logins).Meets
        (Function.update (fun i => (calls i).program d) j p) fun _ _ _ _ => True)
      (hok : t.Ok (revokingContract d calls base u j logins)
        (Function.update (fun i => (calls i).program d) j p) fun _ _ _ _ => True)
  | after (hdone : Committed t j) (hrev : (calls j).op.RevokesAll d u (t.call j).seen)
      (hok : t.Ok (revokedContract d calls base u logins late) (fun i => (calls i).program d)
        fun _ _ _ _ => True)

section
variable {n : ℕ} {d : Deployment} {calls : Fin n → ServiceCall} {base : Table × UUID → Prop}
  {u : UUID} {j : Fin n} {logins late : Fin n → Prop}

theorem lasting_true : Lasting (n := n) (E := vaultEngine) (α := Reply) fun _ _ _ _ => True :=
  ⟨fun _ _ _ _ _ _ => trivial, fun _ _ _ _ _ _ _ => trivial⟩

theorem moves_meets (hops : ∀ i, (calls i).op.authenticates = true) :
    (movesContract d calls base).Meets (fun i => (calls i).program d) fun _ _ _ _ => True :=
  fun i _ _ => (moves_rules i).program (hops i)

theorem revoked_meets (hops : ∀ i, (calls i).op.authenticates = true) :
    (revokedContract d calls base u logins late).Meets (fun i => (calls i).program d)
      fun _ _ _ _ => True :=
  fun i _ _ => (revoked_rules i).program (hops i)

/-- While `j` revokes, the others run their programs and `j` the rest of its own. -/
theorem revoking_meets (hops : ∀ i, (calls i).op.authenticates = true)
    {c : Call Input Db RowWrite Exn Reply} (hc : AboutToRevoke d (calls j).op u c) :
    (revokingContract d calls base u j logins).Meets
      (Function.update (fun i => (calls i).program d) j c.prog) fun _ _ _ _ => True := by
  intro i W _
  by_cases hij : i = j
  · subst hij
    obtain ⟨uow, k, hk, hprog⟩ := hc.prog
    rw [Function.update_self, hprog]
    exact wlp_revokeAll_covered hk rfl
  · rw [Function.update_of_ne hij]
    exact (revoking_rules hij).program (hops i)

variable {W : VaultWorld n} {as pre : Schedule n} {a : Action n Input Exn} {t t' : VaultSys n}

/-- The run keeps to `movesContract` throughout. -/
theorem Begins.moves_ok (hb : Begins W) (hops : ∀ i, (calls i).op.authenticates = true)
    (ht : (waiting d calls W).run vaultEngine pre = some t) :
    t.Ok (movesContract d calls (baseKeys W.db)) (fun i => (calls i).program d)
      fun _ _ _ _ => True := by
  have hinv : (movesContract d calls (baseKeys W.db)).inv W := hb.valid
  exact Sys.Ok.run (moves_meets hops) lasting_true (.initial hinv)
    (fun pre a t hpre ht k ws hc => ⟨hb.each_lawful pre a t hpre ht k ws hc, fun _ _ _ => trivial⟩)
    ht

/-- Who had begun when `j` committed did not begin after the commit. -/
theorem not_beganAfterCommit {start : VaultSys n} (hpre : pre ++ [a] <+: as)
    (ht : start.run vaultEngine pre = some t) (ht' : start.run vaultEngine (pre ++ [a]) = some t')
    (hlog : ∀ e ∈ t.world.log, e.1 ≠ j) {i : Fin n} (hi : (t'.call i).started = true) :
    ¬ BeganAfterCommit start as j i := by
  rintro ⟨past, s, hpast, hs, ⟨e, he, hej⟩, hnot⟩
  rcases List.prefix_or_prefix_of_prefix hpast hpre with hbefore | hafter
  · rcases List.prefix_concat_iff.mp hbefore with rfl | hbefore
    · obtain rfl : t' = s := Option.some.inj (ht'.symm.trans hs)
      rw [hi] at hnot
      cases hnot
    · obtain ⟨rest, hrest⟩ := Sys.run_of_prefix hbefore hs ht
      exact hlog e ((Sys.run_log_prefix hrest).subset he) hej
  · obtain ⟨rest, hrest⟩ := Sys.run_of_prefix hafter ht' hs
    rw [Sys.run_unstarted hrest hnot] at hi
    cases hi

section
variable (hb : Begins W) (hpre : pre ++ [a] <+: as)
  (ht : (waiting d calls W).run vaultEngine pre = some t)
  (hclear : ∀ k ws, t.committing a = some (k, ws) →
    IssuesNoneBehind d calls (waiting d calls W) pre t j k ws)
include hb hpre ht hclear

/-- A commit during the revocation: what it issues to the user descends from a login that
began after. -/
theorem allows_revoking (hlog : ∀ e ∈ t.world.log, e.1 ≠ j)
    (hrev : (calls j).op.RevokesAll d u (t.call j).seen) :
    (revokingContract d calls (baseKeys W.db) u j
      (BeganAfter (waiting d calls W) as j)).Allows t a := by
  intro k ws hc
  refine ⟨⟨hb.each_lawful pre a t hpre ht k ws hc, fun x hx hu => ?_⟩, fun _ _ _ => trivial⟩
  have hshort : pre <+: as := (List.prefix_append _ _).trans hpre
  obtain ⟨hlogin, hpresented⟩ := hclear k ws hc x hx (hu ▸ hrev)
  refine ⟨fun hk => (hlogin hk).extend hshort, fun p hp => ?_⟩
  rcases hpresented p hp with ⟨past, s, hpast, hs, ⟨e, he, hej⟩, -⟩ | hdesc
  · obtain ⟨rest, hrest⟩ := Sys.run_of_prefix hpast hs ht
    exact absurd hej (hlog e ((Sys.run_log_prefix hrest).subset he))
  · exact hdesc.mono fun k hk => hk.extend hshort

theorem allows_revoked (hrev : (calls j).op.RevokesAll d u (t.call j).seen) :
    (revokedContract d calls (baseKeys W.db) u (BeganAfter (waiting d calls W) as j)
      (BeganAfterCommit (waiting d calls W) as j)).Allows t a := by
  intro k ws hc
  refine ⟨⟨hb.each_lawful pre a t hpre ht k ws hc, fun x hx hu => ?_⟩, fun _ _ _ => trivial⟩
  have hshort : pre <+: as := (List.prefix_append _ _).trans hpre
  obtain ⟨hlogin, hpresented⟩ := hclear k ws hc x hx (hu ▸ hrev)
  refine ⟨fun hk => (hlogin hk).extend hshort, fun hearly p hp => ?_⟩
  rcases hpresented p hp with hlate | hdesc
  · exact absurd (hlate.extend hshort) hearly
  · exact hdesc.mono fun k hk => hk.extend hshort

end

theorem log_of_quiet (hstep : t.step vaultEngine a = some t') (hquiet : t.committing a = none)
    (hlog : ∀ e ∈ t.world.log, e.1 ≠ j) : ∀ e ∈ t'.world.log, e.1 ≠ j := by
  have hsame := Sys.step_log hstep
  rw [hquiet] at hsame
  simpa [hsame] using hlog

theorem revokesAll_step (hstep : t.step vaultEngine a = some t')
    (hrev : (calls j).op.RevokesAll d u (t.call j).seen) :
    (calls j).op.RevokesAll d u (t'.call j).seen := by
  rcases Sys.step_seen hstep j with ⟨hseen, -⟩ | ⟨hseen, -⟩
  · exact hseen ▸ hrev
  · rw [hseen]
    exact hrev.of_suffix (List.suffix_cons _ _)

/-- The UPDATE finds its rows, or the call fails. -/
theorem AboutToRevoke.step (hops : ∀ i, (calls i).op.authenticates = true)
    (h : AboutToRevoke d (calls j).op u (t.call j))
    (hok : t.Ok (movesContract d calls base) (fun i => (calls i).program d) fun _ _ _ _ => True)
    (hlog : ∀ e ∈ t.world.log, e.1 ≠ j) (hcaller : a.caller = j)
    (hstep : t.step vaultEngine a = some t') :
    RevokerPhase d calls base u j logins late t' := by
  obtain ⟨uow, k, hk, hprog⟩ := h.prog
  obtain ⟨hquiet, hraise | hnext⟩ := step_select hstep hcaller
    (hprog.trans (Prog.bind_assoc _ _ _))
  · exact .before (log_of_quiet hstep hquiet hlog) (Or.inr (Or.inr (Or.inr hraise)))
  have hmeets : (revokingContract d calls base u j logins).Meets
      (Function.update (fun i => (calls i).program d) j (t.call j).prog) fun _ _ _ _ => True :=
    revoking_meets hops h
  have hcall : CallOk (revokingContract d calls base u j logins)
      (Function.update (fun i => (calls i).program d) j (t.call j).prog) (fun _ _ _ _ => True) j
        (t.call j) t.world := by
    rcases h.begun with hinit | hstart
    · refine Or.inl (hinit.trans ?_)
      rw [Function.update_self]
    · refine .of_wlp hstart ?_
      rw [hprog]
      exact wlp_revokeAll_covered hk h.pending
  have hok := (hok.strengthen_except revoking_strengthens hok.inv j (t.call j).prog
    (fun i hi => revoking_keeps hi) hcall).step hmeets lasting_true
      (fun k ws hc => by rw [hquiet] at hc; cases hc) hstep
  refine .during (t.call j).prog (log_of_quiet hstep hquiet hlog) ?_ hmeets hok
  rw [hnext]
  exact h.next _

/-- One step of the run. -/
theorem RevokerPhase.step (hops : ∀ i, (calls i).op.authenticates = true) (hb : Begins W)
    (hpre : pre ++ [a] <+: as) (ht : (waiting d calls W).run vaultEngine pre = some t)
    (hclear : ∀ k ws, t.committing a = some (k, ws) →
      IssuesNoneBehind d calls (waiting d calls W) pre t j k ws)
    (hstep : t.step vaultEngine a = some t') {seen : List Db}
    (hrev : (calls j).op.RevokesAll d u seen) (hseen : (t'.call j).seen <:+ seen)
    (h : RevokerPhase d calls (baseKeys W.db) u j (BeganAfter (waiting d calls W) as j)
      (BeganAfterCommit (waiting d calls W) as j) t) :
    RevokerPhase d calls (baseKeys W.db) u j (BeganAfter (waiting d calls W) as j)
      (BeganAfterCommit (waiting d calls W) as j) t' := by
  have hmoves := hb.moves_ok hops ht
  cases h with
  | before hlog hcall =>
    by_cases hcaller : j = a.caller
    · rcases hcall with hinit | habout | hleft
      · cases hop : (calls j).op with
        | logoutAll userId =>
          rw [hop] at hrev
          obtain rfl : userId = u := hrev.1
          have habout : AboutToRevoke d (calls j).op userId (t.call j) := by
            rw [hinit]
            exact aboutToRevoke_logoutAll hop
          exact habout.step hops hmoves hlog hcaller.symm hstep
        | refresh raw =>
          rw [hop] at hrev
          obtain ⟨-, first, hfirst, htoken⟩ := hrev
          obtain ⟨hquiet, hnext⟩ := step_read hop hstep hcaller.symm hinit hmoves.inv
            fun read hread => by
              obtain ⟨more, rfl⟩ := hread ▸ hseen
              obtain rfl : read = first := by simpa [List.getLast?_append] using hfirst
              exact htoken
          refine .before (log_of_quiet hstep hquiet hlog) ?_
          exact hnext.elim (fun h => Or.inr (Or.inl h)) fun h => Or.inr (Or.inr (Or.inr h))
        | _ =>
          rw [hop] at hrev
          exact hrev.elim
      · exact habout.step hops hmoves hlog hcaller.symm hstep
      · obtain ⟨hquiet, hsame⟩ := step_left hstep hcaller.symm hleft
        refine .before (log_of_quiet hstep hquiet hlog) (Or.inr (Or.inr ?_))
        rw [hsame]
        exact hleft
    · refine .before (Sys.step_log_other hstep hcaller hlog) ?_
      rw [Sys.step_other hstep hcaller]
      exact hcall
  | during p hlog hrev hmeets hok =>
    have hallows := allows_revoking hb hpre ht hclear hlog hrev
    have hok' := hok.step hmeets lasting_true hallows hstep
    have hrev' := revokesAll_step hstep hrev
    by_cases hdone : Committed t' j
    · have ht' : (waiting d calls W).run vaultEngine (pre ++ [a]) = some t' := by
        rw [Sys.run_snoc, ht]
        exact hstep
      have hnone : NoneOlder d calls u (BeganAfter (waiting d calls W) as j) t'.world := by
        obtain ⟨e, he, hej⟩ := hdone
        rw [Sys.step_log hstep] at he
        rcases List.mem_append.mp he with he | he
        · exact absurd hej (hlog e he)
        · have hc : t.committing a = some (e.1, e.2) := Option.mem_toList.mp he
          have hnone := (hok.guar hmeets hallows hc).2 hej
          have hdb := Sys.step_db hstep
          rw [hc] at hdb
          have hlog' := Sys.step_log hstep
          rw [hc] at hlog'
          unfold NoneOlder at hnone ⊢
          rw [hdb, hlog']
          exact hnone
      have hmoves' := hb.moves_ok hops ht'
      refine .after hdone hrev' (hmoves'.strengthen revoked_strengthens ⟨hmoves'.inv, hnone⟩
        fun i hi => revoked_keeps ?_)
      exact not_beganAfterCommit hpre ht ht' hlog hi
    · exact .during p (fun e he hej => hdone ⟨e, he, hej⟩) hrev' hmeets hok'
  | after hdone hrev hok =>
    have hallows := allows_revoked hb hpre ht hclear hrev
    refine .after ?_ (revokesAll_step hstep hrev)
      (hok.step (revoked_meets hops) lasting_true hallows hstep)
    obtain ⟨e, he, hej⟩ := hdone
    refine ⟨e, ?_, hej⟩
    rw [Sys.step_log hstep]
    exact List.mem_append_left _ he

end

/-- In a run in which no token is issued in the back of a revocation that commits, the
revocation of all tokens of a user is final. -/
theorem revocation_final {n : ℕ} (d : Deployment) (calls : Fin n → ServiceCall)
    (hops : ∀ i, (calls i).op.authenticates = true) (W : VaultWorld n) (hb : Begins W)
    (as : Schedule n) (s : VaultSys n) (hr : (waiting d calls W).run vaultEngine as = some s)
    (hclear : ∀ pre a t k ws j, pre ++ [a] <+: as →
      (waiting d calls W).run vaultEngine pre = some t → t.committing a = some (k, ws) →
        Committed s j → IssuesNoneBehind d calls (waiting d calls W) pre t j k ws) :
    RevocationFinal d calls (waiting d calls W) as s := by
  intro u j hrev hdone
  have hphase : RevokerPhase d calls (baseKeys W.db) u j (BeganAfter (waiting d calls W) as j)
      (BeganAfterCommit (waiting d calls W) as j) s := by
    refine Sys.run_invariant (I := fun _ t => RevokerPhase d calls (baseKeys W.db) u j
      (BeganAfter (waiting d calls W) as j) (BeganAfterCommit (waiting d calls W) as j) t) hr ?_ ?_
    · refine .before (fun e he => ?_) (Or.inl rfl)
      have hnil : e ∈ W.log := he
      rw [hb.log] at hnil
      cases hnil
    · intro pre a t t' hpre ht hphase hstep
      have ht' : (waiting d calls W).run vaultEngine (pre ++ [a]) = some t' := by
        rw [Sys.run_snoc, ht]
        exact hstep
      obtain ⟨rest, hrest⟩ := Sys.run_of_prefix hpre ht' hr
      exact hphase.step hops hb hpre ht (fun k ws hc => hclear pre a t k ws j hpre ht hc hdone)
        hstep hrev (Sys.run_seen hrest j).1
  have ⟨e, he, hej⟩ := hdone
  cases hphase with
  | before hlog _ => exact absurd hej (hlog e he)
  | during _ hlog _ _ _ => exact absurd hej (hlog e he)
  | after _ _ hok => exact hok.inv.2

/-- A login after the `logout_all`. -/
def loginAfterLogout : Fin 2 → ServiceCall
  | 0 => ⟨.logoutAll 1, ⟨none, none, .envvaultApp, .superuser⟩⟩
  | 1 => ⟨.login "ana@example.com" "h", ⟨none, none, .envvaultApp, .superuser⟩⟩

def loginAfterSteps : Schedule 2 := sampleSteps 10 [0, 0, 0, 1, 1, 1, 1]

theorem revocation_final_login : ∃ s, (waiting sampleDeployment loginAfterLogout
      ⟨oneTokenDb, [], samplePast 10⟩).run vaultEngine loginAfterSteps = some s ∧
    s.world.log.map Prod.fst = [0, 1] ∧
    RevocationFinal sampleDeployment loginAfterLogout
      (waiting sampleDeployment loginAfterLogout ⟨oneTokenDb, [], samplePast 10⟩)
      loginAfterSteps s := by
  have hrun : ((waiting sampleDeployment loginAfterLogout ⟨oneTokenDb, [], samplePast 10⟩).run
      vaultEngine loginAfterSteps).map (fun s => s.world.log.map Prod.fst) = some [0, 1] := by
    decide +kernel
  obtain ⟨s, hs, hlog⟩ := Option.map_eq_some_iff.mp hrun
  refine ⟨s, hs, hlog, revocation_final sampleDeployment loginAfterLogout (by decide) _
    begins_oneToken _ s hs fun pre a t k ws j hpre ht _ _ x _ hrev => ⟨fun hlogin => ?_, ?_⟩⟩
  · have hj : j = 0 := by
      by_contra hne
      obtain rfl : j = 1 := by omega
      exact hrev
    have hk : k = 1 := by
      by_contra hne
      obtain rfl : k = 0 := by omega
      cases hlogin
    subst hj hk
    cases pre with
    | nil =>
      obtain rfl : _ = t := Option.some.inj ht
      exact absurd rfl hrev.2
    | cons b pre =>
      have hsteps : loginAfterSteps = .run 0 (sampleInput 10) :: loginAfterSteps.tail := by rfl
      have hfirst : b = .run 0 (sampleInput 10) := by
        rw [hsteps] at hpre
        exact (List.cons_prefix_cons.mp hpre).1
      have hbegun : ((waiting sampleDeployment loginAfterLogout
          ⟨oneTokenDb, [], samplePast 10⟩).run vaultEngine [.run 0 (sampleInput 10)]).map
            (fun s => ((s.call 0).started, (s.call 1).started)) = some (true, false) := by rfl
      obtain ⟨t₁, ht₁, hcalls⟩ := Option.map_eq_some_iff.mp hbegun
      simp only [Prod.mk.injEq] at hcalls
      exact ⟨[b], t₁, by simp, hfirst ▸ ht₁, hcalls⟩
  · have hnone : ∀ i, (loginAfterLogout i).op.presented sampleDeployment = none := by decide
    intro p hp
    rw [hnone] at hp
    cases hp

/-- A refresh and a `logout_all` of the same user. -/
def overlappingLogout : Fin 2 → ServiceCall
  | 0 => ⟨.logoutAll 1, ⟨none, none, .envvaultApp, .superuser⟩⟩
  | 1 => ⟨.refresh "t", ⟨none, none, .envvaultApp, .superuser⟩⟩

/-- The refresh has read its token when the `logout_all` runs. -/
def overlappingSteps : Schedule 2 := sampleSteps 10 [1, 0, 0, 0, 1, 1, 1, 1, 1, 1]

theorem refresh_outlives_logoutAll :
    Begins (⟨oneTokenDb, [], samplePast 10⟩ : VaultWorld 2) ∧
    (∀ i, (overlappingLogout i).op.authenticates = true) ∧
    ∃ s, (waiting sampleDeployment overlappingLogout ⟨oneTokenDb, [], samplePast 10⟩).run
        vaultEngine overlappingSteps = some s ∧
      ¬ RevocationFinal sampleDeployment overlappingLogout
        (waiting sampleDeployment overlappingLogout ⟨oneTokenDb, [], samplePast 10⟩)
        overlappingSteps s := by
  refine ⟨begins_oneToken, by decide, ?_⟩
  have hrun : ((waiting sampleDeployment overlappingLogout ⟨oneTokenDb, [], samplePast 10⟩).run
      vaultEngine overlappingSteps).map (fun s =>
        ((s.world.db .refreshTokens).any fun t : RefreshToken =>
            t.userId == 1 && t.revokedAt.isNone,
          s.world.log.map Prod.fst, (s.call 0).seen.length)) = some (true, [0, 1], 3) := by rfl
  obtain ⟨s, hs, hend⟩ := Option.map_eq_some_iff.mp hrun
  simp only [Prod.mk.injEq] at hend
  obtain ⟨husable, hlog, hlen⟩ := hend
  refine ⟨s, hs, fun hfinal => ?_⟩
  obtain ⟨t, ht, hlive⟩ := List.any_eq_true.mp husable
  simp only [Bool.and_eq_true, beq_iff_eq, Option.isNone_iff_eq_none] at hlive
  have hdone : Committed s 0 := by
    have hmem : (0 : Fin 2) ∈ s.world.log.map Prod.fst := by simp [hlog]
    obtain ⟨e, he, hcaller⟩ := List.mem_map.mp hmem
    exact ⟨e, he, hcaller⟩
  have hrev : (overlappingLogout 0).op.RevokesAll sampleDeployment 1 (s.call 0).seen := by
    refine ⟨rfl, fun hnil => ?_⟩
    rw [hnil] at hlen
    cases hlen
  obtain ⟨e, -, hlogin, -⟩ := hfinal 1 0 hrev hdone t ht hlive.1 hlive.2
  have hnone : ∀ i, (overlappingLogout i).op.isLogin = false := by decide
  rw [hnone] at hlogin
  cases hlogin

end EnvVault
