import EnvVault.VaultRuns

/-!
# Rules for the statements of a service call

The rely-guarantee rules of the statements that services are made of: what a
statement has checked when it succeeds, what it adds to the open transaction,
and that the queries in between leave the transaction as it is.
-/
namespace EnvVault
open EnvVault.Relational EnvVault.Transactions

theorem vaultEngine_view (ws : List RowWrite) (db : Db) :
    vaultEngine.view ws db = vaultSchema.view ws db := rfl

section Reads
variable {uow : UnitOfWork}
open UnitOfWork

theorem reads_raiseIf (cond : Bool) (cls : ExnClass) (detail : String) :
    (raiseIf cond cls detail).Reads fun _ => cond = false := by
  unfold raiseIf
  cases cond <;> trivial

theorem reads_readInput : readInput.Reads fun _ => True :=
  .statement fun _ _ _ _ h => ⟨(Prod.mk.inj (Except.ok.inj h)).1.symm, trivial⟩

theorem reads_liftCrypto {α : Type} (r : Except CryptoError α) :
    (liftCrypto r).Reads fun a => r = .ok a := by
  cases r with
  | ok a => exact rfl
  | error e => trivial

theorem reads_select (t : Table) (cond : RowOf t → Bool) :
    (uow.select t cond).Reads fun rows => ∀ r ∈ rows, cond r = true := by
  refine .statement fun _ v ws rows h => ?_
  simp only [Except.ok.injEq, Prod.mk.injEq] at h
  obtain ⟨rfl, rfl⟩ := h
  refine ⟨rfl, fun r hr => ?_⟩
  have := (List.mem_filter.mp hr).2
  simp only [Bool.and_eq_true] at this
  exact this.2

theorem reads_scalarOneOrNone {α : Type} {P : α → Prop} {rows : List α} (h : ∀ r ∈ rows, P r) :
    (scalarOneOrNone rows).Reads fun found => ∀ r, found = some r → P r := by
  unfold scalarOneOrNone
  split
  · exact fun _ hr => nomatch hr
  · exact fun r hr => Option.some.inj hr ▸ h _ List.mem_cons_self
  · trivial

theorem reads_selectOne (t : Table) (cond : RowOf t → Bool) :
    (uow.selectOne t cond).Reads fun found => ∀ r, found = some r → cond r = true :=
  .bind (reads_select t cond) fun _ h => reads_scalarOneOrNone h

theorem reads_get (t : Table) (id : UUID) :
    (uow.get t id).Reads fun found => ∀ r, found = some r → rowId t r = id :=
  (reads_selectOne t _).mono fun _ h r hr => by simpa using h r hr

theorem reads_setRlsContext : setRlsContext.Reads fun _ => True :=
  .bind (.statement fun _ _ _ _ h => ⟨(Prod.mk.inj (Except.ok.inj h)).1.symm, trivial⟩) fun _ _ =>
    .statement fun _ _ _ _ h => ⟨(Prod.mk.inj (Except.ok.inj h)).1.symm, trivial⟩

theorem reads_getActorMembership (org actor : UUID) :
    (getActorMembership uow org actor).Reads fun m =>
      m.userId = actor ∧ m.organizationId = org := by
  refine .bind (reads_selectOne _ _) fun found h => ?_
  cases found with
  | none => trivial
  | some m => simpa [Prog.Reads] using h m rfl

theorem reads_requireOrgRole (org actor : UUID) (minimum : MembershipRole) :
    (requireOrgRole uow org actor minimum).Reads fun m =>
      m.userId = actor ∧ m.organizationId = org :=
  .bind (reads_getActorMembership org actor) fun _ h => .bind (reads_raiseIf _ _ _) fun _ _ => h

theorem reads_requireOrgRoleAgain (loaded : Membership) (org actor : UUID)
    (minimum : MembershipRole) :
    (requireOrgRoleAgain uow loaded org actor minimum).Reads fun _ => True :=
  .bind (reads_getActorMembership org actor) fun _ _ => .bind (reads_raiseIf _ _ _)
    fun _ _ => trivial

theorem reads_countOwners (org : UUID) :
    (MembershipRepository.countOwners uow org).Reads fun _ => True :=
  .bind (reads_select _ _) fun _ _ => trivial

theorem OrganizationService.reads_getOrganization (org : UUID) :
    (OrganizationService.get uow org).Reads fun o => o.id = org := by
  refine .bind (reads_get _ _) fun found h => ?_
  cases found with
  | none => trivial
  | some o => exact h o rfl

theorem MembershipService.reads_getTarget (actor : Membership) (org id : UUID) :
    (getTarget uow actor org id).Reads fun m => m.id = id := by
  refine .bind (reads_get _ _) fun found h => ?_
  cases found with
  | none => trivial
  | some m =>
    refine .bind (reads_raiseIf _ _ _) fun _ _ => ?_
    have hm : m.id = id := h m rfl
    simp only [identityMap]
    split
    · rename_i hkey
      exact hkey.trans hm
    · exact hm

theorem ProjectService.reads_lookup {notFound : ExnClass} (org id : UUID) :
    (ProjectService.lookup uow notFound org id).Reads fun p => p.id = id := by
  refine .bind (reads_get _ _) fun found h => ?_
  split
  · trivial
  · rename_i p hp
    exact h p (Option.eq_some_of_filter_eq_some hp)

theorem EnvironmentService.reads_getIn (org id : UUID) :
    (EnvironmentService.getIn uow org id).Reads fun e => e.id = id := by
  refine .bind (reads_get _ _) fun found h => ?_
  cases found with
  | none => trivial
  | some e =>
    exact .bind (reads_get _ _) fun _ _ => .bind (reads_raiseIf _ _ _)
      fun _ _ => h e rfl

theorem SecretService.reads_resolveEnvironmentOrg (environment org : UUID) :
    (resolveEnvironmentOrg uow environment org).Reads fun _ => True :=
  .bind (EnvironmentService.reads_getIn _ _) fun _ _ => trivial

theorem SecretService.reads_checkCurrentVersion (secret version : UUID) :
    (SecretService.checkCurrentVersion uow secret version).Reads fun _ => True := by
  refine .statement fun inp v ws a h => ⟨?_, trivial⟩
  split at h
  · cases h
  · split at h
    · cases h
    · simp only [Except.ok.injEq, Prod.mk.injEq] at h
      exact h.1.symm

theorem reads_encryptSecret {d : Deployment} (plainValue : String) (key : EncryptionKey) :
    (SecretService.encryptSecret d.kms plainValue key).Reads fun encrypted =>
      CryptoService.decryptSecret d.kms encrypted.1 encrypted.2 key.wrappedDek =
        .ok plainValue := by
  refine .bind reads_readInput fun inp _ => (reads_liftCrypto _).mono fun encrypted h => ?_
  exact CryptoService.decryptSecret_encryptSecret h

end Reads

section Assertions
variable {n : ℕ} {i : Fin n}

theorem stable_true {C : Contract n vaultEngine} {ws : List RowWrite} :
    Stable C i ws fun _ => True := fun _ _ _ _ => trivial

/-- A row that the open transaction has a write for stays as it is: its lock is held. -/
theorem stable_locked {C : Contract n vaultEngine} {ws : List RowWrite} {t : Table} {x : UUID}
    (h : vaultSchema.Touches ws t x) (rows : RowOf t → Prop) :
    Stable C i ws fun W => ∀ r, rowId t r = x → (r ∈ W.db t ↔ rows r) :=
  .of_steps (fun _ _ _ _ hA => hA) fun W _ _ _ _ _ _ hc hA r hr =>
    (Schema.agree_of_untouched (Schema.not_touches_of_apart (Schema.Apart.symm hc) h) W.db r
      hr).trans (hA r hr)

end Assertions

section Rules
variable {n : ℕ} {C : Contract n vaultEngine} {i : Fin n} {uow : UnitOfWork} {t : Table} {β : Type}
  {Q : β → Local Db RowWrite → VaultWorld n → Prop}
  {X : Exn → Local Db RowWrite → VaultWorld n → Prop} {l : Local Db RowWrite} {W : VaultWorld n}
  {A : VaultWorld n → Prop}
  (hX : ∀ e l' V, X e l' V) (hA : Stable C i l.pending A) (hW : A W)
include hX hA hW

/-- A query that matters: its answer is what the view holds at that moment. -/
theorem wlp_select_bind {cond : RowOf t → Bool} {k : List (RowOf t) → Tx β}
    (h : ∀ V, A V → C.inv V → ∀ inp,
      wlp C i (k (uow.found t cond (vaultSchema.view l.pending V.db))) Q X
        ⟨l.pending, V.db :: l.seen⟩ (V.consume inp)) :
    wlp C i ((uow.select t cond).bind k) Q X l W := by
  refine wlp_statement_bind hX hA hW fun V inp ws rows hAV hi _ hf => ?_
  simp only [Except.ok.injEq, Prod.mk.injEq] at hf
  obtain ⟨rfl, rfl⟩ := hf
  rw [List.append_nil]
  exact h V hAV hi inp

/-- A query for one row: it finds none, or it finds one in the view. -/
theorem wlp_selectOne_found_bind {cond : RowOf t → Bool} {k : Option (RowOf t) → Tx β}
    (hnone : ∀ V, A V → uow.found t cond (vaultSchema.view l.pending V.db) = [] →
      wlp C i (k none) Q X ⟨l.pending, V.db :: l.seen⟩ V)
    (hsome : ∀ V inp r, A V → C.inv V → r ∈ vaultSchema.view l.pending V.db t → cond r = true →
      wlp C i (k (some r)) Q X ⟨l.pending, V.db :: l.seen⟩ (V.consume inp)) :
    wlp C i ((uow.selectOne t cond).bind k) Q X l W := by
  rw [UnitOfWork.selectOne_bind]
  refine wlp_statement_bind hX hA hW fun V inp ws rows hAV hi hfresh hf => ?_
  simp only [Except.ok.injEq, Prod.mk.injEq] at hf
  obtain ⟨rfl, rfl⟩ := hf
  rw [List.append_nil]
  have hmem : ∀ r ∈ uow.found t cond (vaultEngine.view l.pending V.db),
      r ∈ vaultSchema.view l.pending V.db t ∧ cond r = true := by
    intro r hr
    obtain ⟨hr, hc⟩ := List.mem_filter.mp hr
    simp only [Bool.and_eq_true] at hc
    exact ⟨hr, hc.2⟩
  unfold UnitOfWork.scalarOneOrNone
  split
  · rename_i hfound
    exact wlp_interference (hnone V hAV hfound) (.consume inp (.refl V) hi hfresh)
  · rename_i r hr
    rw [hr] at hmem
    obtain ⟨hr, hc⟩ := hmem r List.mem_cons_self
    exact hsome V inp r hAV hi hr hc
  · exact wlp_raise hX

/-- A query for one row that finds a row finds it in the view. -/
theorem wlp_selectOne_bind {cond : RowOf t → Bool} {k : Option (RowOf t) → Tx β}
    (hnone : ∀ V, A V → wlp C i (k none) Q X ⟨l.pending, V.db :: l.seen⟩ V)
    (hsome : ∀ V inp r, A V → C.inv V → r ∈ vaultSchema.view l.pending V.db t → cond r = true →
      wlp C i (k (some r)) Q X ⟨l.pending, V.db :: l.seen⟩ (V.consume inp)) :
    wlp C i ((uow.selectOne t cond).bind k) Q X l W :=
  wlp_selectOne_found_bind hX hA hW (fun V hAV _ => hnone V hAV) hsome

theorem wlp_get_bind {id : UUID} {k : Option (RowOf t) → Tx β}
    (hnone : ∀ V, A V → wlp C i (k none) Q X ⟨l.pending, V.db :: l.seen⟩ V)
    (hsome : ∀ V inp r, A V → C.inv V → r ∈ vaultSchema.view l.pending V.db t → rowId t r = id →
      wlp C i (k (some r)) Q X ⟨l.pending, V.db :: l.seen⟩ (V.consume inp)) :
    wlp C i ((uow.get t id).bind k) Q X l W :=
  wlp_selectOne_bind hX hA hW hnone fun V inp r hAV hi hr hc =>
    hsome V inp r hAV hi hr (by simpa using hc)

theorem wlp_insertFlushed_bind {row : Input → RowOf t} {k : RowOf t → Tx β}
    (h : ∀ V inp, A V → C.inv V →
      vaultSchema.admitsInsert t (row inp) (vaultSchema.view l.pending V.db) = true →
      wlp C i (k (row inp)) Q X ⟨l.pending ++ [.insert t (row inp)], V.db :: l.seen⟩
        (V.consume inp)) :
    wlp C i ((uow.insertFlushed t row).bind k) Q X l W := by
  refine wlp_statement_bind hX hA hW fun V inp ws r hAV hi _ hf => ?_
  obtain ⟨rfl, rfl, hadm⟩ := UnitOfWork.insertRow_ok hf
  exact h V inp hAV hi hadm

/-- An UPDATE by id reaches nothing, or stores a new version of a row of the view. -/
theorem wlp_updateById_bind {id : UUID} {cond : RowOf t → Bool}
    {set : Input → RowOf t → RowOf t} {k : ℕ → Tx β}
    (hnone : ∀ V inp, A V → C.inv V →
      uow.reached t id cond (vaultSchema.view l.pending V.db) = none →
      wlp C i (k 0) Q X ⟨l.pending, V.db :: l.seen⟩ (V.consume inp))
    (hsome : ∀ V inp r, A V → C.inv V → r ∈ vaultSchema.view l.pending V.db t →
      rowId t r = id → cond r = true →
      wlp C i (k 1) Q X ⟨l.pending ++ [.update t (set inp r)], V.db :: l.seen⟩ (V.consume inp)) :
    wlp C i ((uow.updateById t id cond set).bind k) Q X l W := by
  refine wlp_statement_bind hX hA hW fun V inp ws count hAV hi _ hf => ?_
  rcases UnitOfWork.updateRow_ok hf with ⟨rfl, rfl, hnot⟩ | ⟨r, hr, hid, hc, rfl, rfl, -⟩
  · rw [List.append_nil]
    exact hnone V inp hAV hi hnot
  · exact hsome V inp r hAV hi hr hid hc

/-- The UPDATE of a changed object stores a new version of its row. -/
theorem wlp_updateFlushed_bind {id : UUID} {set : RowOf t → RowOf t} {k : Unit → Tx β}
    (h : ∀ V inp r, A V → C.inv V → r ∈ vaultSchema.view l.pending V.db t → rowId t r = id →
      wlp C i (k ()) Q X ⟨l.pending ++ [.update t (set r)], V.db :: l.seen⟩ (V.consume inp)) :
    wlp C i ((uow.updateFlushed t id set).bind k) Q X l W := by
  rw [UnitOfWork.updateFlushed_bind]
  exact wlp_updateById_bind hX hA hW (fun V inp _ _ _ => wlp_raise hX)
    fun V inp r hAV hi hr hid _ => h V inp r hAV hi hr hid

/-- A DELETE by id finds nothing, or deletes the row with its referential actions. -/
theorem wlp_delete_bind {id : UUID} {k : Unit → Tx β}
    (hnone : ∀ V inp, A V → C.inv V →
      wlp C i (k ()) Q X ⟨l.pending, V.db :: l.seen⟩ (V.consume inp))
    (hsome : ∀ V inp ws, A V → C.inv V →
      vaultSchema.deleteRow t id (vaultSchema.view l.pending V.db) = .ok ws →
      wlp C i (k ()) Q X ⟨l.pending ++ ws, V.db :: l.seen⟩ (V.consume inp)) :
    wlp C i ((uow.delete t id).bind k) Q X l W := by
  refine wlp_statement_bind hX hA hW fun V inp ws a hAV hi _ hf => ?_
  rcases UnitOfWork.deleteRow_ok hf with rfl | hf
  · rw [List.append_nil]
    exact hnone V inp hAV hi
  · exact hsome V inp ws hAV hi hf

/-- The commit that ends the work of a call: after it the call only reads. -/
theorem wlp_commit_reads {P : β → Prop} {k : Unit → Tx β} (hk : (k ()).Reads P)
    (hG : ∀ V, A V → C.inv V → C.assume i V l.pending → C.guar i V l.pending)
    (hQ : ∀ V b seen, A V → C.inv V → C.assume i V l.pending → C.guar i V l.pending → P b →
      l.seen <:+ seen → ∀ U, Interference C i [] (V.commit vaultEngine i l.pending) U →
        Q b ⟨[], seen⟩ U) :
    wlp C i (UnitOfWork.commit.bind k) Q X l W := by
  rw [UnitOfWork.commit_bind]
  refine wlp_commit_bind hX hA hW hG fun V hAV hi ha hg => ?_
  refine wlp_reads (P := P) (.bind reads_setRlsContext fun _ _ => hk) hX
    (A := fun U => Interference C i [] (V.commit vaultEngine i l.pending) U)
    (fun _ _ hU h => h.trans hU) (.refl _) fun b seen U hP hs hU => ?_
  exact hQ V b seen hAV hi ha hg hP ((List.suffix_cons _ _).trans hs) U hU

theorem wlp_commit_last {b : β}
    (hG : ∀ V, A V → C.inv V → C.assume i V l.pending → C.guar i V l.pending)
    (hQ : ∀ l' V, Q b l' V) : wlp C i (UnitOfWork.commit.bind fun _ => .ret b) Q X l W :=
  wlp_commit_reads hX hA hW (P := fun c => c = b) rfl hG
    fun _ _ _ _ _ _ _ hP _ _ _ => hP ▸ hQ _ _

theorem wlp_commit_end {Q : Unit → Local Db RowWrite → VaultWorld n → Prop}
    (hG : ∀ V, A V → C.inv V → C.assume i V l.pending → C.guar i V l.pending)
    (hQ : ∀ l' V, Q () l' V) : wlp C i UnitOfWork.commit Q X l W := by
  rw [← Prog.bind_ret UnitOfWork.commit]
  exact wlp_commit_last hX hA hW hG hQ

end Rules

section Handlers
variable {n : ℕ} {C : Contract n vaultEngine} {i : Fin n} {β : Type}
  {Q : β → Local Db RowWrite → VaultWorld n → Prop}
  {X : Exn → Local Db RowWrite → VaultWorld n → Prop} {l : Local Db RowWrite} {W : VaultWorld n}

theorem wlp_throw {e : Exn} (hX : ∀ e l' V, X e l' V) : wlp C i (throw e : Tx β) Q X l W :=
  wlp_raise hX

/-- A handler that rolls back and raises asks for nothing. -/
theorem wlp_conflict {body : Tx β} {exn : Exn} (hX : ∀ e l' V, X e l' V)
    (hb : wlp C i body Q (fun _ _ _ => True) l W) :
    wlp C i (exceptIntegrityError body (do UnitOfWork.rollback; throw exn)) Q X l W := by
  refine wlp_handle (wlp_mono (fun _ _ _ h => h) (fun e l' V _ => ?_) hb)
  split
  · exact wlp_rollback_bind fun V => wlp_raise hX
  · exact wlp_raise hX

/-- A call whose result does not matter. -/
theorem wlp_map {α : Type} {p : Tx α} {f : α → β} (hQ : ∀ b l' V, Q b l' V)
    (hp : wlp C i p (fun _ _ _ => True) X l W) : wlp C i (f <$> p) Q X l W :=
  wlp_bind (wlp_mono (fun _ _ _ _ _ _ => hQ _ _ _) (fun _ _ _ h => h) hp)

end Handlers

end EnvVault
