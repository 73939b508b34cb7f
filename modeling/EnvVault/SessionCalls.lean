import EnvVault.FailingStatements

/-!
# The session methods, run alone

What `login`, `refresh`, `logout` and `logout_all` do to the refresh tokens when no
other transaction is open: they revoke the unrevoked tokens of some kind and may issue
one more.
-/
namespace EnvVault
open EnvVault.Relational EnvVault.Transactions

/-- The token as it is after a revocation of the tokens that satisfy `P`. -/
def revokedWhere (P : RefreshToken → Bool) (time : RefreshToken → Timestamp) (t : RefreshToken) :
    RefreshToken :=
  if P t && t.revokedAt.isNone then t.revokedFrom (time t) else t

/-- The database in which the unrevoked tokens that satisfy `P` are revoked and tokens
are issued. -/
def tokensAfter (P : RefreshToken → Bool) (time : RefreshToken → Timestamp)
    (issued : List RefreshToken) (db : Db) : Db :=
  Function.update db .refreshTokens ((db .refreshTokens).map (revokedWhere P time) ++ issued)

section
variable {P : RefreshToken → Bool} {time : RefreshToken → Timestamp} {issued : List RefreshToken}
  {db : Db}

@[simp] theorem tokensAfter_tokens : tokensAfter P time issued db .refreshTokens =
    (db .refreshTokens).map (revokedWhere P time) ++ issued := by simp [tokensAfter]

theorem tokensAfter_revoked : tokensAfter P time [] db .refreshTokens =
    (db .refreshTokens).map (revokedWhere P time) := by simp

theorem tokensAfter_other {t : Table} (ht : t ≠ .refreshTokens) :
    tokensAfter P time issued db t = db t := Function.update_of_ne ht _ _

theorem revokedWhere_of_not {t : RefreshToken} (h : ¬ (P t = true ∧ t.revokedAt = none)) :
    revokedWhere P time t = t := by
  refine if_neg fun hc => h ?_
  simpa using hc

@[simp] theorem revokedWhere_id (t : RefreshToken) : (revokedWhere P time t).id = t.id := by
  unfold revokedWhere
  split <;> rfl

@[simp] theorem revokedWhere_userId (t : RefreshToken) :
    (revokedWhere P time t).userId = t.userId := by
  unfold revokedWhere
  split <;> rfl

@[simp] theorem revokedWhere_tokenHash (t : RefreshToken) :
    (revokedWhere P time t).tokenHash = t.tokenHash := by
  unfold revokedWhere
  split <;> rfl

@[simp] theorem revokedWhere_expiresAt (t : RefreshToken) :
    (revokedWhere P time t).expiresAt = t.expiresAt := by
  unfold revokedWhere
  split <;> rfl

theorem revokedWhere_isSome (t : RefreshToken) : (revokedWhere P time t).revokedAt.isSome = true ↔
    t.revokedAt.isSome = true ∨ P t = true := by
  unfold revokedWhere
  cases hlive : t.revokedAt <;> cases P t <;> simp [hlive, RefreshToken.revokedFrom]

theorem map_revokedWhere_none (rows : List RefreshToken) :
    rows = rows.map (revokedWhere (fun _ => false) fun _ => 0) := by
  refine (List.map_id _).symm.trans (List.map_congr_left fun t _ => ?_)
  exact (revokedWhere_of_not fun hc => absurd hc.1 Bool.false_ne_true).symm

/-- Revoking none of them is doing nothing. -/
theorem tokensAfter_unchanged (h : ∀ t ∈ db .refreshTokens, P t = true → t.revokedAt ≠ none) :
    tokensAfter P time [] db = db := by
  have hmap : (db .refreshTokens).map (revokedWhere P time) = db .refreshTokens := by
    refine (List.map_congr_left fun t ht => ?_).trans (List.map_id _)
    exact revokedWhere_of_not fun hc => h t ht hc.1 hc.2
  rw [tokensAfter, hmap, List.append_nil, Function.update_eq_self]

end

section
variable (uow : UnitOfWork) (inputs : ℕ → Input) {ws : List RowWrite} {db v : Db}

/-- A query for one row that no other can be, run alone. -/
theorem selectOne_find {t : Table} (hv : vaultSchema.Valid db)
    (ht : t = .users ∨ t = .refreshTokens) {cond : RowOf t → Bool}
    (honly : ∀ a ∈ db t, ∀ b ∈ db t, cond a = true → cond b = true → a = b) (k : ℕ) :
    (uow.selectOne t cond).exec vaultEngine inputs ⟨k, [], db⟩ =
      (.ok ((db t).find? cond), ⟨k + 1, [], db⟩) := by
  have hselect : (uow.select t cond).exec vaultEngine inputs ⟨k, [], db⟩ =
      (.ok ((db t).filter cond), ⟨k + 1, [], db⟩) := by
    rw [UnitOfWork.select, Prog.exec_statement]
    simp only [vaultEngine_view, Schema.view_nil, found_open uow ht, List.append_nil]
  rw [UnitOfWork.selectOne, Prog.bind_eq, Prog.exec_bind, hselect, ← List.head?_filter]
  cases hrows : (db t).filter cond with
  | nil => rfl
  | cons a rows =>
    cases rows with
    | nil => rfl
    | cons b rows =>
      have hmem : ∀ r ∈ a :: b :: rows, r ∈ db t ∧ cond r = true := fun r hr => by
        rw [← hrows] at hr
        exact List.mem_filter.mp hr
      have hab := honly a (hmem a (by simp)).1 b (hmem b (by simp)).1 (hmem a (by simp)).2
        (hmem b (by simp)).2
      have hnodup : ((db t).filter cond).Nodup := (List.Nodup.of_map _ (hv.keys t)).filter _
      rw [hrows, hab] at hnodup
      simp at hnodup

/-- The constraints do not stand against revoking a token. -/
theorem admitsUpdate_revokedFrom (hv : vaultSchema.Valid v) {t : RefreshToken}
    (ht : t ∈ v .refreshTokens) (time : Timestamp) :
    vaultSchema.admitsUpdate .refreshTokens (t.revokedFrom time) v = true := by
  simp only [Schema.admitsUpdate, Bool.and_eq_true]
  constructor
  · refine Schema.uniqueAmong_iff.mpr fun x hx hne u hu => ?_
    obtain rfl : u = fun a b : RefreshToken => a.tokenHash == b.tokenHash := by
      simpa [vaultSchema, uniqueOf] using hu
    exact ⟨hv.unique .refreshTokens _ hu x hx t ht hne,
      hv.unique .refreshTokens _ hu t ht x hx (Ne.symm hne)⟩
  · have hparent := parent_exists hv ht (by simp [referencesOf] :
      (.users, some t.userId) ∈ referencesOf .refreshTokens t)
    simpa [vaultSchema_referencesHold, referencesOf, RefreshToken.revokedFrom] using hparent

/-- The conditional UPDATE of a token it reaches. -/
theorem updateRow_revokedFrom (hv : vaultSchema.Valid v) {t : RefreshToken}
    (ht : t ∈ v .refreshTokens) {cond : RefreshToken → Bool} (hcond : cond t = true)
    (time : Timestamp) :
    uow.updateRow .refreshTokens t.id cond (fun t : RefreshToken => t.revokedFrom time) v =
      .ok ([.update .refreshTokens (t.revokedFrom time)], 1) := by
  have hmay : ∀ a (r : RefreshToken), uow.may v a .refreshTokens r = true := fun a r => by
    simp [UnitOfWork.may, mayAccess, policiesAdmit]
  have hreached : uow.reached .refreshTokens t.id cond v = some t := by
    cases hfind : uow.reached .refreshTokens t.id cond v with
    | none =>
      have hnone := List.find?_eq_none.mp hfind t ht
      simp [hmay, hcond, rowId] at hnone
    | some r =>
      have hr := List.find?_some hfind
      simp only [Bool.and_eq_true, beq_iff_eq] at hr
      exact congrArg some (hv.eq_of_id (t := .refreshTokens) (List.mem_of_find?_eq_some hfind) ht
        hr.1.1.1)
  have hopen : vaultSchema.appendOnly .refreshTokens = false := rfl
  simp [UnitOfWork.updateRow, hreached, hmay, hopen, admitsUpdate_revokedFrom hv ht time]

/-- The UPDATE of one token that is not revoked. -/
theorem exec_updateById_revokedFrom (cond : RefreshToken → Bool)
    (hview : vaultSchema.view ws db = v) (hv : vaultSchema.Valid v) {t : RefreshToken}
    (ht : t ∈ v .refreshTokens) (hcond : cond t = true) (k : ℕ) :
    (uow.updateById .refreshTokens t.id cond fun inp t => t.revokedFrom inp.now).exec vaultEngine
      inputs ⟨k, ws, db⟩ =
      (.ok 1, ⟨k + 1, ws ++ [.update .refreshTokens (t.revokedFrom (inputs k).now)], db⟩) := by
  rw [UnitOfWork.updateById, Prog.exec_statement]
  simp only [vaultEngine_view, hview]
  rw [updateRow_revokedFrom uow hv ht hcond]

theorem apply_revokedFrom (hv : vaultSchema.Valid v) {t : RefreshToken}
    (ht : t ∈ v .refreshTokens) (time : Timestamp) :
    vaultSchema.apply (.update .refreshTokens (t.revokedFrom time)) v .refreshTokens =
      (v .refreshTokens).map fun x => if x = t then t.revokedFrom time else x := by
  rw [Schema.apply_update_self]
  refine List.map_congr_left fun x hx => if_congr ⟨fun h => ?_, fun h => ?_⟩ rfl rfl
  · exact hv.eq_of_id (t := .refreshTokens) hx ht h
  · rw [h]
    rfl

/-- The UPDATE of several tokens, one after the other. -/
theorem exec_updateEach_revokedFrom (cond : RefreshToken → Bool) (rs : List RefreshToken)
    (hnodup : (rs.map RefreshToken.id).Nodup) (k : ℕ) (hview : vaultSchema.view ws db = v)
    (hv : vaultSchema.Valid v) (hrs : ∀ t ∈ rs, t ∈ v .refreshTokens ∧ cond t = true) :
    ∃ (vs : List RowWrite) (time : RefreshToken → Timestamp),
      (uow.updateEach .refreshTokens cond (fun inp t => t.revokedFrom inp.now)
        (rs.map RefreshToken.id)).exec vaultEngine inputs ⟨k, ws, db⟩ =
        (.ok (), ⟨k + rs.length, ws ++ vs, db⟩) ∧
      vaultSchema.Valid (vaultSchema.view (ws ++ vs) db) ∧
      vaultSchema.view (ws ++ vs) db = Function.update v .refreshTokens
        ((v .refreshTokens).map fun t => if t ∈ rs then t.revokedFrom (time t) else t) := by
  induction rs generalizing k ws v with
  | nil =>
    refine ⟨[], fun _ => 0, ?_, ?_, ?_⟩
    · simp [UnitOfWork.updateEach]
    · simpa [hview] using hv
    · simp [hview]
  | cons r rs ih =>
    obtain ⟨hr, hcond⟩ := hrs r List.mem_cons_self
    have hnew : r.id ∉ rs.map RefreshToken.id := (List.nodup_cons.mp hnodup).1
    have hview' : vaultSchema.view (ws ++ [.update .refreshTokens
        (r.revokedFrom (inputs k).now)]) db =
          vaultSchema.apply (.update .refreshTokens (r.revokedFrom (inputs k).now)) v := by
      rw [Schema.view_append, hview]
      rfl
    have hv' := hv.update (admitsUpdate_revokedFrom hv hr (inputs k).now)
    have hstay : ∀ t ∈ rs, t ∈ vaultSchema.apply
        (.update .refreshTokens (r.revokedFrom (inputs k).now)) v .refreshTokens ∧
          cond t = true := by
      intro t ht
      obtain ⟨hmem, hc⟩ := hrs t (List.mem_cons_of_mem _ ht)
      refine ⟨Schema.mem_apply_update.mpr (Or.inr ⟨hmem, fun hid => hnew ?_⟩), hc⟩
      exact List.mem_map.mpr ⟨t, ht, hid⟩
    obtain ⟨vs, time, hexec, hvalid, hlast⟩ := ih (List.nodup_cons.mp hnodup).2 (k + 1) hview' hv'
      hstay
    refine ⟨.update .refreshTokens (r.revokedFrom (inputs k).now) :: vs,
      fun t => if t = r then (inputs k).now else time t, ?_, ?_, ?_⟩
    · rw [List.map_cons, UnitOfWork.updateEach, Prog.bind_eq, Prog.exec_bind,
        exec_updateById_revokedFrom uow inputs cond hview hv hr hcond k]
      simp only [hexec, List.append_assoc, List.singleton_append, List.length_cons]
      rw [Nat.add_assoc, Nat.add_comm 1]
    · simpa using hvalid
    · have hassoc : ws ++ .update .refreshTokens (r.revokedFrom (inputs k).now) :: vs =
          ws ++ [.update .refreshTokens (r.revokedFrom (inputs k).now)] ++ vs := by simp
      rw [hassoc, hlast, apply_revokedFrom hv hr]
      simp only [Schema.apply, Function.update_idem, List.map_map]
      congr 1
      refine List.map_congr_left fun t ht => ?_
      by_cases htr : t = r
      · subst htr
        have hout : t.revokedFrom (inputs k).now ∉ rs := fun hmem =>
          hnew (List.mem_map.mpr ⟨_, hmem, rfl⟩)
        simp [hout]
      · simp [htr]

theorem exec_commit (k : ℕ) : UnitOfWork.commit.exec vaultEngine inputs ⟨k, ws, db⟩ =
    (.ok (), ⟨k + 2, [], vaultSchema.view ws db⟩) := rfl

theorem exec_readInput (k : ℕ) :
    readInput.exec vaultEngine inputs ⟨k, ws, db⟩ = (.ok (inputs k), ⟨k + 1, ws, db⟩) := by
  simp [readInput, Prog.exec_statement]

open RefreshTokenRepository

/-- The token with this digest. -/
theorem exec_getByTokenHash (hv : vaultSchema.Valid db) {t : RefreshToken}
    (ht : t ∈ db .refreshTokens) (k : ℕ) :
    (getByTokenHash uow t.tokenHash).exec vaultEngine inputs ⟨k, [], db⟩ =
      (.ok (some t), ⟨k + 1, [], db⟩) := by
  have honly : ∀ a ∈ db .refreshTokens, ∀ b ∈ db .refreshTokens,
      (a.tokenHash == t.tokenHash) = true → (b.tokenHash == t.tokenHash) = true → a = b :=
    fun a ha b hb hat hbt => eq_of_tokenHash hv ha hb ((eq_of_beq hat).trans (eq_of_beq hbt).symm)
  rw [getByTokenHash, selectOne_find uow inputs hv (Or.inr rfl) honly]
  cases hfind : (db .refreshTokens).find? fun a => a.tokenHash == t.tokenHash with
  | none => simpa using List.find?_eq_none.mp hfind t ht
  | some a =>
    obtain rfl := eq_of_tokenHash hv (List.mem_of_find?_eq_some hfind) ht
      (eq_of_beq (List.find?_some hfind :))
    rfl

/-- No token has this digest. -/
theorem exec_getByTokenHash_none (hv : vaultSchema.Valid db) {tokenHash : String}
    (hnone : ∀ t ∈ db .refreshTokens, t.tokenHash ≠ tokenHash) (k : ℕ) :
    (getByTokenHash uow tokenHash).exec vaultEngine inputs ⟨k, [], db⟩ =
      (.ok none, ⟨k + 1, [], db⟩) := by
  have honly : ∀ a ∈ db .refreshTokens, ∀ b ∈ db .refreshTokens,
      (a.tokenHash == tokenHash) = true → (b.tokenHash == tokenHash) = true → a = b :=
    fun a ha _ _ hat _ => absurd (eq_of_beq hat) (hnone a ha)
  have hfind : ((db .refreshTokens).find? fun a => a.tokenHash == tokenHash) = none :=
    List.find?_eq_none.mpr fun t ht => by simpa using hnone t ht
  rw [getByTokenHash, selectOne_find uow inputs hv (Or.inr rfl) honly, hfind]

/-- The user of a token. -/
theorem exec_getUser (hv : vaultSchema.Valid db) {user : User} (hu : user ∈ db .users) (k : ℕ) :
    (UserRepository.get uow user.id).exec vaultEngine inputs ⟨k, [], db⟩ =
      (.ok (some user), ⟨k + 1, [], db⟩) := by
  have honly : ∀ a ∈ db .users, ∀ b ∈ db .users,
      (rowId .users a == user.id) = true → (rowId .users b == user.id) = true → a = b :=
    fun a ha b hb hau hbu => hv.eq_of_id ha hb ((eq_of_beq hau).trans (eq_of_beq hbu).symm)
  rw [UserRepository.get, UnitOfWork.get, selectOne_find uow inputs hv (Or.inl rfl) honly]
  cases hfind : (db .users).find? fun a => rowId .users a == user.id with
  | none => simpa [rowId] using List.find?_eq_none.mp hfind user hu
  | some a =>
    obtain rfl : a = user := hv.eq_of_id (t := .users) (List.mem_of_find?_eq_some hfind) hu
      (eq_of_beq (List.find?_some hfind :))
    rfl

/-- Revoking one token that is not revoked. -/
theorem exec_revoke (hv : vaultSchema.Valid db) {t : RefreshToken} (ht : t ∈ db .refreshTokens)
    (hlive : t.revokedAt = none) (k : ℕ) :
    (revoke uow t.id).exec vaultEngine inputs ⟨k, [], db⟩ =
      (.ok (), ⟨k + 1, [.update .refreshTokens (t.revokedFrom (inputs k).now)], db⟩) := by
  have hexec := exec_updateById_revokedFrom uow inputs (fun t => t.revokedAt.isNone)
    (vaultSchema.view_nil db) hv ht (by simp [hlive]) k
  simp only [revoke, Prog.bind_eq, Prog.exec_bind]
  simp only [RefreshToken.revokedFrom] at hexec
  rw [hexec]
  rfl

/-- What it makes of the database. -/
theorem view_revoke (hv : vaultSchema.Valid db) {t : RefreshToken} (ht : t ∈ db .refreshTokens)
    (hlive : t.revokedAt = none) (time : Timestamp) :
    vaultSchema.view [.update .refreshTokens (t.revokedFrom time)] db =
      tokensAfter (fun x => x.tokenHash == t.tokenHash) (fun _ => time) [] db := by
  have hmap : (db .refreshTokens).map (revokedWhere (fun x => x.tokenHash == t.tokenHash)
      fun _ => time) = vaultSchema.apply (.update .refreshTokens (t.revokedFrom time)) db
        .refreshTokens := by
    rw [apply_revokedFrom hv ht]
    refine List.map_congr_left fun x hx => ?_
    by_cases hxt : x = t
    · subst hxt
      simp [revokedWhere, hlive]
    · rw [if_neg hxt]
      refine revokedWhere_of_not fun hc => hxt ?_
      exact eq_of_tokenHash hv hx ht (eq_of_beq hc.1)
  rw [tokensAfter, List.append_nil, hmap, Schema.apply_update_self]
  rfl

/-- Revoking the tokens of a user. -/
theorem exec_revokeAllForUser (hv : vaultSchema.Valid db) (userId : UUID) (k : ℕ) :
    ∃ (k' : ℕ) (vs : List RowWrite) (time : RefreshToken → Timestamp),
      (revokeAllForUser uow userId).exec vaultEngine inputs ⟨k, [], db⟩ = (.ok (), ⟨k', vs, db⟩) ∧
      vaultSchema.Valid (vaultSchema.view vs db) ∧
      vaultSchema.view vs db = tokensAfter (fun t => t.userId == userId) time [] db := by
  have hselect : (uow.select .refreshTokens fun t : RefreshToken => t.userId == userId &&
      t.revokedAt.isNone).exec vaultEngine inputs ⟨k, [], db⟩ = (.ok ((db .refreshTokens).filter
        fun t : RefreshToken => t.userId == userId && t.revokedAt.isNone), ⟨k + 1, [], db⟩) := by
    rw [UnitOfWork.select, Prog.exec_statement]
    simp only [vaultEngine_view, Schema.view_nil, found_open uow (Or.inr rfl), List.append_nil]
  obtain ⟨vs, time, hexec, hvalid, hview⟩ := exec_updateEach_revokedFrom uow inputs
    (fun t => t.userId == userId && t.revokedAt.isNone)
    ((db .refreshTokens).filter fun t => t.userId == userId && t.revokedAt.isNone)
    ((hv.keys .refreshTokens).sublist (List.filter_sublist.map _)) (k + 1)
    (vaultSchema.view_nil db) hv fun t ht => List.mem_filter.mp ht
  refine ⟨k + 1 + ((db .refreshTokens).filter fun t : RefreshToken => t.userId == userId &&
    t.revokedAt.isNone).length, vs, time, ?_, hvalid, ?_⟩
  · simp only [revokeAllForUser, UnitOfWork.updateWhere, Prog.bind_eq, Prog.exec_bind, hselect]
    exact hexec
  · refine Eq.trans hview ?_
    rw [tokensAfter, List.append_nil]
    congr 1
    refine List.map_congr_left fun t ht => ?_
    simp [revokedWhere, ht]

/-- The row of a token issued for a user. -/
def issuedToken (security : SecurityModules) (userId : UUID) (inp row : Input) : RefreshToken :=
  ⟨row.uuid, userId, security.hashRefreshToken inp.rawToken,
    inp.now + security.refreshTokenLifetime, none⟩

open AuthService

/-- Issuing a token reads at least two inputs. -/
theorem exec_issueTokenPair_next_le (security : SecurityModules) (userId : UUID) (k : ℕ) :
    k + 2 ≤ ((issueTokenPair security uow userId).exec vaultEngine inputs ⟨k, ws, db⟩).2.next := by
  simp only [issueTokenPair, Prog.bind_eq, Prog.exec_bind, exec_readInput, UnitOfWork.insertFlushed,
    Prog.exec_statement]
  split
  · rename_i hmatch
    split at hmatch
    · cases hmatch
      exact (by omega : k + 2 ≤ k + 5)
    · cases hmatch
  · rename_i hmatch
    split at hmatch
    · cases hmatch
    · cases hmatch
      exact le_rfl

/-- A token with a new key and a new digest is issued. -/
theorem exec_issueTokenPair (security : SecurityModules) (hview : vaultSchema.view ws db = v)
    {user : User} (huser : user ∈ v .users) (k : ℕ)
    (hnew : ∀ t ∈ v .refreshTokens, t.id ≠ (inputs (k + 1)).uuid ∧
      t.tokenHash ≠ security.hashRefreshToken (inputs k).rawToken) :
    vaultSchema.admitsInsert .refreshTokens
      (issuedToken security user.id (inputs k) (inputs (k + 1))) v = true ∧
    (issueTokenPair security uow user.id).exec vaultEngine inputs ⟨k, ws, db⟩ =
      (.ok (security.createAccessToken user.id (inputs (k + 4)).now, (inputs k).rawToken),
        ⟨k + 5, [], vaultSchema.apply (.insert .refreshTokens
          (issuedToken security user.id (inputs k) (inputs (k + 1)))) v⟩) := by
  have hadmits : vaultSchema.admitsInsert .refreshTokens
      (issuedToken security user.id (inputs k) (inputs (k + 1))) v = true := by
    refine Schema.admitsInsert_iff.mpr ⟨fun t ht => (hnew t ht).1, ?_, ?_⟩
    · refine Schema.uniqueAmong_iff.mpr fun t ht _ u hu => ?_
      obtain rfl : u = fun a b : RefreshToken => a.tokenHash == b.tokenHash := by
        simpa [vaultSchema, uniqueOf] using hu
      have hne := (hnew t ht).2
      exact ⟨by simpa [issuedToken] using hne, by simpa [issuedToken] using Ne.symm hne⟩
    · refine vaultSchema_referencesHold.mpr fun p hp x hx => ?_
      obtain rfl : p = (.users, some user.id) := by simpa [referencesOf, issuedToken] using hp
      obtain rfl : user.id = x := by simpa using hx
      exact ⟨user, huser, rfl⟩
  refine ⟨hadmits, ?_⟩
  have hmay : ∀ a (r : RefreshToken), uow.may v a .refreshTokens r = true := fun a r => by
    simp [UnitOfWork.may, mayAccess, policiesAdmit]
  have hinsert : (uow.insertFlushed .refreshTokens fun row =>
      issuedToken security user.id (inputs k) row).exec vaultEngine inputs ⟨k + 1, ws, db⟩ =
        (.ok (issuedToken security user.id (inputs k) (inputs (k + 1))), ⟨k + 2, ws ++
          [.insert .refreshTokens (issuedToken security user.id (inputs k) (inputs (k + 1)))],
            db⟩) := by
    rw [UnitOfWork.insertFlushed, Prog.exec_statement]
    simp only [vaultEngine_view, hview]
    simp [UnitOfWork.insertRow, hmay, hadmits]
  have hafter : vaultSchema.view (ws ++ [.insert .refreshTokens
      (issuedToken security user.id (inputs k) (inputs (k + 1)))]) db =
        vaultSchema.apply (.insert .refreshTokens
          (issuedToken security user.id (inputs k) (inputs (k + 1)))) v := by
    rw [Schema.view_append, hview]
    rfl
  simp only [issuedToken] at hinsert hafter ⊢
  simp only [issueTokenPair, Prog.bind_eq, Prog.exec_bind, exec_readInput, hinsert, exec_commit,
    hafter]
  rfl

/-- The end of `login` and of `refresh`. -/
theorem exec_issueTokenPair_bind {security : SecurityModules}
    (hview : vaultSchema.view ws db = v) (hv : vaultSchema.Valid v) {user : User}
    (huser : user ∈ v .users) (k : ℕ)
    (hnew : k + 2 ≤ (((issueTokenPair security uow user.id).bind fun tokens =>
      .ret (⟨user, tokens.1, tokens.2⟩ : TokenPair)).exec vaultEngine inputs ⟨k, ws, db⟩).2.next →
        ∀ t ∈ v .refreshTokens, t.id ≠ (inputs (k + 1)).uuid ∧
          t.tokenHash ≠ security.hashRefreshToken (inputs k).rawToken) :
    ∃ accessToken, ((issueTokenPair security uow user.id).bind fun tokens =>
        .ret (⟨user, tokens.1, tokens.2⟩ : TokenPair)).exec vaultEngine inputs ⟨k, ws, db⟩ =
        (.ok ⟨user, accessToken, (inputs k).rawToken⟩, ⟨k + 5, [], vaultSchema.apply
          (.insert .refreshTokens (issuedToken security user.id (inputs k) (inputs (k + 1)))) v⟩) ∧
      vaultSchema.Valid (vaultSchema.apply
        (.insert .refreshTokens (issuedToken security user.id (inputs k) (inputs (k + 1)))) v) := by
  rw [← Prog.map_eq, Prog.exec_map] at hnew ⊢
  obtain ⟨hadmits, hissue⟩ := exec_issueTokenPair uow inputs security hview huser k
    (hnew (exec_issueTokenPair_next_le uow inputs security user.id k))
  rw [hissue]
  exact ⟨_, rfl, hv.insert hadmits⟩

theorem tokensAfter_insert (P : RefreshToken → Bool) (time : RefreshToken → Timestamp)
    (t : RefreshToken) : vaultSchema.apply (.insert .refreshTokens t) (tokensAfter P time [] db) =
      tokensAfter P time [t] db := by
  simp [Schema.apply, tokensAfter]

theorem apply_insert_token (t : RefreshToken) : vaultSchema.apply (.insert .refreshTokens t) db =
    tokensAfter (fun _ => false) (fun _ => 0) [t] db := by
  rw [← tokensAfter_insert, tokensAfter_unchanged fun _ _ h => absurd h Bool.false_ne_true]

variable {security : SecurityModules} {raw : String}

theorem exec_logoutAll (hv : vaultSchema.Valid db) (userId : UUID) (k : ℕ) : ∃ k' time,
    (logoutAll uow userId).exec vaultEngine inputs ⟨k, [], db⟩ =
      (.ok (), ⟨k', [], tokensAfter (fun t => t.userId == userId) time [] db⟩) ∧
    vaultSchema.Valid (tokensAfter (fun t => t.userId == userId) time [] db) := by
  obtain ⟨k', vs, time, hexec, hvalid, hview⟩ := exec_revokeAllForUser uow inputs hv userId k
  refine ⟨k' + 2, time, ?_, hview ▸ hvalid⟩
  rw [logoutAll, Prog.bind_eq, Prog.exec_bind, hexec, ← hview]
  rfl

theorem exec_logout (hv : vaultSchema.Valid db) (k : ℕ) : ∃ k' time,
    (logout security uow raw).exec vaultEngine inputs ⟨k, [], db⟩ = (.ok (), ⟨k', [],
      tokensAfter (fun t => t.tokenHash == security.hashRefreshToken raw) time [] db⟩) ∧
    vaultSchema.Valid
      (tokensAfter (fun t => t.tokenHash == security.hashRefreshToken raw) time [] db) := by
  simp only [logout, Prog.bind_eq, Prog.exec_bind]
  by_cases hex : ∃ t ∈ db .refreshTokens, t.tokenHash = security.hashRefreshToken raw
  · obtain ⟨t, ht, hhash⟩ := hex
    rw [← hhash, exec_getByTokenHash uow inputs hv ht]
    cases hlive : t.revokedAt with
    | none =>
      refine ⟨k + 4, fun _ => (inputs (k + 1)).now, ?_, ?_⟩
      · simp only [Option.filter_some, hlive, Option.isNone_none, if_true, Prog.exec_bind,
          exec_revoke uow inputs hv ht hlive, exec_commit]
        rw [view_revoke hv ht hlive]
      · rw [← view_revoke hv ht hlive]
        exact hv.update (admitsUpdate_revokedFrom hv ht _)
    | some since =>
      have hsame : tokensAfter (fun x => x.tokenHash == t.tokenHash) (fun _ => 0) [] db = db := by
        refine tokensAfter_unchanged fun x hx hxt => ?_
        rw [eq_of_tokenHash hv hx ht (eq_of_beq hxt), hlive]
        exact Option.some_ne_none since
      have hfilter : Option.filter (fun stored : RefreshToken => stored.revokedAt.isNone) (some t) =
          none := by simp [Option.filter, hlive]
      refine ⟨k + 1, fun _ => 0, ?_, (by rw [hsame]; exact hv)⟩
      simp only [hsame, hfilter]
      rfl
  · have hnone : ∀ t ∈ db .refreshTokens, t.tokenHash ≠ security.hashRefreshToken raw :=
      fun t ht h => hex ⟨t, ht, h⟩
    have hsame : tokensAfter (fun x => x.tokenHash == security.hashRefreshToken raw) (fun _ => 0) []
        db = db := tokensAfter_unchanged fun x hx hxt => absurd (eq_of_beq hxt) (hnone x hx)
    refine ⟨k + 1, fun _ => 0, ?_, (by rw [hsame]; exact hv)⟩
    rw [hsame, exec_getByTokenHash_none uow inputs hv hnone]
    rfl

/-- A registration leaves the refresh tokens alone. -/
theorem exec_register (hv : vaultSchema.Valid db) (email password : String)
    (fullName : Option String) (k : ℕ) : ∃ result k' db',
      (register security uow email password fullName).exec vaultEngine inputs ⟨k, [], db⟩ =
        (result, ⟨k', [], db'⟩) ∧
      vaultSchema.Valid db' ∧ db' .refreshTokens = db .refreshTokens := by
  simp only [register, Prog.bind_eq, Prog.exec_bind, UserRepository.getByEmail]
  rcases selectOne_exec uow inputs [] db (t := .users)
    (fun u => sameEmail u.email email) k with ⟨-, hexec⟩ | ⟨user, -, hexec⟩ | ⟨e, hexec⟩
  · rw [hexec]
    have hmay : ∀ a (r : User), uow.may db a .users r = true := fun a r => by
      simp [UnitOfWork.may, mayAccess, policiesAdmit]
    obtain ⟨row, hrow⟩ : ∃ row : Input → User, row = fun inp =>
      ⟨inp.uuid, email, some (security.hashPassword password), fullName, true⟩ := ⟨_, rfl⟩
    have hinsert : (uow.insertFlushed .users row).exec vaultEngine inputs ⟨k + 1, [], db⟩ =
        if vaultSchema.admitsInsert .users (row (inputs (k + 1))) db then
          (.ok (row (inputs (k + 1))), ⟨k + 2, [.insert .users (row (inputs (k + 1)))], db⟩)
        else (.error (integrityViolation .users), ⟨k + 2, [], db⟩) := by
      rw [UnitOfWork.insertFlushed, Prog.exec_statement]
      simp only [vaultEngine_view, Schema.view_nil]
      cases hadmits : vaultSchema.admitsInsert .users (row (inputs (k + 1))) db <;>
        simp [UnitOfWork.insertRow, hmay, hadmits]
    simp only [exceptIntegrityError, Prog.tryCatch_eq, Prog.exec_handle, Prog.exec_bind, ← hrow]
    by_cases hadmits : vaultSchema.admitsInsert .users (row (inputs (k + 1))) db = true
    · rw [if_pos hadmits] at hinsert
      refine ⟨.ok (row (inputs (k + 1))), k + 4,
        vaultSchema.apply (.insert .users (row (inputs (k + 1)))) db, ?_, hv.insert hadmits, rfl⟩
      simp [raiseIf, hinsert, exec_commit]
    · rw [if_neg hadmits] at hinsert
      refine ⟨.error (emailRegistered email), k + 2, db, ?_, hv, rfl⟩
      simp [raiseIf, hinsert, integrityViolation, UnitOfWork.rollback, Prog.exec_bind]
  · exact ⟨_, k + 1, db, by rw [hexec]; rfl, hv, rfl⟩
  · exact ⟨.error e, k + 1, db, by rw [hexec], hv, rfl⟩

/-- A login raises and leaves everything as it is, or it issues a token for an active user. -/
theorem exec_login (hv : vaultSchema.Valid db) (email password : String) (k : ℕ)
    (hnew : k + 3 ≤ ((login security uow email password).exec vaultEngine inputs
      ⟨k, [], db⟩).2.next → ∀ t ∈ db .refreshTokens, t.id ≠ (inputs (k + 2)).uuid ∧
        t.tokenHash ≠ security.hashRefreshToken (inputs (k + 1)).rawToken) :
    (∃ e k', (login security uow email password).exec vaultEngine inputs ⟨k, [], db⟩ =
      (.error e, ⟨k', [], db⟩)) ∨
    ∃ user accessToken, (login security uow email password).exec vaultEngine inputs ⟨k, [], db⟩ =
        (.ok ⟨user, accessToken, (inputs (k + 1)).rawToken⟩, ⟨k + 6, [], tokensAfter
          (fun _ => false) (fun _ => 0)
            [issuedToken security user.id (inputs (k + 1)) (inputs (k + 2))] db⟩) ∧
      vaultSchema.Valid (tokensAfter (fun _ => false) (fun _ => 0)
        [issuedToken security user.id (inputs (k + 1)) (inputs (k + 2))] db) := by
  revert hnew
  simp only [login, Prog.bind_eq, Prog.exec_bind, UserRepository.getByEmail]
  rcases selectOne_exec uow inputs [] db (t := .users)
    (fun u => sameEmail u.email email) k with ⟨-, hexec⟩ | ⟨user, hfound, hexec⟩ | ⟨e, hexec⟩
  · intro _
    refine Or.inl ⟨⟨.invalidCredentialsError, "Invalid email or password."⟩, k + 1, ?_⟩
    rw [hexec]
    rfl
  · rw [hexec]
    have huser : user ∈ db .users := by
      have hmem : user ∈ uow.found .users (fun u => sameEmail u.email email) db := by
        rw [← vaultSchema.view_nil db, hfound]
        exact List.mem_singleton_self _
      exact List.mem_of_mem_filter hmem
    cases hverify : verifyPasswordOrDummy security password user.passwordHash with
    | false =>
      intro _
      refine Or.inl ⟨⟨.invalidCredentialsError, "Invalid email or password."⟩, k + 1, ?_⟩
      simp [raiseIf, hverify]
    | true =>
      cases hactive : user.isActive with
      | false =>
        intro _
        refine Or.inl ⟨⟨.inactiveUserError, "User account is inactive."⟩, k + 1, ?_⟩
        simp [raiseIf, hverify, hactive]
      | true =>
        simp only [Option.bind_some, hverify, hactive, Bool.not_true, raiseIf, Bool.false_eq_true,
          if_false, Prog.pure_eq, Prog.exec_ret]
        intro hnew
        obtain ⟨accessToken, hissue, hvalid⟩ := exec_issueTokenPair_bind uow inputs
          (vaultSchema.view_nil db) hv huser (k + 1) hnew
        refine Or.inr ⟨user, accessToken, ?_, ?_⟩
        · rw [← apply_insert_token]
          exact hissue
        · rw [← apply_insert_token]
          exact hvalid
  · exact fun _ => Or.inl ⟨e, k + 1, by rw [hexec]⟩

/-- A refresh whose token is not known. -/
theorem exec_refresh_unknown (hv : vaultSchema.Valid db)
    (hnone : ∀ t ∈ db .refreshTokens, t.tokenHash ≠ security.hashRefreshToken raw) (k : ℕ) :
    (refresh security uow raw).exec vaultEngine inputs ⟨k, [], db⟩ =
      (.error ⟨.invalidRefreshTokenError, "Invalid refresh token."⟩, ⟨k + 1, [], db⟩) := by
  simp only [refresh, Prog.bind_eq, Prog.exec_bind, exec_getByTokenHash_none uow inputs hv hnone]
  rfl

variable {t : RefreshToken}

/-- A refresh whose token is revoked already. -/
theorem exec_refresh_reused (hv : vaultSchema.Valid db) (ht : t ∈ db .refreshTokens)
    (hhash : t.tokenHash = security.hashRefreshToken raw) (hrevoked : t.revokedAt ≠ none) (k : ℕ) :
    ∃ k' time, (refresh security uow raw).exec vaultEngine inputs ⟨k, [], db⟩ =
      (.error ⟨.invalidRefreshTokenError, "Refresh token reuse detected."⟩,
        ⟨k', [], tokensAfter (fun x => x.userId == t.userId) time [] db⟩) ∧
    vaultSchema.Valid (tokensAfter (fun x => x.userId == t.userId) time [] db) := by
  obtain ⟨k', vs, time, hexec, hvalid, hview⟩ :=
    exec_revokeAllForUser uow inputs hv t.userId (k + 1)
  refine ⟨k' + 2, time, ?_, hview ▸ hvalid⟩
  simp only [refresh, Prog.bind_eq, Prog.exec_bind, ← hhash, exec_getByTokenHash uow inputs hv ht,
    Option.isSome_iff_ne_none.mpr hrevoked, if_true, hexec, exec_commit, hview]
  rfl

/-- A refresh whose token has expired. -/
theorem exec_refresh_expired (hv : vaultSchema.Valid db) (ht : t ∈ db .refreshTokens)
    (hhash : t.tokenHash = security.hashRefreshToken raw) (hlive : t.revokedAt = none) (k : ℕ)
    (hexpired : t.expiresAt ≤ (inputs (k + 1)).now) :
    ∃ k' time, (refresh security uow raw).exec vaultEngine inputs ⟨k, [], db⟩ =
      (.error ⟨.invalidRefreshTokenError, "Refresh token has expired."⟩,
        ⟨k', [], tokensAfter (fun x => x.tokenHash == t.tokenHash) time [] db⟩) ∧
    vaultSchema.Valid (tokensAfter (fun x => x.tokenHash == t.tokenHash) time [] db) := by
  refine ⟨k + 5, fun _ => (inputs (k + 2)).now, ?_, ?_⟩
  · simp only [refresh, Prog.bind_eq, Prog.exec_bind, ← hhash,
      exec_getByTokenHash uow inputs hv ht, hlive,
      Option.isSome_none, Bool.false_eq_true, if_false, exec_readInput, if_pos hexpired,
      exec_revoke uow inputs hv ht hlive, exec_commit, view_revoke hv ht hlive]
    rfl
  · rw [← view_revoke hv ht hlive]
    exact hv.update (admitsUpdate_revokedFrom hv ht _)

/-- A refresh of a user who is not active. -/
theorem exec_refresh_inactive (hv : vaultSchema.Valid db) (ht : t ∈ db .refreshTokens)
    (hhash : t.tokenHash = security.hashRefreshToken raw) (hlive : t.revokedAt = none) (k : ℕ)
    (hunexpired : ¬ t.expiresAt ≤ (inputs (k + 1)).now) {user : User} (huser : user ∈ db .users)
    (hid : user.id = t.userId) (hinactive : user.isActive = false) :
    ∃ k' time, (refresh security uow raw).exec vaultEngine inputs ⟨k, [], db⟩ =
      (.error ⟨.invalidRefreshTokenError, "Invalid refresh token."⟩,
        ⟨k', [], tokensAfter (fun x => x.userId == t.userId) time [] db⟩) ∧
    vaultSchema.Valid (tokensAfter (fun x => x.userId == t.userId) time [] db) := by
  obtain ⟨k', vs, time, hexec, hvalid, hview⟩ :=
    exec_revokeAllForUser uow inputs hv t.userId (k + 3)
  have hget := exec_getUser uow inputs hv huser (k + 2)
  rw [hid] at hget
  have hfilter : Option.filter User.isActive (some user) = none := by
    simp [Option.filter, hinactive]
  refine ⟨k' + 2, time, ?_, hview ▸ hvalid⟩
  simp only [refresh, Prog.bind_eq, Prog.exec_bind, ← hhash,
      exec_getByTokenHash uow inputs hv ht, hlive,
    Option.isSome_none, Bool.false_eq_true, if_false, exec_readInput, if_neg hunexpired, hget,
    hfilter, hexec, exec_commit, hview]
  rfl

/-- A refresh that rotates its token. -/
theorem exec_refresh_rotates (hv : vaultSchema.Valid db) (ht : t ∈ db .refreshTokens)
    (hhash : t.tokenHash = security.hashRefreshToken raw) (hlive : t.revokedAt = none) (k : ℕ)
    (hunexpired : ¬ t.expiresAt ≤ (inputs (k + 1)).now) {user : User} (huser : user ∈ db .users)
    (hid : user.id = t.userId) (hactive : user.isActive = true)
    (hnew : k + 6 ≤ ((refresh security uow raw).exec vaultEngine inputs ⟨k, [], db⟩).2.next →
      ∀ x ∈ db .refreshTokens, x.id ≠ (inputs (k + 5)).uuid ∧
        x.tokenHash ≠ security.hashRefreshToken (inputs (k + 4)).rawToken) :
    ∃ accessToken, (refresh security uow raw).exec vaultEngine inputs ⟨k, [], db⟩ =
      (.ok ⟨user, accessToken, (inputs (k + 4)).rawToken⟩, ⟨k + 9, [], tokensAfter
        (fun x => x.tokenHash == t.tokenHash) (fun _ => (inputs (k + 3)).now)
          [issuedToken security t.userId (inputs (k + 4)) (inputs (k + 5))] db⟩) ∧
    vaultSchema.Valid (tokensAfter (fun x => x.tokenHash == t.tokenHash)
      (fun _ => (inputs (k + 3)).now)
        [issuedToken security t.userId (inputs (k + 4)) (inputs (k + 5))] db) := by
  have hget := exec_getUser uow inputs hv huser (k + 2)
  rw [hid] at hget
  have hfilter : Option.filter User.isActive (some user) = some user := by
    simp [Option.filter, hactive]
  have hview := view_revoke hv ht hlive (inputs (k + 3)).now
  have hvalid : vaultSchema.Valid (vaultSchema.view
      [.update .refreshTokens (t.revokedFrom (inputs (k + 3)).now)] db) :=
    hv.update (admitsUpdate_revokedFrom hv ht _)
  rw [hview] at hvalid
  have huser' : user ∈ tokensAfter (fun x => x.tokenHash == t.tokenHash)
      (fun _ => (inputs (k + 3)).now) [] db .users := by
    rw [tokensAfter_other (by decide)]
    exact huser
  have hrotate : (refresh security uow raw).exec vaultEngine inputs ⟨k, [], db⟩ =
      ((issueTokenPair security uow user.id).bind fun tokens =>
        .ret (⟨user, tokens.1, tokens.2⟩ : TokenPair)).exec vaultEngine inputs
          ⟨k + 4, [.update .refreshTokens (t.revokedFrom (inputs (k + 3)).now)], db⟩ := by
    simp only [refresh, Prog.bind_eq, Prog.exec_bind, ← hhash,
      exec_getByTokenHash uow inputs hv ht, hlive,
      Option.isSome_none, Bool.false_eq_true, if_false, exec_readInput, if_neg hunexpired, hget,
      hfilter, exec_revoke uow inputs hv ht hlive]
    rfl
  rw [hrotate] at hnew ⊢
  obtain ⟨accessToken, hissue, hvalid'⟩ := exec_issueTokenPair_bind uow inputs hview hvalid huser'
    (k + 4) fun hfar x hx => by
      rw [tokensAfter_tokens, List.append_nil] at hx
      obtain ⟨y, hy, rfl⟩ := List.mem_map.mp hx
      rw [revokedWhere_id, revokedWhere_tokenHash]
      exact hnew hfar y hy
  rw [tokensAfter_insert] at hissue hvalid'
  rw [← hid]
  exact ⟨accessToken, hissue, hvalid'⟩

end

end EnvVault
