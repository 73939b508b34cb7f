import EnvVault.PhasedContracts
import EnvVault.SerialCalls
import EnvVault.TokenRotation

/-!
# Revoking all sessions of a user

`revoke_all_for_user` is one UPDATE: it revokes the tokens that it found when it began. A
login or a refresh that was on its way may commit a token after that, and nothing looks at
this token again. So the revocation is final in the runs where no such commit comes: no
login from before the revocation, and no refresh that has read an older token before the
revocation was committed, issues a token after the UPDATE has found its rows.
-/
namespace EnvVault
open EnvVault.Relational EnvVault.Transactions

def Op.isLogin : Op → Bool
  | .login .. => true
  | _ => false

/-- After statements that have met these stores (newest first) the UPDATE of
`revoke_all_for_user` has found its rows. A refresh gets there when the token that it has
read was revoked. -/
def Op.RevokesAll (d : Deployment) (u : UUID) (seen : List Db) : Op → Prop
  | .logoutAll userId => userId = u ∧ seen ≠ []
  | .refresh raw => 2 ≤ seen.length ∧ ∃ first ∈ seen.getLast?, ∃ t ∈ first .refreshTokens,
      t.tokenHash = d.security.hashRefreshToken raw ∧ t.userId = u ∧ t.revokedAt.isSome
  | _ => False

section
variable {n : ℕ} (d : Deployment) (calls : Fin n → ServiceCall)

/-- The digest is of a token that one of these logins has issued, or of one that descends
from such a token by refreshes. -/
def Descends (logins : Fin n → Prop) (log : List (Fin n × List RowWrite)) (p : String) : Prop :=
  ∃ e ∈ log, (calls e.1).op.isLogin = true ∧ logins e.1 ∧ ∃ t ∈ issuedBy e.2,
    Relation.ReflTransGen (Succeeds d calls log) t.tokenHash p

/-- Every usable token of the user descends from one of these logins. -/
def NoneOlder (u : UUID) (logins : Fin n → Prop) (W : VaultWorld n) : Prop :=
  ∀ t ∈ W.db .refreshTokens, t.userId = u → t.revokedAt = none →
    Descends d calls logins W.log t.tokenHash

/-- The call has committed. -/
def Committed (s : VaultSys n) (j : Fin n) : Prop := ∃ e ∈ s.world.log, e.1 = j

/-- Call `k` began after call `j`. -/
def BeganAfter (start : VaultSys n) (as : Schedule n) (j k : Fin n) : Prop :=
  start.Once vaultEngine as fun t => (t.call j).started = true ∧ (t.call k).started = false

/-- Call `k` began after the commit of call `j`. -/
def BeganAfterCommit (start : VaultSys n) (as : Schedule n) (j k : Fin n) : Prop :=
  start.Once vaultEngine as fun t => Committed t j ∧ (t.call k).started = false

/-- When a transaction that revoked all tokens of a user has committed, every usable token
of the user descends from a login that began after it. -/
def RevocationFinal (start : VaultSys n) (as : Schedule n) (s : VaultSys n) : Prop :=
  ∀ u j, (calls j).op.RevokesAll d u (s.call j).seen → Committed s j →
    NoneOlder d calls u (BeganAfter start as j) s.world

/-- The commit of `k` issues no token in the back of call `j`, which revokes all tokens of the
user: a login began after `j` did, and a refresh began after the commit of `j` or presents a
token that descends from such a login. -/
def IssuesNoneBehind (start : VaultSys n) (as : Schedule n) (t : VaultSys n) (j k : Fin n)
    (ws : List RowWrite) : Prop :=
  ∀ x ∈ issuedBy ws, (calls j).op.RevokesAll d x.userId (t.call j).seen →
    ((calls k).op.isLogin = true → BeganAfter start as j k) ∧
    ∀ p ∈ (calls k).op.presented d, BeganAfterCommit start as j k ∨
      Descends d calls (BeganAfter start as j) t.world.log p

variable {d calls}

theorem Succeeds.append {log l : List (Fin n × List RowWrite)} {p q : String}
    (h : Succeeds d calls log p q) : Succeeds d calls (log ++ l) p q := by
  obtain ⟨t, ht, hq⟩ := h
  refine ⟨t, ?_, hq⟩
  rw [successors, List.flatMap_append]
  exact List.mem_append_left _ ht

namespace Descends
variable {logins later : Fin n → Prop} {log : List (Fin n × List RowWrite)} {p : String}

theorem append (h : Descends d calls logins log p) (l : List (Fin n × List RowWrite)) :
    Descends d calls logins (log ++ l) p := by
  obtain ⟨e, he, hlogin, hin, t, ht, hchain⟩ := h
  exact ⟨e, List.mem_append_left _ he, hlogin, hin, t, ht,
    Relation.ReflTransGen.mono (fun _ _ h => Succeeds.append h) _ _ hchain⟩

theorem mono (h : Descends d calls logins log p) (hl : ∀ k, logins k → later k) :
    Descends d calls later log p := by
  obtain ⟨e, he, hlogin, hin, hchain⟩ := h
  exact ⟨e, he, hlogin, hl _ hin, hchain⟩

/-- A token of the commit of such a login, or of a refresh of such a token. -/
theorem issued {k : Fin n} {ws : List RowWrite} {x : RefreshToken} (hx : x ∈ issuedBy ws)
    (h : (calls k).op.isLogin = true ∧ logins k ∨
      ∃ p ∈ (calls k).op.presented d, Descends d calls logins log p) :
    Descends d calls logins (log ++ [(k, ws)]) x.tokenHash := by
  rcases h with ⟨hlogin, hin⟩ | ⟨p, hp, hdesc⟩
  · exact ⟨(k, ws), by simp, hlogin, hin, x, hx, .refl⟩
  · obtain ⟨e, he, hlogin, hin, t, ht, hchain⟩ := hdesc.append [(k, ws)]
    refine ⟨e, he, hlogin, hin, t, ht, hchain.tail ⟨x, ?_, rfl⟩⟩
    rw [successors_snoc]
    exact List.mem_append_right _ (by rwa [if_pos (Option.mem_def.mp hp)])

end Descends

end

/-- What a commit may do to the refresh tokens: it revokes some, and issues one, for a
login or for the token that a refresh presents and of which, with its user, `known` holds. -/
def TokensMove (d : Deployment) (known : String → UUID → Prop) (op : Op) (db : Db)
    (ws : List RowWrite) : Prop :=
  ∀ w ∈ ws, w.table = .refreshTokens →
    (∃ t ∈ db .refreshTokens, ∃ time, w = .update .refreshTokens (t.revokedFrom time)) ∨
    ∃ x, w = .insert .refreshTokens x ∧
      (op.isLogin = true ∨ ∃ p ∈ op.presented d, known p x.userId)

namespace TokensMove
variable {d : Deployment} {known known' : String → UUID → Prop} {op : Op} {db : Db}
  {ws : List RowWrite}

theorem mono (h : TokensMove d known op db ws)
    (hk : ∀ x ∈ issuedBy ws, ∀ p ∈ op.presented d, known p x.userId → known' p x.userId) :
    TokensMove d known' op db ws := by
  intro w hw htable
  rcases h w hw htable with hrev | ⟨x, rfl, hlogin | ⟨p, hp, hknown⟩⟩
  · exact Or.inl hrev
  · exact Or.inr ⟨x, rfl, Or.inl hlogin⟩
  · have hx : x ∈ issuedBy ws := List.mem_filterMap.mpr ⟨_, hw, rfl⟩
    exact Or.inr ⟨x, rfl, Or.inr ⟨p, hp, hk x hx p hp hknown⟩⟩

theorem of_elsewhere (h : ∀ w ∈ ws, w.table ≠ .refreshTokens) : TokensMove d known op db ws :=
  fun w hw htable => absurd htable (h w hw)

theorem of_revokes (h : Revokes db ws) : TokensMove d known op db ws :=
  fun w hw _ => Or.inl (h w hw)

/-- Revocations, and one new token. -/
theorem of_issues (h : Revokes db ws) {x : RefreshToken}
    (hx : op.isLogin = true ∨ ∃ p ∈ op.presented d, known p x.userId) :
    TokensMove d known op db (ws ++ [.insert .refreshTokens x]) := by
  intro w hw _
  rcases List.mem_append.mp hw with hw | hw
  · exact Or.inl (h w hw)
  · exact Or.inr ⟨x, List.mem_singleton.mp hw, hx⟩

/-- A usable token after the commit was one before, or the commit has issued it. -/
theorem usable (h : TokensMove d known op db ws) {t : RefreshToken}
    (ht : t ∈ vaultSchema.view ws db .refreshTokens) (hlive : t.revokedAt = none) :
    t ∈ db .refreshTokens ∨ t ∈ issuedBy ws ∧
      (op.isLogin = true ∨ ∃ p ∈ op.presented d, known p t.userId) := by
  rcases Schema.mem_view_or_stored ht with ht | ⟨w, hw, hrow⟩
  · exact Or.inl ht
  · rcases h w hw (Schema.row?_table hrow) with ⟨t₀, -, time, rfl⟩ | ⟨x, rfl, hx⟩
    · obtain rfl : t₀.revokedFrom time = t := by simpa using hrow
      cases hlive
    · obtain rfl : x = t := by simpa using hrow
      exact Or.inr ⟨List.mem_filterMap.mpr ⟨_, hw, rfl⟩, hx⟩

end TokensMove

section
variable {n : ℕ} (d : Deployment) (calls : Fin n → ServiceCall) (base : Table × UUID → Prop)

/-- What any run of session methods keeps to. -/
def movesContract : Contract n vaultEngine where
  inv W := vaultSchema.Valid W.db
  guar k W ws := TokensMove d (fun _ _ => True) (calls k).op W.db ws
  assume _ W ws := vaultSchema.LawfulCommit base W ws
  quiet _ _ _ _ := True
  inv_consume _ _ h _ := h
  inv_commit _ _ _ _ ha _ := ha.after

variable (u : UUID) (j : Fin n) (logins late : Fin n → Prop)

/-- While call `j` revokes all tokens of the user, those that others issue to the user
descend from these logins. -/
def revokingContract : Contract n vaultEngine where
  inv W := vaultSchema.Valid W.db
  guar k W ws := TokensMove d (fun _ _ => True) (calls k).op W.db ws ∧
    (k = j → NoneOlder d calls u logins (W.commit vaultEngine k ws))
  assume k W ws := vaultSchema.LawfulCommit base W ws ∧ ∀ x ∈ issuedBy ws, x.userId = u →
    ((calls k).op.isLogin = true → logins k) ∧
    ∀ p ∈ (calls k).op.presented d, Descends d calls logins W.log p
  quiet _ _ _ _ := True
  inv_consume _ _ h _ := h
  inv_commit _ _ _ _ ha _ := ha.1.after

/-- Once it has committed, a refresh that begins late has no other token to rotate. -/
def revokedContract : Contract n vaultEngine where
  inv W := vaultSchema.Valid W.db ∧ NoneOlder d calls u logins W
  guar k W ws := TokensMove d (fun p v => v = u → Descends d calls logins W.log p)
    (calls k).op W.db ws
  assume k W ws := vaultSchema.LawfulCommit base W ws ∧ ∀ x ∈ issuedBy ws, x.userId = u →
    ((calls k).op.isLogin = true → logins k) ∧
    (¬ late k → ∀ p ∈ (calls k).op.presented d, Descends d calls logins W.log p)
  quiet _ _ _ _ := True
  inv_consume _ _ h _ := h
  inv_commit k W ws h ha hg := by
    refine ⟨ha.1.after, fun t ht hu hlive => ?_⟩
    rcases hg.usable ht hlive with hold | ⟨hx, hlogin | ⟨p, hp, hdesc⟩⟩
    · exact (h.2 t hold hu hlive).append _
    · exact .issued hx (Or.inl ⟨hlogin, (ha.2 t hx hu).1 hlogin⟩)
    · exact .issued hx (Or.inr ⟨p, hp, hdesc hu⟩)

variable {d calls base u j logins late}

theorem revoking_strengthens :
    (revokingContract d calls base u j logins).Strengthens (movesContract d calls base) where
  inv _ h := h
  assume _ _ _ h := h.1
  guar _ _ _ h := h.1
  quiet _ _ _ _ h := h

theorem revoked_strengthens :
    (revokedContract d calls base u logins late).Strengthens (movesContract d calls base) where
  inv _ h := h.1
  assume _ _ _ h := h.1
  guar k W ws h := by
    have hg : TokensMove d (fun p v => v = u → Descends d calls logins W.log p) (calls k).op
      W.db ws := h
    change TokensMove d (fun _ _ => True) (calls k).op W.db ws
    exact hg.mono fun _ _ _ _ _ => trivial
  quiet _ _ _ _ h := h

theorem revoking_keeps {i : Fin n} (hi : i ≠ j) :
    (revokingContract d calls base u j logins).Keeps (movesContract d calls base) i :=
  fun _ _ _ _ hg => ⟨hg, fun hij => absurd hij hi⟩

/-- Who began before the commit issues to the user what the contract lets it issue. -/
theorem revoked_keeps {i : Fin n} (hi : ¬ late i) :
    (revokedContract d calls base u logins late).Keeps (movesContract d calls base) i := by
  intro W ws _ ha hg
  have hmoves : TokensMove d (fun _ _ => True) (calls i).op W.db ws := hg
  change TokensMove d (fun p v => v = u → Descends d calls logins W.log p) (calls i).op W.db ws
  exact hmoves.mono fun x hx p hp _ hu => (ha.2 x hx hu).2 hi p hp

end

/-- A contract under which a token that is found unrevoked is `known`, and under which the
caller may commit what it does to the tokens. -/
structure TokenRules {n : ℕ} (d : Deployment) (calls : Fin n → ServiceCall)
    (C : Contract n vaultEngine) (i : Fin n) (known : VaultWorld n → String → UUID → Prop) :
    Prop where
  read : ∀ W, C.inv W → ∀ t ∈ W.db .refreshTokens, t.revokedAt = none →
    known W t.tokenHash t.userId
  consume : ∀ W inp p v, known W p v → known (W.consume inp) p v
  commit : ∀ W k ws p v, known W p v → known (W.commit vaultEngine k ws) p v
  guar : ∀ W ws, C.inv W → C.assume i W ws → TokensMove d (known W) (calls i).op W.db ws →
    C.guar i W ws

namespace TokenRules
variable {n : ℕ} {d : Deployment} {calls : Fin n → ServiceCall} {C : Contract n vaultEngine}
  {i : Fin n} {known : VaultWorld n → String → UUID → Prop} {uow : UnitOfWork}
  {l : Local Db RowWrite} {W : VaultWorld n} (h : TokenRules d calls C i known)
include h

theorem stable_known {ws : List RowWrite} (p : String) (v : UUID) :
    Stable C i ws fun W => known W p v :=
  .of_steps (fun W inp _ _ hA => h.consume W inp p v hA)
    fun W k vs _ _ _ _ _ hA => h.commit W k vs p v hA

theorem revokes {V : VaultWorld n} {ws : List RowWrite} (hrev : Revokes V.db ws) (hi : C.inv V)
    (ha : C.assume i V ws) : C.guar i V ws :=
  h.guar V ws hi ha (.of_revokes hrev)

theorem register (email password : String) (fullName : Option String) :
    wlp C i (AuthService.register d.security uow email password fullName)
      (fun _ _ _ => True) (fun _ _ _ => True) ⟨[], []⟩ W := by
  exact wlp_comprises (AuthService.register_elsewhere email password fullName)
    (fun _ _ _ => trivial) (fun _ _ _ => trivial)
    (fun V ws hi ha hws => h.guar V ws hi ha (.of_elsewhere hws)) (by simp)

theorem login (email password : String) (hop : (calls i).op = .login email password) :
    wlp C i (AuthService.login d.security uow email password)
      (fun _ _ _ => True) (fun _ _ _ => True) ⟨[], []⟩ W := by
  have hlogin : (calls i).op.isLogin = true := by
    rw [hop]
    rfl
  exact wlp_login email password fun V t hi ha => h.guar V _ hi ha (.of_issues .nil (Or.inl hlogin))

theorem logout (raw : String) :
    wlp C i (AuthService.logout d.security uow raw)
      (fun _ _ _ => True) (fun _ _ _ => True) ⟨[], []⟩ W :=
  wlp_logout (fun _ _ => h.revokes) raw

theorem logoutAll (userId : UUID) :
    wlp C i (AuthService.logoutAll uow userId)
      (fun _ _ _ => True) (fun _ _ _ => True) ⟨[], []⟩ W :=
  wlp_logoutAll (fun _ _ => h.revokes) userId

/-- The successor is issued to the user of the token that the call has read. -/
theorem refresh (raw : String) (hop : (calls i).op = .refresh raw) :
    wlp C i (AuthService.refresh d.security uow raw)
      (fun _ _ _ => True) (fun _ _ _ => True) ⟨[], []⟩ W := by
  have hX : ∀ (e : Exn) (l : Local Db RowWrite) (V : VaultWorld n), True := fun _ _ _ => trivial
  have hpres : d.security.hashRefreshToken raw ∈ (calls i).op.presented d := by
    rw [hop]
    rfl
  refine wlp_selectOne_bind hX stable_true trivial (fun _ _ => wlp_throw hX)
    fun V inp stored _ hi hs hp => ?_
  have hp : stored.tokenHash = d.security.hashRefreshToken raw := by simpa using hp
  dsimp only
  split
  · refine wlp_revokeAll (fun _ _ => h.revokes) (P := fun _ => True) ?_ rfl
    trivial
  rename_i hlive
  have hknown : known V (d.security.hashRefreshToken raw) stored.userId := by
    rw [← hp]
    exact h.read V hi stored hs (by simpa using hlive)
  refine wlp_reads_bind reads_readInput hX (h.stable_known _ _) (h.consume V inp _ _ hknown)
    fun clock _ V _ _ hknown => ?_
  split
  · refine wlp_bind (wlp_revokeById_bind hX .nil fun _ l V hV => fun U hU => ?_)
    exact wlp_commit_revokes hX (P := fun _ => True) trivial (fun _ _ _ => trivial)
      (stable_revokes _ _ hU hV) fun _ => h.revokes
  refine wlp_reads_bind (reads_get _ _) hX (h.stable_known _ _) hknown
    fun found _ V hfound _ hknown => ?_
  split
  · refine wlp_revokeAll (fun _ _ => h.revokes) (P := fun _ => True) ?_ rfl
    trivial
  · rename_i user huser
    have huid : user.id = stored.userId :=
      hfound user (Option.filter_eq_some_iff.mp huser).1
    have hissue : ∀ (l : Local Db RowWrite) (V : VaultWorld n), Revokes V.db l.pending →
        known V (d.security.hashRefreshToken raw) stored.userId →
        wlp C i ((AuthService.issueTokenPair d.security uow user.id).bind fun tokens =>
          .ret (⟨user, tokens.1, tokens.2⟩ : TokenPair)) (fun _ _ _ => True) (fun _ _ _ => True)
            l V := by
      intro l V hrev hknown
      refine wlp_bind (wlp_issueTokenPair hX (fun _ _ _ _ _ => trivial)
        (A := fun W => Revokes W.db l.pending ∧
          known W (d.security.hashRefreshToken raw) stored.userId) _
        (fun vs => (stable_revokes.mono (List.subset_append_left _ _)).and (h.stable_known _ _))
        (fun V inp hA => ⟨hA.1, h.consume V inp _ _ hA.2⟩) ⟨hrev, hknown⟩
        fun V x hx hA hi ha => ?_)
      exact h.guar V _ hi ha (.of_issues hA.1 (Or.inr ⟨_, hpres, by rw [hx, huid]; exact hA.2⟩))
    refine wlp_bind (wlp_updateById_bind hX (h.stable_known _ _) hknown
      (fun V inp hV _ _ => fun U hU => ?_) fun V inp t hV _ ht _ _ => fun U hU => ?_)
    · exact hissue _ U .nil (h.stable_known _ _ _ _ hU (h.consume V inp _ _ hV))
    · exact hissue _ U (stable_revokes _ _ hU (Revokes.nil.snoc ht inp.now))
        (h.stable_known _ _ _ _ hU (h.consume V inp _ _ hV))

/-- Every session method keeps to the contract. -/
theorem program (hop : (calls i).op.authenticates = true) :
    wlp C i ((calls i).program d) (fun _ _ _ => True) (fun _ _ _ => True) ⟨[], []⟩ W := by
  change wlp C i ((calls i).op.program d (calls i).uow) _ _ _ _
  cases hcall : (calls i).op with
  | register email password fullName =>
    exact wlp_map (fun _ _ _ => trivial) (h.register email password fullName)
  | login email password => exact wlp_map (fun _ _ _ => trivial) (h.login email password hcall)
  | refresh raw => exact wlp_map (fun _ _ _ => trivial) (h.refresh raw hcall)
  | logout raw => exact wlp_map (fun _ _ _ => trivial) (h.logout raw)
  | logoutAll userId => exact wlp_map (fun _ _ _ => trivial) (h.logoutAll userId)
  | _ => rw [hcall] at hop; cases hop

end TokenRules

section
variable {n : ℕ} {d : Deployment} {calls : Fin n → ServiceCall} {base : Table × UUID → Prop}
  {u : UUID} {j : Fin n} {logins late : Fin n → Prop}

theorem moves_rules (i : Fin n) :
    TokenRules d calls (movesContract d calls base) i fun _ _ _ => True where
  read _ _ _ _ _ := trivial
  consume _ _ _ _ _ := trivial
  commit _ _ _ _ _ _ := trivial
  guar _ _ _ _ h := h

theorem revoking_rules {i : Fin n} (hi : i ≠ j) :
    TokenRules d calls (revokingContract d calls base u j logins) i fun _ _ _ => True where
  read _ _ _ _ _ := trivial
  consume _ _ _ _ _ := trivial
  commit _ _ _ _ _ _ := trivial
  guar _ _ _ _ h := ⟨h, fun hij => absurd hij hi⟩

theorem revoked_rules (i : Fin n) :
    TokenRules d calls (revokedContract d calls base u logins late) i
      fun W p v => v = u → Descends d calls logins W.log p where
  read _ h t ht hlive hu := h.2 t ht hu hlive
  consume _ _ _ _ h := h
  commit _ _ _ _ _ h hu := (h hu).append _
  guar _ _ _ _ h := h

/-- A usable token of the user is among those that the UPDATE still comes to, or it is
locked and revoked in the open transaction, or it descends from one of these logins. -/
structure Unmissed (d : Deployment) (calls : Fin n → ServiceCall) (u : UUID)
    (logins : Fin n → Prop) (ids : List UUID) (ws : List RowWrite) (W : VaultWorld n) : Prop where
  revokes : Revokes W.db ws
  covered : ∀ t ∈ W.db .refreshTokens, t.userId = u → t.revokedAt = none →
    t.id ∈ ids ∨ vaultSchema.Touches ws .refreshTokens t.id ∨
      Descends d calls logins W.log t.tokenHash

theorem stable_unmissed {ids : List UUID} {ws : List RowWrite} :
    Stable (revokingContract d calls base u j logins) j ws (Unmissed d calls u logins ids ws) := by
  intro W V hV h
  have hcovered : Stable (revokingContract d calls base u j logins) j ws fun W =>
      ∀ t ∈ W.db .refreshTokens, t.userId = u → t.revokedAt = none →
        t.id ∈ ids ∨ vaultSchema.Touches ws .refreshTokens t.id ∨
          Descends d calls logins W.log t.tokenHash := by
    refine .of_steps (fun _ _ _ _ hA => hA) fun W k vs _ ha hg _ _ hA t ht hu hlive => ?_
    rcases TokensMove.usable hg.1 ht hlive with hold | ⟨hx, hlogin | ⟨p, hp, -⟩⟩
    · rcases hA t hold hu hlive with hid | hlocked | hdesc
      · exact Or.inl hid
      · exact Or.inr (Or.inl hlocked)
      · exact Or.inr (Or.inr (hdesc.append _))
    · exact Or.inr (Or.inr (.issued hx (Or.inl ⟨hlogin, (ha.2 t hx hu).1 hlogin⟩)))
    · exact Or.inr (Or.inr (.issued hx (Or.inr ⟨p, hp, (ha.2 t hx hu).2 p hp⟩)))
  exact ⟨stable_revokes _ _ hV h.revokes, hcovered _ _ hV h.covered⟩

/-- A conditional UPDATE that does not reach a usable token has found it locked before. -/
theorem Unmissed.not_reached {uow : UnitOfWork} {x : UUID} {ids : List UUID}
    {ws : List RowWrite} {W : VaultWorld n} (h : Unmissed d calls u logins (x :: ids) ws W)
    (hnot : uow.reached .refreshTokens x (fun t => t.userId == u && t.revokedAt.isNone)
      (vaultSchema.view ws W.db) = none) : Unmissed d calls u logins ids ws W := by
  refine ⟨h.revokes, fun t ht hu hlive => ?_⟩
  rcases h.covered t ht hu hlive with hid | hcovered
  · rcases List.mem_cons.mp hid with hid | hid
    · by_cases hlocked : vaultSchema.Touches ws .refreshTokens t.id
      · exact Or.inr (Or.inl hlocked)
      · have hview : t ∈ vaultSchema.view ws W.db .refreshTokens :=
          (Schema.agree_of_untouched hlocked W.db t rfl).mpr ht
        have hmiss := List.find?_eq_none.mp hnot t hview
        have hrow : rowId .refreshTokens t = x := hid
        have hmay : ∀ a, uow.may (vaultSchema.view ws W.db) a .refreshTokens t = true :=
          fun a => by simp [UnitOfWork.may, mayAccess, policiesAdmit]
        simp [hrow, hmay, hu, hlive] at hmiss
    · exact Or.inl hid
  · exact Or.inr hcovered

theorem Unmissed.reached {ids : List UUID} {ws : List RowWrite} {W : VaultWorld n}
    {r : RefreshToken} (h : Unmissed d calls u logins (r.id :: ids) ws W)
    (hr : r ∈ vaultSchema.view ws W.db .refreshTokens) (time : Timestamp) :
    Unmissed d calls u logins ids (ws ++ [.update .refreshTokens (r.revokedFrom time)]) W := by
  refine ⟨h.revokes.snoc hr time, fun t ht hu hlive => ?_⟩
  rcases h.covered t ht hu hlive with hid | ⟨w, hw, hwt⟩ | hdesc
  · rcases List.mem_cons.mp hid with hid | hid
    · exact Or.inr (Or.inl ⟨_, List.mem_append_right _ List.mem_cons_self, by rw [hid]; rfl⟩)
    · exact Or.inl hid
  · exact Or.inr (Or.inl ⟨w, List.mem_append_left _ hw, hwt⟩)
  · exact Or.inr (Or.inr hdesc)

/-- When the UPDATE has come to all of them it leaves none older. -/
theorem Unmissed.noneOlder {ws : List RowWrite} {W : VaultWorld n}
    (h : Unmissed d calls u logins [] ws W) (k : Fin n) :
    NoneOlder d calls u logins (W.commit vaultEngine k ws) := by
  intro t ht hu hlive
  rcases Schema.mem_view_cases h.revokes.newKeys ht with ⟨hold, hnot⟩ | ⟨w, hw, hrow⟩
  · rcases h.covered t hold hu hlive with hid | hlocked | hdesc
    · cases hid
    · exact absurd hlocked hnot
    · exact hdesc.append _
  · obtain ⟨t₀, -, time, rfl⟩ := h.revokes w hw
    obtain rfl : t₀.revokedFrom time = t := by simpa using hrow
    cases hlive

theorem wlp_revokeEach_covered {uow : UnitOfWork} {β : Type} {l : Local Db RowWrite}
    {W : VaultWorld n} {k : Unit → Tx β} (ids : List UUID)
    (hW : Unmissed d calls u logins ids l.pending W)
    (h : ∀ l' V, Unmissed d calls u logins [] l'.pending V →
      wlp (revokingContract d calls base u j logins) j (k ()) (fun _ _ _ => True)
        (fun _ _ _ => True) l' V) :
    wlp (revokingContract d calls base u j logins) j ((uow.updateEach .refreshTokens
      (fun t : RefreshToken => t.userId == u && t.revokedAt.isNone)
      (fun inp t => t.revokedFrom inp.now) ids).bind k) (fun _ _ _ => True) (fun _ _ _ => True)
      l W := by
  have hX : ∀ (e : Exn) (l : Local Db RowWrite) (V : VaultWorld n), True := fun _ _ _ => trivial
  induction ids generalizing l W with
  | nil => exact h l W hW
  | cons x ids ih =>
    rw [UnitOfWork.updateEach_cons_bind]
    refine wlp_updateById_bind hX stable_unmissed hW (fun V inp hV _ hnot => ?_)
      fun V inp r hV _ hr hid _ => ?_
    · have hleft := hV.not_reached hnot
      exact ih ⟨hleft.revokes, hleft.covered⟩
    · obtain rfl : r.id = x := hid
      have hleft := hV.reached hr inp.now
      exact ih ⟨hleft.revokes, hleft.covered⟩

/-- The transaction that revokes all tokens of the user. -/
theorem wlp_revokeAll_covered {uow : UnitOfWork} {β : Type} {P : β → Prop} {k : Unit → Tx β}
    (hk : (k ()).Reads P) {l : Local Db RowWrite} (hl : l.pending = []) {W : VaultWorld n} :
    wlp (revokingContract d calls base u j logins) j
      ((RefreshTokenRepository.revokeAllForUser uow u).bind fun _ => UnitOfWork.commit.bind k)
      (fun _ _ _ => True) (fun _ _ _ => True) l W := by
  have hX : ∀ (e : Exn) (l : Local Db RowWrite) (V : VaultWorld n), True := fun _ _ _ => trivial
  rw [RefreshTokenRepository.revokeAllForUser, UnitOfWork.updateWhere_bind]
  refine wlp_select_bind hX stable_true trivial fun V _ _ inp => ?_
  rw [hl]
  refine wlp_revokeEach_covered (l := ⟨[], _⟩) _ ⟨.nil, fun t ht hu hlive => Or.inl ?_⟩
    fun l V hV => ?_
  · refine List.mem_map.mpr ⟨t, List.mem_filter.mpr ⟨ht, ?_⟩, rfl⟩
    simp [UnitOfWork.may, mayAccess, policiesAdmit, hu, hlive]
  · refine wlp_commit_reads hX stable_unmissed hV hk (fun V hV _ _ => ?_)
      fun _ _ _ _ _ _ _ _ _ _ _ => trivial
    exact ⟨.of_revokes hV.revokes, fun _ => hV.noneOlder j⟩

end

end EnvVault
