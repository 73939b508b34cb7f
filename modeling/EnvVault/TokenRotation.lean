import Mathlib.Logic.Relation
import EnvVault.StatementRules

/-!
# Rotation of refresh tokens

`refresh` reads a token, and if it finds it unrevoked it revokes it and issues a
successor. The UPDATE that revokes does not report whether it found the token
still unrevoked: of two calls that read the token before either commits, both
issue a successor.
-/
namespace EnvVault
open EnvVault.Relational EnvVault.Transactions

/-- The digest of the token that a `refresh` presents. -/
def Op.presented (d : Deployment) : Op → Option String
  | .refresh raw => some (d.security.hashRefreshToken raw)
  | _ => none

/-- The refresh tokens that a commit issues. -/
def issuedBy (ws : List RowWrite) : List RefreshToken :=
  ws.filterMap fun w => match w with
    | .insert .refreshTokens t => some t
    | _ => none

@[simp] theorem issuedBy_append (ws vs : List RowWrite) :
    issuedBy (ws ++ vs) = issuedBy ws ++ issuedBy vs := List.filterMap_append

@[simp] theorem issuedBy_insert (t : RefreshToken) :
    issuedBy [.insert .refreshTokens t] = [t] := rfl

@[simp] theorem issuedBy_update (t : RefreshToken) :
    issuedBy [.update .refreshTokens t] = [] := rfl

theorem issuedBy_eq_nil {ws : List RowWrite} (h : ∀ w ∈ ws, w.table ≠ .refreshTokens) :
    issuedBy ws = [] := by
  refine List.filterMap_eq_nil_iff.mpr fun w hw => ?_
  split
  · exact absurd rfl (h _ hw)
  · rfl

section
variable {n : ℕ} (d : Deployment) (calls : Fin n → ServiceCall)

/-- The tokens issued by the commits of refreshes that presented the token with
this digest. -/
def successors (log : List (Fin n × List RowWrite)) (p : String) : List RefreshToken :=
  log.flatMap fun e => if (calls e.1).op.presented d = some p then issuedBy e.2 else []

/-- Of two digests the second is a successor of the first. -/
def Succeeds (log : List (Fin n × List RowWrite)) (p q : String) : Prop :=
  ∃ t ∈ successors d calls log p, t.tokenHash = q

/-- A token is the parent of one token at most, and in what descends from one
token at most one is not revoked. -/
structure SingleUse (W : VaultWorld n) : Prop where
  successor : ∀ p, (successors d calls W.log p).length ≤ 1
  chain : ∀ p, ∀ a ∈ W.db .refreshTokens, ∀ b ∈ W.db .refreshTokens,
    a.revokedAt = none → b.revokedAt = none →
    Relation.ReflTransGen (Succeeds d calls W.log) p a.tokenHash →
    Relation.ReflTransGen (Succeeds d calls W.log) p b.tokenHash → a = b

variable {d calls}

theorem successors_snoc (log : List (Fin n × List RowWrite)) (k : Fin n) (ws : List RowWrite)
    (p : String) : successors d calls (log ++ [(k, ws)]) p =
      successors d calls log p ++
        if (calls k).op.presented d = some p then issuedBy ws else [] := by
  simp [successors]

/-- A commit that is no refresh, or issues nothing, adds no successor. -/
theorem successors_quiet {log : List (Fin n × List RowWrite)} {k : Fin n} {ws : List RowWrite}
    (h : issuedBy ws = [] ∨ (calls k).op.presented d = none) (p : String) :
    successors d calls (log ++ [(k, ws)]) p = successors d calls log p := by
  rw [successors_snoc]
  rcases h with h | h <;> simp [h]

end

/-- If the commit issues a successor, the token it was issued for is unrevoked in
this database. -/
def Op.RotatesUnrevoked (d : Deployment) (op : Op) (db : Db) (ws : List RowWrite) : Prop :=
  issuedBy ws ≠ [] → ∀ p ∈ op.presented d, ∃ t ∈ db .refreshTokens,
    t.tokenHash = p ∧ t.revokedAt = none

instance (d : Deployment) (op : Op) (db : Db) (ws : List RowWrite) :
    Decidable (op.RotatesUnrevoked d db ws) := inferInstanceAs (Decidable
  (issuedBy ws ≠ [] → ∀ p ∈ op.presented d, ∃ t ∈ db .refreshTokens,
    t.tokenHash = p ∧ t.revokedAt = none))

/-- The token, revoked at this time. -/
def RefreshToken.revokedFrom (t : RefreshToken) (time : Timestamp) : RefreshToken :=
  { t with revokedAt := some time }

/-- The writes only revoke tokens of this database. -/
def Revokes (db : Db) (ws : List RowWrite) : Prop :=
  ∀ w ∈ ws, ∃ t ∈ db .refreshTokens, ∃ time, w = .update .refreshTokens (t.revokedFrom time)

/-- What a commit does to the refresh tokens. -/
inductive TokenEffect (d : Deployment) (op : Op) (db : Db) : List RowWrite → Prop
  | elsewhere (ws : List RowWrite) (h : ∀ w ∈ ws, w.table ≠ .refreshTokens) :
      TokenEffect d op db ws
  | revoked (ws : List RowWrite) (h : Revokes db ws) : TokenEffect d op db ws
  | issued (t : RefreshToken) (hop : op.presented d = none) :
      TokenEffect d op db [.insert .refreshTokens t]
  | rotated (t successor : RefreshToken) (time : Timestamp) (ht : t ∈ db .refreshTokens)
      (hlive : t.revokedAt = none) (hop : op.presented d = some t.tokenHash) :
      TokenEffect d op db
        [.update .refreshTokens (t.revokedFrom time), .insert .refreshTokens successor]

theorem eq_of_tokenHash {db : Db} (hv : vaultSchema.Valid db) {a b : RefreshToken}
    (ha : a ∈ db .refreshTokens) (hb : b ∈ db .refreshTokens) (h : a.tokenHash = b.tokenHash) :
    a = b := by
  by_contra hne
  have hid : rowId .refreshTokens a ≠ rowId .refreshTokens b :=
    fun he => hne (hv.eq_of_id (t := .refreshTokens) ha hb he)
  have := hv.unique .refreshTokens (fun a b => a.tokenHash == b.tokenHash)
    (by simp [vaultSchema, uniqueOf])
    a ha b hb hid
  simp [h] at this

namespace Revokes
variable {db : Db} {ws : List RowWrite}

theorem nil : Revokes db [] := fun _ hw => nomatch hw

theorem issuedBy (h : Revokes db ws) : EnvVault.issuedBy ws = [] := by
  refine List.filterMap_eq_nil_iff.mpr fun w hw => ?_
  obtain ⟨t, -, time, rfl⟩ := h w hw
  rfl

theorem newKeys (h : Revokes db ws) : vaultSchema.NewKeys ws db := by
  have hnil : vaultSchema.inserted ws = [] := by
    refine List.filterMap_eq_nil_iff.mpr fun w hw => ?_
    obtain ⟨t, -, time, rfl⟩ := h w hw
    rfl
  exact ⟨by simp [hnil], by simp [hnil]⟩

/-- Under such writes a token is one of the database, revoked or as it was. -/
theorem mem_view (h : Revokes db ws) {t : RefreshToken}
    (ht : t ∈ vaultSchema.view ws db .refreshTokens) : ∃ t₀ ∈ db .refreshTokens,
      t = t₀ ∨ ∃ time, t = t₀.revokedFrom time := by
  rcases Schema.mem_view_cases h.newKeys ht with ⟨ht, -⟩ | ⟨w, hw, hrow⟩
  · exact ⟨t, ht, Or.inl rfl⟩
  · obtain ⟨t₀, ht₀, time, rfl⟩ := h w hw
    exact ⟨t₀, ht₀, Or.inr ⟨time, by simpa using hrow.symm⟩⟩

/-- Revoking once more only revokes. -/
theorem snoc (h : Revokes db ws) {t : RefreshToken}
    (ht : t ∈ vaultSchema.view ws db .refreshTokens) (time : Timestamp) :
    Revokes db (ws ++ [.update .refreshTokens (t.revokedFrom time)]) := by
  intro w hw
  rcases List.mem_append.mp hw with hw | hw
  · exact h w hw
  · obtain ⟨t₀, ht₀, rfl | ⟨_, rfl⟩⟩ := h.mem_view ht
    · exact ⟨_, ht₀, time, List.mem_singleton.mp hw⟩
    · exact ⟨t₀, ht₀, time, List.mem_singleton.mp hw⟩

/-- Every token stays, and a revoked one stays revoked. -/
theorem keeps (h : Revokes db ws) (hv : vaultSchema.Valid db) {t : RefreshToken}
    (ht : t ∈ db .refreshTokens) : ∃ t' ∈ vaultSchema.view ws db .refreshTokens,
      t'.id = t.id ∧ t'.tokenHash = t.tokenHash ∧ (t.revokedAt.isSome → t'.revokedAt.isSome) := by
  have hdel : Write.delete .refreshTokens t.id ∉ ws := by
    intro hw
    obtain ⟨_, -, _, he⟩ := h _ hw
    cases he
  obtain ⟨t', ht', hid⟩ := Schema.id_persists (S := vaultSchema) hdel ⟨t, ht, rfl⟩
  refine ⟨t', ht', hid, ?_⟩
  obtain ⟨t₀, ht₀, rfl | ⟨time, rfl⟩⟩ := h.mem_view ht'
  · obtain rfl : t' = t := hv.eq_of_id (t := .refreshTokens) ht₀ ht hid
    exact ⟨rfl, id⟩
  · obtain rfl : t₀ = t := hv.eq_of_id (t := .refreshTokens) ht₀ ht hid
    exact ⟨rfl, fun _ => rfl⟩

end Revokes

/-- A commit keeps every token, and a revoked one stays revoked. -/
theorem TokenEffect.keeps {d : Deployment} {op : Op} {db : Db} {ws : List RowWrite}
    (h : TokenEffect d op db ws) (hv : vaultSchema.Valid db) {t : RefreshToken}
    (ht : t ∈ db .refreshTokens) : ∃ t' ∈ vaultSchema.view ws db .refreshTokens,
      t'.id = t.id ∧ t'.tokenHash = t.tokenHash ∧ (t.revokedAt.isSome → t'.revokedAt.isSome) := by
  cases h with
  | elsewhere ws h =>
    rw [Schema.view_untouched _ h]
    exact ⟨t, ht, rfl, rfl, id⟩
  | revoked ws h => exact h.keeps hv ht
  | issued s hop => exact ⟨t, List.mem_append_left _ ht, rfl, rfl, id⟩
  | rotated t₀ s time ht₀ hlive hop =>
    have hrev : Revokes db [.update .refreshTokens (t₀.revokedFrom time)] :=
      fun w hw => ⟨t₀, ht₀, time, List.mem_singleton.mp hw⟩
    obtain ⟨t', ht', h⟩ := hrev.keeps hv ht
    exact ⟨t', List.mem_append_left _ ht', h⟩

section
variable {n : ℕ} (d : Deployment) (calls : Fin n → ServiceCall)

/-- A token with successors is revoked, and it has one successor at most. -/
structure TokenInv (W : VaultWorld n) : Prop where
  valid : vaultSchema.Valid W.db
  spent : ∀ p, successors d calls W.log p ≠ [] →
    ∃ t ∈ W.db .refreshTokens, t.tokenHash = p ∧ t.revokedAt.isSome
  lone : ∀ p, (successors d calls W.log p).length ≤ 1

variable {d calls}

theorem TokenInv.commit {W : VaultWorld n} (h : TokenInv d calls W) {k : Fin n}
    {ws : List RowWrite} (hg : TokenEffect d (calls k).op W.db ws)
    (hv : vaultSchema.Valid (vaultSchema.view ws W.db)) :
    TokenInv d calls (W.commit vaultEngine k ws) := by
  have hkeep : ∀ p, (∃ t ∈ W.db .refreshTokens, t.tokenHash = p ∧ t.revokedAt.isSome) →
      ∃ t ∈ vaultSchema.view ws W.db .refreshTokens, t.tokenHash = p ∧ t.revokedAt.isSome := by
    rintro p ⟨t, ht, rfl, hr⟩
    obtain ⟨t', ht', -, hp, hr'⟩ := hg.keeps h.valid ht
    exact ⟨t', ht', hp, hr' hr⟩
  by_cases hq : issuedBy ws = [] ∨ (calls k).op.presented d = none
  · refine ⟨hv, fun p hp => ?_, fun p => ?_⟩
    · rw [World.commit_log, successors_quiet hq] at hp
      exact hkeep p (h.spent p hp)
    · rw [World.commit_log, successors_quiet hq]
      exact h.lone p
  · cases hg with
    | elsewhere ws hw => exact absurd (Or.inl (issuedBy_eq_nil hw)) hq
    | revoked ws hw => exact absurd (Or.inl hw.issuedBy) hq
    | issued t hop => exact absurd (Or.inr hop) hq
    | rotated t s time ht hlive hop =>
      -- the parent was unrevoked until now, so it had no successor yet
      have hnone : successors d calls W.log t.tokenHash = [] := by
        by_contra hne
        obtain ⟨t', ht', hp, hr⟩ := h.spent _ hne
        obtain rfl := eq_of_tokenHash h.valid ht' ht hp
        simp [hlive] at hr
      refine ⟨hv, fun p hp => ?_, fun p => ?_⟩
      · by_cases hpt : p = t.tokenHash
        · refine ⟨t.revokedFrom time, List.mem_append_left _ ?_, hpt.symm, rfl⟩
          exact (Schema.mem_apply_update (S := vaultSchema) (t := .refreshTokens)).mpr
            (Or.inl ⟨rfl, t, ht, rfl⟩)
        · rw [World.commit_log, successors_snoc, hop, if_neg (by simpa using Ne.symm hpt),
            List.append_nil] at hp
          exact hkeep p (h.spent p hp)
      · rw [World.commit_log, successors_snoc, hop]
        by_cases hpt : p = t.tokenHash
        · rw [hpt, hnone]
          simp [issuedBy]
        · rw [if_neg (by simpa using Ne.symm hpt), List.append_nil]
          exact h.lone p

/-- A token that has a successor is revoked, so a chain ends at its first
unrevoked token. -/
theorem TokenInv.singleUse {W : VaultWorld n} (h : TokenInv d calls W) :
    SingleUse d calls W := by
  have hfun : Relator.RightUnique (Succeeds d calls W.log) := by
    rintro p q r ⟨s, hs, rfl⟩ ⟨t, ht, rfl⟩
    obtain ⟨i, hi, rfl⟩ := List.mem_iff_getElem.mp hs
    obtain ⟨j, hj, rfl⟩ := List.mem_iff_getElem.mp ht
    have hij : i = j := by have := h.lone p; omega
    subst hij
    rfl
  have hend : ∀ a ∈ W.db .refreshTokens, ∀ b ∈ W.db .refreshTokens, a.revokedAt = none →
      Relation.ReflTransGen (Succeeds d calls W.log) a.tokenHash b.tokenHash → a = b := by
    intro a ha b hb hlive hab
    rcases Relation.ReflTransGen.cases_head hab with heq | ⟨q, ⟨t, ht, -⟩, -⟩
    · exact eq_of_tokenHash h.valid ha hb heq
    · obtain ⟨a', ha', hp, hr⟩ := h.spent _ (List.ne_nil_of_mem ht)
      obtain rfl := eq_of_tokenHash h.valid ha' ha hp
      simp [hlive] at hr
  refine ⟨h.lone, fun p a ha b hb hla hlb hpa hpb => ?_⟩
  rcases Relation.ReflTransGen.total_of_right_unique hfun hpa hpb with hab | hba
  · exact hend a ha b hb hla hab
  · exact (hend b hb a ha hlb hba).symm

end

/-- A registration writes no refresh token. -/
theorem AuthService.register_elsewhere {security : SecurityModules} {uow : UnitOfWork}
    (email password : String) (fullName : Option String) :
    (AuthService.register security uow email password fullName).Comprises
      fun writes => ∀ inp v, ∀ w ∈ writes inp v, w.table ≠ .refreshTokens := by
  have hcomp : (AuthService.register security uow email password fullName).Comprises
      (WritesTo [.users]) :=
    AuthService.comprises_register (by simp) email password fullName
  refine hcomp.mono fun writes hw inp v w hmem => ?_
  have htable := List.mem_singleton.mp ((hw inp v).2 w hmem)
  rw [htable]
  decide

section
variable {n : ℕ} {C : Contract n vaultEngine} {i : Fin n}

/-- The tokens that the open transaction revokes are locked. -/
theorem stable_revokes {ws : List RowWrite} : Stable C i ws fun W => Revokes W.db ws := by
  refine .of_steps (fun _ _ _ _ hA => hA) fun W k vs _ _ _ _ hc hA w hw => ?_
  obtain ⟨t, ht, time, rfl⟩ := hA w hw
  refine ⟨t, ?_, time, rfl⟩
  have hlock : ¬ vaultSchema.Touches vs .refreshTokens t.id :=
    Schema.not_touches_of_apart (Schema.Apart.symm hc) ⟨_, hw, rfl⟩
  exact (Schema.agree_of_untouched hlock W.db t rfl).mpr ht

variable {uow : UnitOfWork} {β : Type} {Q : β → Local Db RowWrite → VaultWorld n → Prop}
  {X : Exn → Local Db RowWrite → VaultWorld n → Prop} {l : Local Db RowWrite} {W : VaultWorld n}
  (hX : ∀ e l' V, X e l' V)
include hX

/-- One conditional UPDATE: the pending writes still only revoke. -/
theorem wlp_revokeById_bind (hrev : Revokes W.db l.pending) {x : UUID}
    {cond : RefreshToken → Bool} {k : ℕ → Tx β}
    (h : ∀ count l' V, Revokes V.db l'.pending → wlp C i (k count) Q X l' V) :
    wlp C i ((uow.updateById .refreshTokens x cond
      fun inp t => t.revokedFrom inp.now).bind k) Q X l W := by
  refine wlp_updateById_bind hX stable_revokes hrev (fun V inp hV _ _ => ?_)
    fun V inp t hV _ ht _ _ => ?_
  · exact h 0 _ _ hV
  · exact h 1 _ _ (hV.snoc ht inp.now)

theorem wlp_revokeEach_bind (hrev : Revokes W.db l.pending) {cond : RefreshToken → Bool}
    (ids : List UUID) {k : Unit → Tx β}
    (h : ∀ l' V, Revokes V.db l'.pending → wlp C i (k ()) Q X l' V) :
    wlp C i ((uow.updateEach .refreshTokens cond
      (fun inp t => t.revokedFrom inp.now) ids).bind k) Q X l W := by
  induction ids generalizing l W with
  | nil => exact h l W hrev
  | cons x ids ih =>
    rw [UnitOfWork.updateEach_cons_bind]
    exact wlp_revokeById_bind hX hrev fun _ l' V hV => ih hV

theorem wlp_revokeAllForUser_bind {u : UUID} {k : Unit → Tx β} (hl : l.pending = [])
    (h : ∀ l' V, Revokes V.db l'.pending → wlp C i (k ()) Q X l' V) :
    wlp C i ((RefreshTokenRepository.revokeAllForUser uow u).bind k) Q X l W := by
  rw [RefreshTokenRepository.revokeAllForUser, UnitOfWork.updateWhere_bind]
  refine wlp_reads_bind (reads_select _ _) hX stable_true trivial fun rows _ V _ _ _ => ?_
  exact wlp_revokeEach_bind hX (hl ▸ Revokes.nil) _ h

/-- Writes that only revoke are committed. -/
theorem wlp_commit_revokes {P : β → Prop} {k : Unit → Tx β} (hk : (k ()).Reads P)
    (hQ : ∀ b l' V, Q b l' V) (hrev : Revokes W.db l.pending)
    (hG : ∀ V, Revokes V.db l.pending → C.inv V → C.assume i V l.pending →
      C.guar i V l.pending) :
    wlp C i (UnitOfWork.commit.bind k) Q X l W :=
  wlp_commit_reads hX stable_revokes hrev hk hG fun _ _ _ _ _ _ _ _ _ _ _ => hQ _ _ _

/-- A new token of the user is issued and the transaction committed. -/
theorem wlp_issueTokenPair {security : SecurityModules}
    {Q : String × String → Local Db RowWrite → VaultWorld n → Prop}
    (hQ : ∀ b l' V, Q b l' V) {A : VaultWorld n → Prop} (userId : UUID)
    (hA : ∀ vs, Stable C i (l.pending ++ vs) A) (hconsume : ∀ V inp, A V → A (V.consume inp))
    (hW : A W) (hG : ∀ V t, t.userId = userId → A V → C.inv V →
      C.assume i V (l.pending ++ [.insert .refreshTokens t]) →
      C.guar i V (l.pending ++ [.insert .refreshTokens t])) :
    wlp C i (AuthService.issueTokenPair security uow userId) Q X l W := by
  have hnil : Stable C i l.pending A := by
    simpa using hA []
  refine wlp_reads_bind reads_readInput hX hnil hW fun inp seen V _ _ hV => ?_
  refine wlp_insertFlushed_bind (l := ⟨l.pending, seen⟩) hX hnil hV fun V row hV _ _ => ?_
  refine wlp_commit_reads (P := fun _ => True) (A := A) hX ?_ (hconsume V row hV) ?_ ?_ ?_
  · exact hA _
  · exact .bind reads_readInput fun _ _ => trivial
  · exact fun V hV hi ha => hG V _ rfl hV hi ha
  · exact fun _ _ _ _ _ _ _ _ _ _ _ => hQ _ _ _

end

section
variable {n : ℕ} {C : Contract n vaultEngine} {i : Fin n} {security : SecurityModules}
  {uow : UnitOfWork} {W : VaultWorld n}

/-- A login commits one new token. -/
theorem wlp_login (email password : String) (hG : ∀ V t, C.inv V →
      C.assume i V [.insert .refreshTokens t] → C.guar i V [.insert .refreshTokens t]) :
    wlp C i (AuthService.login security uow email password)
      (fun _ _ _ => True) (fun _ _ _ => True) ⟨[], []⟩ W := by
  have hX : ∀ (e : Exn) (l : Local Db RowWrite) (V : VaultWorld n), True := fun _ _ _ => trivial
  refine wlp_reads_bind (reads_selectOne _ _) hX stable_true trivial fun user _ V _ _ _ => ?_
  refine wlp_reads_bind (reads_raiseIf _ _ _) hX stable_true trivial fun _ _ V _ _ _ => ?_
  cases user with
  | none => exact wlp_throw hX
  | some user =>
    refine wlp_reads_bind (reads_raiseIf _ _ _) hX stable_true trivial fun _ _ V _ _ _ => ?_
    exact wlp_bind (wlp_issueTokenPair hX (A := fun _ => True) (fun _ _ _ _ _ => trivial) _
      (fun _ => stable_true) (fun _ _ h => h) trivial fun V t _ _ => hG V t)

variable (hG : ∀ V ws, Revokes V.db ws → C.inv V → C.assume i V ws → C.guar i V ws)
include hG

theorem wlp_logout (raw : String) :
    wlp C i (AuthService.logout security uow raw)
      (fun _ _ _ => True) (fun _ _ _ => True) ⟨[], []⟩ W := by
  have hX : ∀ (e : Exn) (l : Local Db RowWrite) (V : VaultWorld n), True := fun _ _ _ => trivial
  refine wlp_reads_bind (reads_selectOne _ _) hX stable_true trivial fun stored _ V _ _ _ => ?_
  split
  · exact fun _ _ => trivial
  · refine wlp_bind ?_
    refine wlp_revokeById_bind hX .nil fun _ l V hV => fun U hU => ?_
    rw [← Prog.bind_ret UnitOfWork.commit]
    exact wlp_commit_revokes hX (P := fun _ => True) trivial (fun _ _ _ => trivial)
      (stable_revokes _ _ hU hV) fun V => hG V _

/-- The revocation of all tokens, as a transaction of its own. -/
theorem wlp_revokeAll {β : Type} {u : UUID} {P : β → Prop} {k : Unit → Tx β}
    (hk : (k ()).Reads P) {l : Local Db RowWrite} (hl : l.pending = []) :
    wlp C i ((RefreshTokenRepository.revokeAllForUser uow u).bind fun _ =>
      UnitOfWork.commit.bind k) (fun _ _ _ => True) (fun _ _ _ => True) l W := by
  have hX : ∀ (e : Exn) (l : Local Db RowWrite) (V : VaultWorld n), True := fun _ _ _ => trivial
  refine wlp_revokeAllForUser_bind hX hl fun l V hV => ?_
  exact wlp_commit_revokes hX hk (fun _ _ _ => trivial) hV fun V => hG V _

theorem wlp_logoutAll (userId : UUID) :
    wlp C i (AuthService.logoutAll uow userId)
      (fun _ _ _ => True) (fun _ _ _ => True) ⟨[], []⟩ W := by
  have hcommit : AuthService.logoutAll uow userId =
      (RefreshTokenRepository.revokeAllForUser uow userId).bind fun _ =>
        UnitOfWork.commit.bind .ret := by
    rw [Prog.bind_ret]
    rfl
  rw [hcommit]
  exact wlp_revokeAll (k := fun _ => .ret ()) hG (P := fun _ => True) trivial rfl

end

section
variable {n : ℕ} (d : Deployment) (calls : Fin n → ServiceCall) (base : Table × UUID → Prop)

/-- Every commit of the run is lawful and rotates an unrevoked token. -/
def tokenContract : Contract n vaultEngine where
  inv W := TokenInv d calls W
  guar k W ws := TokenEffect d (calls k).op W.db ws
  assume k W ws := vaultSchema.LawfulCommit base W ws ∧ (calls k).op.RotatesUnrevoked d W.db ws
  quiet _ _ _ _ := True
  inv_consume _ _ h _ := ⟨h.valid, h.spent, h.lone⟩
  inv_commit _ _ _ h ha hg := h.commit hg ha.1.after

variable {d calls base} {i : Fin n}

/-- The token with this key and digest is there, and revoked if `spent`. -/
def HasToken (db : Db) (x : UUID) (p : String) (spent : Bool) : Prop :=
  ∃ t ∈ db .refreshTokens, t.id = x ∧ t.tokenHash = p ∧ (spent = true → t.revokedAt.isSome)

theorem stable_hasToken {ws : List RowWrite} (x : UUID) (p : String) (spent : Bool) :
    Stable (tokenContract d calls base) i ws fun W => HasToken W.db x p spent := by
  refine .of_steps (fun _ _ _ _ hA => hA) fun W k vs hi _ hg _ _ => ?_
  rintro ⟨t, ht, rfl, rfl, hs⟩
  obtain ⟨t', ht', hid, hp, hr⟩ := hg.keeps hi.valid ht
  exact ⟨t', ht', hid, hp, fun h => hr (hs h)⟩

/-- Of a token that the conditional UPDATE does not reach, another transaction has
committed the revocation. -/
theorem hasToken_of_not_reached {uow : UnitOfWork} {db : Db} {x : UUID} {p : String}
    (h : HasToken db x p false)
    (hr : uow.reached .refreshTokens x (fun t => t.revokedAt.isNone) db = none) :
    HasToken db x p true := by
  obtain ⟨t, ht, hid, hp, -⟩ := h
  refine ⟨t, ht, hid, hp, fun _ => ?_⟩
  have hnot := List.find?_eq_none.mp hr t ht
  have hmay : ∀ a, uow.may db a .refreshTokens t = true := fun a => by
    simp [UnitOfWork.may, mayAccess, policiesAdmit]
  have hrow : rowId .refreshTokens t = x := hid
  simpa [hrow, hmay, Option.isSome_iff_ne_none] using hnot

theorem register_meets (email password : String) (fullName : Option String) (uow : UnitOfWork)
    (W : VaultWorld n) :
    wlp (tokenContract d calls base) i (AuthService.register d.security uow email password fullName)
      (fun _ _ _ => True) (fun _ _ _ => True) ⟨[], []⟩ W := by
  exact wlp_comprises (AuthService.register_elsewhere email password fullName)
    (fun _ _ _ => trivial) (fun _ _ _ => trivial) (fun V ws _ _ h => .elsewhere ws h) (by simp)

theorem tokenContract_revokes (V : VaultWorld n) (ws : List RowWrite) (hV : Revokes V.db ws)
    (_ : (tokenContract d calls base).inv V) (_ : (tokenContract d calls base).assume i V ws) :
    (tokenContract d calls base).guar i V ws :=
  TokenEffect.revoked ws hV

theorem login_meets (email password : String) (hop : (calls i).op = .login email password)
    (uow : UnitOfWork) (W : VaultWorld n) :
    wlp (tokenContract d calls base) i (AuthService.login d.security uow email password)
      (fun _ _ _ => True) (fun _ _ _ => True) ⟨[], []⟩ W := by
  have hpres : (calls i).op.presented d = none := by
    rw [hop]
    rfl
  exact wlp_login email password fun V t _ _ => .issued t hpres

theorem logout_meets (raw : String) (uow : UnitOfWork) (W : VaultWorld n) :
    wlp (tokenContract d calls base) i (AuthService.logout d.security uow raw)
      (fun _ _ _ => True) (fun _ _ _ => True) ⟨[], []⟩ W :=
  wlp_logout tokenContract_revokes raw

theorem logoutAll_meets (userId : UUID) (uow : UnitOfWork) (W : VaultWorld n) :
    wlp (tokenContract d calls base) i (AuthService.logoutAll uow userId)
      (fun _ _ _ => True) (fun _ _ _ => True) ⟨[], []⟩ W :=
  wlp_logoutAll tokenContract_revokes userId

/-- The successor is issued with the revocation of its parent, or without it when
the parent was revoked in the meantime; the assumption on commits excludes the latter. -/
theorem refresh_meets (raw : String) (hop : (calls i).op = .refresh raw) (uow : UnitOfWork)
    (W : VaultWorld n) :
    wlp (tokenContract d calls base) i (AuthService.refresh d.security uow raw)
      (fun _ _ _ => True) (fun _ _ _ => True) ⟨[], []⟩ W := by
  have hX : ∀ (e : Exn) (l : Local Db RowWrite) (V : VaultWorld n), True := fun _ _ _ => trivial
  have hpres : (calls i).op.presented d = some (d.security.hashRefreshToken raw) := by
    rw [hop]
    rfl
  refine wlp_selectOne_bind hX stable_true trivial (fun _ _ => wlp_throw hX)
    fun V inp stored _ _ hs hp => ?_
  have hp : stored.tokenHash = d.security.hashRefreshToken raw := by simpa using hp
  have hstored : HasToken V.db stored.id (d.security.hashRefreshToken raw) false :=
    ⟨stored, hs, rfl, hp, fun h => nomatch h⟩
  dsimp only
  split
  · refine wlp_revokeAll tokenContract_revokes (P := fun _ => True) ?_ rfl
    trivial
  refine wlp_reads_bind reads_readInput hX (stable_hasToken _ _ _) hstored
    fun clock _ V _ _ hstored => ?_
  split
  · refine wlp_bind (wlp_revokeById_bind hX .nil fun _ l V hV => fun U hU => ?_)
    exact wlp_commit_revokes hX (P := fun _ => True) trivial (fun _ _ _ => trivial)
      (stable_revokes _ _ hU hV) fun V => tokenContract_revokes V _
  refine wlp_reads_bind (reads_get _ _) hX (stable_hasToken _ _ _) hstored
    fun user _ V _ _ hstored => ?_
  split
  · refine wlp_revokeAll tokenContract_revokes (P := fun _ => True) ?_ rfl
    trivial
  · refine wlp_bind (wlp_updateById_bind hX (stable_hasToken _ _ _) hstored
      (fun V inp hstored _ hnot => fun U hU => ?_)
      fun V inp t hstored hi ht hid hlive => fun U hU => ?_)
    · have hspent : HasToken V.db stored.id (d.security.hashRefreshToken raw) true :=
        hasToken_of_not_reached hstored hnot
      refine wlp_bind (wlp_issueTokenPair hX (A := fun W => HasToken W.db stored.id
        (d.security.hashRefreshToken raw) true) (fun _ _ _ _ _ => trivial) _
        (fun _ => stable_hasToken _ _ _) (fun _ _ h => h) (stable_hasToken _ _ _ _ _ hU hspent)
        fun V t _ hspent hi ha => ?_)
      have hguard := ha.2
      obtain ⟨a, ha, -, hpa, hra⟩ := hspent
      obtain ⟨b, hb, hpb, hrb⟩ := hguard (by simp) _ hpres
      obtain rfl := eq_of_tokenHash hi.valid ha hb (hpa.trans hpb.symm)
      simp [hrb] at hra
    · obtain ⟨t', ht', hid', hp', -⟩ := hstored
      obtain rfl : t = t' := hi.valid.eq_of_id (t := .refreshTokens) ht ht' (hid.trans hid'.symm)
      -- the revoked token stays locked until the commit
      have hlock : ∀ vs, Stable (tokenContract d calls base) i
          ([.update .refreshTokens (t.revokedFrom inp.now)] ++ vs) fun W =>
            ∀ r : RefreshToken, r.id = t.id →
              (r ∈ W.db .refreshTokens ↔ r ∈ V.db .refreshTokens) := fun vs =>
        stable_locked (t := .refreshTokens)
          ⟨_, List.mem_append_left _ (List.mem_singleton.mpr rfl), rfl⟩ _
      refine wlp_bind (wlp_issueTokenPair hX (A := fun W => ∀ r : RefreshToken, r.id = t.id →
        (r ∈ W.db .refreshTokens ↔ r ∈ V.db .refreshTokens)) (fun _ _ _ _ _ => trivial) _ hlock
        (fun _ _ h => h) (hlock [] _ _ hU fun _ _ => Iff.rfl) fun V' s _ hsame _ _ => ?_)
      exact .rotated t s inp.now ((hsame t rfl).mpr ht) (by simpa using hlive)
        (by rw [hpres, hp'])

theorem token_meets (hops : ∀ i, (calls i).op.authenticates = true) :
    (tokenContract d calls base).Meets (fun i => (calls i).program d) fun _ _ _ _ => True := by
  intro i W _
  have hop := hops i
  change wlp _ i ((calls i).op.program d (calls i).uow) _ _ _ _
  cases h : (calls i).op with
  | register email password fullName =>
    exact wlp_map (fun _ _ _ => trivial) (register_meets _ _ _ _ _)
  | login email password => exact wlp_map (fun _ _ _ => trivial) (login_meets _ _ h _ _)
  | refresh raw => exact wlp_map (fun _ _ _ => trivial) (refresh_meets _ h _ _)
  | logout raw => exact wlp_map (fun _ _ _ => trivial) (logout_meets _ _ _)
  | logoutAll userId => exact wlp_map (fun _ _ _ => trivial) (logoutAll_meets _ _ _)
  | _ => rw [h] at hop; cases hop

end

/-- In a run whose every commit rotates a token that is still unrevoked, refresh
tokens are used once. -/
theorem refresh_tokens_single_use {n : ℕ} (d : Deployment) (calls : Fin n → ServiceCall)
    (hops : ∀ i, (calls i).op.authenticates = true) (W : VaultWorld n) (hb : Begins W)
    (as : Schedule n) (s : VaultSys n) (hr : (waiting d calls W).run vaultEngine as = some s)
    (hguard : (waiting d calls W).Each vaultEngine (fun t a => ∀ k ws,
      t.committing a = some (k, ws) → (calls k).op.RotatesUnrevoked d t.world.db ws) as) :
    SingleUse d calls s.world := by
  have hinit : TokenInv d calls W := by
    refine ⟨hb.valid, fun p hp => ?_, fun p => ?_⟩
    · simp [successors, hb.log] at hp
    · simp [successors, hb.log]
  have hok := Sys.Ok.run (token_meets hops) ⟨fun _ _ _ _ _ _ => trivial,
    fun _ _ _ _ _ _ _ => trivial⟩ (.initial (hinit : (tokenContract d calls (baseKeys W.db)).inv W))
    (fun pre a t hpre ht k ws hc => ⟨⟨hb.each_lawful pre a t hpre ht k ws hc,
      hguard pre a t hpre ht k ws hc⟩, fun _ _ _ => trivial⟩) hr
  exact hok.inv.singleUse

/-- User 1 with an unexpired refresh token. -/
def oneTokenDb : Db
  | .users => [⟨1, "ana@example.com", some "h", none, true⟩]
  | .refreshTokens => [⟨2, 1, "t", 90, none⟩]
  | _ => []

theorem begins_oneToken {n : ℕ} : Begins (⟨oneTokenDb, [], samplePast 10⟩ : VaultWorld n) :=
  begins_sample (.of_checks mem_allTables (by decide) (by decide +kernel)) 10 (by decide)

/-- The token is presented twice at the same time. -/
def doubleRefresh : Fin 2 → ServiceCall
  | 0 => ⟨.refresh "t", ⟨none, none, .envvaultApp, .superuser⟩⟩
  | 1 => ⟨.refresh "t", ⟨none, none, .envvaultApp, .superuser⟩⟩

/-- Both calls find the token unrevoked before either commits. -/
theorem double_refresh_issues_two :
    ∃ W : VaultWorld 2, Begins W ∧ (∀ i, (doubleRefresh i).op.authenticates = true) ∧ ∃ as s,
      (waiting sampleDeployment doubleRefresh W).run vaultEngine as = some s ∧
        ¬ SingleUse sampleDeployment doubleRefresh s.world := by
  refine ⟨_, begins_oneToken, by decide,
    sampleSteps 10 [0, 0, 0, 1, 1, 1, 0, 0, 0, 0, 1, 1, 1, 1, 0, 0, 0, 1, 1, 1], ?_⟩
  have hrun : ((waiting sampleDeployment doubleRefresh ⟨oneTokenDb, [], samplePast 10⟩).run
      vaultEngine (sampleSteps 10 [0, 0, 0, 1, 1, 1, 0, 0, 0, 0, 1, 1, 1, 1, 0, 0, 0, 1, 1, 1])).map
        (fun s => (successors sampleDeployment doubleRefresh s.world.log "t").length) = some 2 := by
    rfl
  obtain ⟨s, hs, hlen⟩ := Option.map_eq_some_iff.mp hrun
  exact ⟨s, hs, fun h => absurd (h.successor "t") (by omega)⟩

/-- The token is presented once. -/
def oneRefresh : Fin 1 → ServiceCall
  | 0 => ⟨.refresh "t", ⟨none, none, .envvaultApp, .superuser⟩⟩

theorem refresh_tokens_single_use_oneRefresh :
    ∃ s, (waiting sampleDeployment oneRefresh ⟨oneTokenDb, [], samplePast 10⟩).run vaultEngine
      (sampleSteps 10 [0, 0, 0, 0, 0, 0, 0]) = some s ∧
        SingleUse sampleDeployment oneRefresh s.world := by
  obtain ⟨s, hs⟩ := Option.isSome_iff_exists.mp (rfl : ((waiting sampleDeployment oneRefresh
    ⟨oneTokenDb, [], samplePast 10⟩).run vaultEngine
      (sampleSteps 10 [0, 0, 0, 0, 0, 0, 0])).isSome = true)
  refine ⟨s, hs, refresh_tokens_single_use sampleDeployment oneRefresh (by decide) _
    begins_oneToken _ s hs (Sys.Each.of_checks (fun t a => (t.committing a).all fun c =>
      decide ((oneRefresh c.1).op.RotatesUnrevoked sampleDeployment t.world.db c.2))
      (fun t a h k ws hc => ?_) (by decide))⟩
  simpa [hc] using h

end EnvVault
