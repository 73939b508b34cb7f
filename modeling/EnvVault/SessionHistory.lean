import EnvVault.SessionCalls

/-!
# Sessions over a serial run

The calls of a serial run and what they returned are its trace. The trace alone tells
which refresh tokens are revoked, and so which token a refresh accepts: the row of a
token in the database holds the same verdict in its `revoked_at` and `expires_at`.
-/
namespace EnvVault
open EnvVault.Relational EnvVault.Transactions

/-- A call that runs to its end, or the (de)activation of a user. -/
inductive SessionEvent : Type
  | call (c : ServiceCall)
  | setActive (userId : UUID) (active : Bool)

/-- The calls are registrations, logins, refreshes and logouts. -/
def SessionEvent.Permitted : SessionEvent → Prop
  | .call c => c.op.authenticates = true
  | .setActive _ _ => True

/-- The token that a call of `refresh` or `logout` presents. -/
def SessionEvent.presented : SessionEvent → Option String
  | .call ⟨.refresh raw, _⟩ => some raw
  | .call ⟨.logout raw, _⟩ => some raw
  | _ => none

/-- The user with this key gets another `is_active`. -/
def setActive (userId : UUID) (active : Bool) (db : Db) : Db :=
  match (db .users).find? fun user : User => user.id == userId with
  | none => db
  | some user => vaultSchema.apply (.update .users { user with isActive := active }) db

/-- An event of a run, with the number of the first input it may read, the database it
starts from and its result. -/
structure Entry where
  event : SessionEvent
  start : ℕ
  before : Db
  result : Except Exn Reply

/-- The number of the next input, the database, and the entries so far, newest first. -/
structure History where
  next : ℕ
  db : Db
  trace : List Entry

namespace History

/-- A call that starts here and runs alone. -/
def call (d : Deployment) (inputs : ℕ → Input) (s : History) (c : ServiceCall) :
    Except Exn Reply × Solo Db RowWrite :=
  (c.program d).exec vaultEngine inputs ⟨s.next, [], s.db⟩

def step (d : Deployment) (inputs : ℕ → Input) (s : History) : SessionEvent → History
  | .call c => ⟨(s.call d inputs c).2.next, (s.call d inputs c).2.db,
      ⟨.call c, s.next, s.db, (s.call d inputs c).1⟩ :: s.trace⟩
  | .setActive userId active => ⟨s.next, setActive userId active s.db,
      ⟨.setActive userId active, s.next, s.db, .ok .unit⟩ :: s.trace⟩

def run (d : Deployment) (inputs : ℕ → Input) (db : Db) (events : List SessionEvent) : History :=
  events.foldl (step d inputs) ⟨0, db, []⟩

end History

/-- A raw token that was returned, the user it was issued for and when. -/
structure Issue where
  raw : String
  userId : UUID
  time : Timestamp
deriving DecidableEq

def Active (db : Db) (userId : UUID) : Prop :=
  ∃ user ∈ db .users, user.id = userId ∧ user.isActive = true

section
variable (inputs : ℕ → Input) (lifetime : ℕ)

/-- The token that an entry returns. A login reads the clock for it with its second
statement, a refresh with its fifth. -/
def Entry.issued (x : Entry) : List Issue :=
  match x.event, x.result with
  | .call ⟨.login _ _, _⟩, .ok (.tokens tokens) =>
    [⟨tokens.refreshToken, tokens.user.id, (inputs (x.start + 1)).now⟩]
  | .call ⟨.refresh _, _⟩, .ok (.tokens tokens) =>
    [⟨tokens.refreshToken, tokens.user.id, (inputs (x.start + 4)).now⟩]
  | _, _ => []

/-- The tokens that a trace has returned. -/
def issuedIn : List Entry → List Issue
  | [] => []
  | x :: past => issuedIn past ++ x.issued inputs

/-- When a refresh compares with the clock: with its second statement. -/
def Entry.time (x : Entry) : Timestamp := (inputs (x.start + 1)).now

/-- The entry takes the token from its user: it rotates the token or logs it out, it
logs the user out, or it is a refresh that presents a token of the user which is already
revoked, or which is not revoked and not expired while the user is inactive. -/
def Entry.Ends (x : Entry) (past : List Entry) (revoked : String → UUID → Prop) (raw : String)
    (userId : UUID) : Prop :=
  match x.event with
  | .call ⟨.refresh presented, _⟩ =>
    presented = raw ∧ x.result.isOk = true ∨ revoked presented userId ∨
      ∃ time, ⟨presented, userId, time⟩ ∈ issuedIn inputs past ∧ ¬ revoked presented userId ∧
        x.time inputs < time + lifetime ∧ ¬ Active x.before userId
  | .call ⟨.logout presented, _⟩ => presented = raw
  | .call ⟨.logoutAll user, _⟩ => user = userId
  | _ => False

/-- The entry is a refresh that presents the token after it has expired. -/
def Entry.Expires (x : Entry) (past : List Entry) (revoked : String → UUID → Prop) (raw : String)
    (userId : UUID) : Prop :=
  match x.event with
  | .call ⟨.refresh presented, _⟩ => presented = raw ∧
      ∃ time, ⟨raw, userId, time⟩ ∈ issuedIn inputs past ∧ ¬ revoked raw userId ∧
        time + lifetime ≤ x.time inputs
  | _ => False

def Entry.Revokes (x : Entry) (past : List Entry) (revoked : String → UUID → Prop) (raw : String)
    (userId : UUID) : Prop :=
  x.Ends inputs lifetime past revoked raw userId ∨ x.Expires inputs lifetime past revoked raw userId

/-- After this trace the token of this user is revoked. -/
def Revoked : List Entry → String → UUID → Prop
  | [], _, _ => False
  | x :: past, raw, userId => Revoked past raw userId ∨
      (∃ time, ⟨raw, userId, time⟩ ∈ issuedIn inputs past) ∧
        x.Revokes inputs lifetime past (Revoked past) raw userId

/-- A refresh that presents the token at this time, after this trace and from this
database, is to succeed: an entry has returned the token for a user less than the
lifetime before, no later entry has taken it from the user, and the user is active. -/
def Accepts (trace : List Entry) (db : Db) (time : Timestamp) (raw : String) : Prop :=
  ∃ later x past issue, trace = later ++ x :: past ∧
    issue ∈ x.issued inputs ∧ issue.raw = raw ∧ time < issue.time + lifetime ∧
    (∀ last y between, later = last ++ y :: between →
      ¬ y.Ends inputs lifetime (between ++ x :: past)
        (Revoked inputs lifetime (between ++ x :: past)) raw issue.userId) ∧
    Active db issue.userId

end

/-- The trace has returned the token and not revoked it, it has not expired and its user
is active. -/
def Usable (inputs : ℕ → Input) (lifetime : ℕ) (trace : List Entry) (db : Db) (time : Timestamp)
    (raw : String) : Prop :=
  ∃ issue ∈ issuedIn inputs trace, issue.raw = raw ∧
    ¬ Revoked inputs lifetime trace raw issue.userId ∧ time < issue.time + lifetime ∧
      Active db issue.userId

/-- The raw tokens of the inputs before `next` are pairwise distinct, and SHA-256 tells
them and the presented tokens apart. -/
structure RawTokens (security : SecurityModules) (inputs : ℕ → Input) (next : ℕ)
    (presented : Set String) : Prop where
  distinct : ∀ i < next, ∀ j < next, (inputs i).rawToken = (inputs j).rawToken → i = j
  injective : Set.InjOn security.hashRefreshToken
    ({raw | ∃ i < next, (inputs i).rawToken = raw} ∪ presented)

theorem RawTokens.mono {security : SecurityModules} {inputs : ℕ → Input} {next next' : ℕ}
    {presented presented' : Set String} (h : RawTokens security inputs next presented)
    (hnext : next' ≤ next) (hpresented : presented' ⊆ presented) :
    RawTokens security inputs next' presented' := by
  refine ⟨fun i hi j hj => h.distinct i (by omega) j (by omega), h.injective.mono ?_⟩
  refine Set.union_subset_union (fun raw hraw => ?_) hpresented
  obtain ⟨i, hi, heq⟩ := hraw
  exact ⟨i, by omega, heq⟩

section
variable {inputs : ℕ → Input} {lifetime : ℕ}

theorem issuedIn_append (later earlier : List Entry) : issuedIn inputs (later ++ earlier) =
    issuedIn inputs earlier ++ issuedIn inputs later := by
  induction later with
  | nil => simp [issuedIn]
  | cons x later ih => simp [issuedIn, ih]

/-- Only a token that was returned is revoked. -/
theorem Revoked.issued {trace : List Entry} {raw : String} {userId : UUID}
    (h : Revoked inputs lifetime trace raw userId) :
    ∃ time, ⟨raw, userId, time⟩ ∈ issuedIn inputs trace := by
  induction trace with
  | nil => exact h.elim
  | cons x past ih =>
    obtain ⟨time, hmem⟩ : ∃ time, ⟨raw, userId, time⟩ ∈ issuedIn inputs past := by
      rcases h with h | ⟨h, -⟩
      · exact ih h
      · exact h
    exact ⟨time, List.mem_append_left _ hmem⟩

/-- A token is revoked when an entry after the one that returned it has revoked it. -/
theorem revoked_iff_since {later past : List Entry} {x : Entry} {issue : Issue}
    (hissue : issue ∈ x.issued inputs) (hnew : ∀ other ∈ issuedIn inputs past,
      other.raw ≠ issue.raw) :
    Revoked inputs lifetime (later ++ x :: past) issue.raw issue.userId ↔
      ∃ last y between, later = last ++ y :: between ∧
        y.Revokes inputs lifetime (between ++ x :: past)
          (Revoked inputs lifetime (between ++ x :: past)) issue.raw issue.userId := by
  induction later with
  | nil =>
    constructor
    · rintro (h | ⟨⟨time, hmem⟩, -⟩)
      · obtain ⟨time, hmem⟩ := h.issued
        exact absurd rfl (hnew ⟨issue.raw, issue.userId, time⟩ hmem)
      · exact absurd rfl (hnew ⟨issue.raw, issue.userId, time⟩ hmem)
    · rintro ⟨last, y, between, heq, -⟩
      simp at heq
  | cons z later ih =>
    have hmem : ∃ time, ⟨issue.raw, issue.userId, time⟩ ∈
        issuedIn inputs (later ++ x :: past) := by
      refine ⟨issue.time, ?_⟩
      rw [issuedIn_append, issuedIn]
      exact List.mem_append_left _ (List.mem_append_right _ hissue)
    rw [List.cons_append, Revoked, ih]
    constructor
    · rintro (⟨last, y, between, rfl, hy⟩ | ⟨-, hz⟩)
      · exact ⟨z :: last, y, between, rfl, hy⟩
      · exact ⟨[], z, later, rfl, hz⟩
    · rintro ⟨last, y, between, heq, hy⟩
      cases last with
      | nil =>
        obtain ⟨rfl, rfl⟩ := List.cons.inj heq
        exact Or.inr ⟨hmem, hy⟩
      | cons z' last =>
        obtain ⟨rfl, rfl⟩ := List.cons.inj heq
        exact Or.inl ⟨last, y, between, rfl, hy⟩

end

/-- The columns of a token that never change. -/
def RefreshToken.fixed (t : RefreshToken) : String × UUID × Timestamp :=
  (t.tokenHash, t.userId, t.expiresAt)

def Issue.fixed (security : SecurityModules) (issue : Issue) : String × UUID × Timestamp :=
  (security.hashRefreshToken issue.raw, issue.userId, issue.time + security.refreshTokenLifetime)

/-- The rows of the refresh tokens hold what the trace says: one row for each token that
was returned, in order, with `revoked_at` set when the trace revokes it. -/
structure Recorded (security : SecurityModules) (inputs : ℕ → Input) (s : History) : Prop where
  valid : vaultSchema.Valid s.db
  rows : (s.db .refreshTokens).map RefreshToken.fixed =
    (issuedIn inputs s.trace).map (Issue.fixed security)
  revoked : ∀ t ∈ s.db .refreshTokens, ∀ issue ∈ issuedIn inputs s.trace,
    t.tokenHash = security.hashRefreshToken issue.raw → (t.revokedAt.isSome = true ↔
      Revoked inputs security.refreshTokenLifetime s.trace issue.raw issue.userId)
  raws : ∀ issue ∈ issuedIn inputs s.trace, ∃ k < s.next, (inputs k).rawToken = issue.raw
  ids : ∀ t ∈ s.db .refreshTokens, ∃ k < s.next, (inputs k).uuid = t.id
  starts : ∀ x ∈ s.trace, x.start ≤ s.next

namespace Recorded
variable {security : SecurityModules} {inputs : ℕ → Input} {s : History}

theorem row (h : Recorded security inputs s) {issue : Issue}
    (hissue : issue ∈ issuedIn inputs s.trace) :
    ∃ t ∈ s.db .refreshTokens, t.fixed = issue.fixed security := by
  have hmem : issue.fixed security ∈ (s.db .refreshTokens).map RefreshToken.fixed := by
    rw [h.rows]
    exact List.mem_map_of_mem hissue
  obtain ⟨t, ht, heq⟩ := List.mem_map.mp hmem
  exact ⟨t, ht, heq⟩

theorem issue (h : Recorded security inputs s) {t : RefreshToken} (ht : t ∈ s.db .refreshTokens) :
    ∃ issue ∈ issuedIn inputs s.trace, t.fixed = issue.fixed security := by
  have hmem : t.fixed ∈ (issuedIn inputs s.trace).map (Issue.fixed security) := by
    rw [← h.rows]
    exact List.mem_map_of_mem ht
  obtain ⟨issue, hissue, heq⟩ := List.mem_map.mp hmem
  exact ⟨issue, hissue, heq.symm⟩

/-- The row of a token is the one with its digest. -/
theorem fixed_eq (h : Recorded security inputs s) {t : RefreshToken}
    (ht : t ∈ s.db .refreshTokens) {issue : Issue} (hissue : issue ∈ issuedIn inputs s.trace)
    (hhash : t.tokenHash = security.hashRefreshToken issue.raw) :
    t.fixed = issue.fixed security := by
  obtain ⟨t', ht', heq⟩ := h.row hissue
  have hhash' : t'.tokenHash = security.hashRefreshToken issue.raw := congrArg Prod.fst heq
  rwa [eq_of_tokenHash h.valid ht ht' (hhash.trans hhash'.symm)]

/-- No token is returned twice. -/
theorem nodup (h : Recorded security inputs s) :
    ((issuedIn inputs s.trace).map Issue.raw).Nodup := by
  have hhashes : ((s.db .refreshTokens).map RefreshToken.tokenHash).Nodup :=
    ((h.valid.keys .refreshTokens).of_map _).map_on fun a ha b hb => eq_of_tokenHash h.valid ha hb
  have heq : (s.db .refreshTokens).map RefreshToken.tokenHash =
      ((issuedIn inputs s.trace).map Issue.raw).map security.hashRefreshToken := by
    have hfst := congrArg (List.map Prod.fst) h.rows
    rw [List.map_map, List.map_map] at hfst
    rw [List.map_map]
    exact hfst
  rw [heq] at hhashes
  exact hhashes.of_map _

/-- The raw token tells who it was issued for and when. -/
theorem issue_unique (h : Recorded security inputs s) {a b : Issue}
    (ha : a ∈ issuedIn inputs s.trace) (hb : b ∈ issuedIn inputs s.trace) (heq : a.raw = b.raw) :
    a = b :=
  List.inj_on_of_nodup_map h.nodup ha hb heq

end Recorded

/-- What an event does to the refresh tokens: it revokes those that its entry ends or
expires, and adds those that its entry returns. -/
structure TokenStep (security : SecurityModules) (inputs : ℕ → Input) (s t : History) (x : Entry)
    (P : RefreshToken → Bool) (time : RefreshToken → Timestamp) (new : List RefreshToken) :
    Prop where
  trace : t.trace = x :: s.trace
  start : x.start = s.next
  next : s.next ≤ t.next
  valid : vaultSchema.Valid t.db
  rows : t.db .refreshTokens = (s.db .refreshTokens).map (revokedWhere P time) ++ new
  fixed : new.map RefreshToken.fixed = (x.issued inputs).map (Issue.fixed security)
  live : ∀ r ∈ new, r.revokedAt = none
  ids : ∀ r ∈ new, ∃ k < t.next, (inputs k).uuid = r.id
  raws : ∀ issue ∈ x.issued inputs, ∃ k, s.next ≤ k ∧ k < t.next ∧ (inputs k).rawToken = issue.raw
  revokes : ∀ r ∈ s.db .refreshTokens, ∀ issue ∈ issuedIn inputs s.trace,
    r.tokenHash = security.hashRefreshToken issue.raw → r.revokedAt = none → (P r = true ↔
      x.Revokes inputs security.refreshTokenLifetime s.trace
        (Revoked inputs security.refreshTokenLifetime s.trace) issue.raw issue.userId)

namespace TokenStep
variable {security : SecurityModules} {inputs : ℕ → Input} {s t : History} {x : Entry}
  {P : RefreshToken → Bool} {time : RefreshToken → Timestamp} {new : List RefreshToken}
  {presented : Set String}

/-- A row that is revoked stays as it is. -/
theorem settled (h : TokenStep security inputs s t x P time new) {r : RefreshToken}
    (hr : r ∈ s.db .refreshTokens) (hrevoked : r.revokedAt ≠ none) : r ∈ t.db .refreshTokens := by
  rw [h.rows]
  exact List.mem_append_left _ (List.mem_map.mpr
    ⟨r, hr, revokedWhere_of_not fun hc => hrevoked hc.2⟩)

/-- An old token and a new one have different digests. -/
theorem fresh (h : TokenStep security inputs s t x P time new) (hs : Recorded security inputs s)
    (hraw : RawTokens security inputs t.next presented) {a b : Issue}
    (ha : a ∈ issuedIn inputs s.trace) (hb : b ∈ x.issued inputs) :
    security.hashRefreshToken a.raw ≠ security.hashRefreshToken b.raw := by
  intro heq
  obtain ⟨i, hi, hai⟩ := hs.raws a ha
  obtain ⟨k, hk, hkt, hbk⟩ := h.raws b hb
  have hit : i < t.next := hi.trans_le h.next
  have hab := hraw.injective (Or.inl ⟨i, hit, hai⟩) (Or.inl ⟨k, hkt, hbk⟩) heq
  have hik := hraw.distinct i hit k hkt (hai.trans (hab.trans hbk.symm))
  omega

/-- The rows go on holding what the trace says. -/
theorem recorded (h : TokenStep security inputs s t x P time new) (hs : Recorded security inputs s)
    (hraw : RawTokens security inputs t.next presented) : Recorded security inputs t where
  valid := h.valid
  rows := by
    have hkeep : RefreshToken.fixed ∘ revokedWhere P time = RefreshToken.fixed := by
      funext r
      simp [RefreshToken.fixed]
    rw [h.rows, h.trace, issuedIn, List.map_append, List.map_append, List.map_map, hkeep, hs.rows,
      h.fixed]
  revoked := by
    intro r hr issue hissue hhash
    have hold : ∀ r ∈ s.db .refreshTokens, ∃ old ∈ issuedIn inputs s.trace,
        r.tokenHash = security.hashRefreshToken old.raw := fun r hr => by
      obtain ⟨old, hmem, heq⟩ := hs.issue hr
      exact ⟨old, hmem, congrArg Prod.fst heq⟩
    have hnew : ∀ r ∈ new, ∃ issue ∈ x.issued inputs,
        r.tokenHash = security.hashRefreshToken issue.raw := fun r hr => by
      have hmem : r.fixed ∈ (x.issued inputs).map (Issue.fixed security) := by
        rw [← h.fixed]
        exact List.mem_map_of_mem hr
      obtain ⟨issue, hissue, heq⟩ := List.mem_map.mp hmem
      exact ⟨issue, hissue, (congrArg Prod.fst heq).symm⟩
    rw [h.rows] at hr
    rw [h.trace, issuedIn] at hissue
    rw [h.trace, Revoked]
    rcases List.mem_append.mp hr with hr | hr <;> rcases List.mem_append.mp hissue with hi | hi
    · obtain ⟨r₀, hr₀, rfl⟩ := List.mem_map.mp hr
      rw [revokedWhere_tokenHash] at hhash
      rw [revokedWhere_isSome, hs.revoked r₀ hr₀ issue hi hhash]
      have hmem : ∃ time, ⟨issue.raw, issue.userId, time⟩ ∈ issuedIn inputs s.trace :=
        ⟨issue.time, hi⟩
      by_cases hlive : r₀.revokedAt = none
      · rw [h.revokes r₀ hr₀ issue hi hhash hlive]
        tauto
      · have hrev := (hs.revoked r₀ hr₀ issue hi hhash).mp (Option.isSome_iff_ne_none.mpr hlive)
        tauto
    · obtain ⟨r₀, hr₀, rfl⟩ := List.mem_map.mp hr
      rw [revokedWhere_tokenHash] at hhash
      obtain ⟨old, hmem, heq⟩ := hold r₀ hr₀
      exact absurd (heq.symm.trans hhash) (h.fresh hs hraw hmem hi)
    · obtain ⟨other, hmem, heq⟩ := hnew r hr
      exact absurd (hhash.symm.trans heq) (h.fresh hs hraw hi hmem)
    · have hfresh : ∀ time, ⟨issue.raw, issue.userId, time⟩ ∉ issuedIn inputs s.trace :=
        fun time hmem => h.fresh hs hraw hmem hi rfl
      rw [h.live r hr]
      constructor
      · intro hsome
        cases hsome
      · rintro (hrev | ⟨⟨time, hmem⟩, -⟩)
        · obtain ⟨time, hmem⟩ := hrev.issued
          exact (hfresh time hmem).elim
        · exact (hfresh time hmem).elim
  raws := by
    intro issue hissue
    rw [h.trace, issuedIn] at hissue
    rcases List.mem_append.mp hissue with hi | hi
    · obtain ⟨k, hk, heq⟩ := hs.raws issue hi
      exact ⟨k, hk.trans_le h.next, heq⟩
    · obtain ⟨k, -, hk, heq⟩ := h.raws issue hi
      exact ⟨k, hk, heq⟩
  ids := by
    intro r hr
    rw [h.rows] at hr
    rcases List.mem_append.mp hr with hr | hr
    · obtain ⟨r₀, hr₀, rfl⟩ := List.mem_map.mp hr
      obtain ⟨k, hk, heq⟩ := hs.ids r₀ hr₀
      exact ⟨k, hk.trans_le h.next, heq.trans (revokedWhere_id r₀).symm⟩
    · exact h.ids r hr
  starts := by
    intro y hy
    rw [h.trace] at hy
    rcases List.mem_cons.mp hy with rfl | hy
    · exact h.start.trans_le h.next
    · exact (hs.starts y hy).trans h.next

end TokenStep

section
variable {d : Deployment} {inputs : ℕ → Input} {s : History} {uow : UnitOfWork} {c : ServiceCall}
  {result : Except Exn Reply} {next : ℕ} {ws : List RowWrite} {db : Db}
  {P : RefreshToken → Bool} {time : RefreshToken → Timestamp}

/-- A call that returns no token. -/
theorem TokenStep.of_call (hcall : s.call d inputs c = (result, ⟨next, ws, db⟩))
    (hvalid : vaultSchema.Valid db)
    (hrows : db .refreshTokens = (s.db .refreshTokens).map (revokedWhere P time))
    (hissued : (⟨.call c, s.next, s.db, result⟩ : Entry).issued inputs = [])
    (hrevokes : ∀ r ∈ s.db .refreshTokens, ∀ issue ∈ issuedIn inputs s.trace,
      r.tokenHash = d.security.hashRefreshToken issue.raw → r.revokedAt = none → (P r = true ↔
        (⟨.call c, s.next, s.db, result⟩ : Entry).Revokes inputs d.security.refreshTokenLifetime
          s.trace (Revoked inputs d.security.refreshTokenLifetime s.trace) issue.raw
            issue.userId)) :
    TokenStep d.security inputs s (s.step d inputs (.call c)) ⟨.call c, s.next, s.db, result⟩ P
      time [] := by
  have hnext := Prog.exec_next_le vaultEngine inputs (c.program d) ⟨s.next, [], s.db⟩
  have hstep : s.step d inputs (.call c) =
      ⟨next, db, ⟨.call c, s.next, s.db, result⟩ :: s.trace⟩ := by
    rw [History.step, hcall]
  rw [History.call] at hcall
  rw [hcall] at hnext
  rw [hstep]
  exact {
    trace := rfl
    start := rfl
    next := hnext
    valid := hvalid
    rows := by rw [List.append_nil]; exact hrows
    fixed := by rw [hissued]; rfl
    live := fun r hr => nomatch hr
    ids := fun r hr => nomatch hr
    raws := by rw [hissued]; exact fun issue hi => nomatch hi
    revokes := hrevokes }

/-- A call that returns a token, made of the inputs `k` and `k + 1`. -/
theorem TokenStep.of_issue {userId : UUID} {k : ℕ}
    (hcall : s.call d inputs c = (result, ⟨next, ws, tokensAfter P time
      [issuedToken d.security userId (inputs k) (inputs (k + 1))] s.db⟩))
    (hvalid : vaultSchema.Valid (tokensAfter P time
      [issuedToken d.security userId (inputs k) (inputs (k + 1))] s.db))
    (hk : s.next ≤ k) (hk' : k + 1 < next)
    (hissued : (⟨.call c, s.next, s.db, result⟩ : Entry).issued inputs =
      [⟨(inputs k).rawToken, userId, (inputs k).now⟩])
    (hrevokes : ∀ r ∈ s.db .refreshTokens, ∀ issue ∈ issuedIn inputs s.trace,
      r.tokenHash = d.security.hashRefreshToken issue.raw → r.revokedAt = none → (P r = true ↔
        (⟨.call c, s.next, s.db, result⟩ : Entry).Revokes inputs d.security.refreshTokenLifetime
          s.trace (Revoked inputs d.security.refreshTokenLifetime s.trace) issue.raw
            issue.userId)) :
    TokenStep d.security inputs s (s.step d inputs (.call c)) ⟨.call c, s.next, s.db, result⟩ P
      time [issuedToken d.security userId (inputs k) (inputs (k + 1))] := by
  have hstep : s.step d inputs (.call c) = ⟨next, tokensAfter P time
      [issuedToken d.security userId (inputs k) (inputs (k + 1))] s.db,
        ⟨.call c, s.next, s.db, result⟩ :: s.trace⟩ := by
    rw [History.step, hcall]
  rw [hstep]
  exact {
    trace := rfl
    start := rfl
    next := by show s.next ≤ next; omega
    valid := hvalid
    rows := tokensAfter_tokens
    fixed := by rw [hissued]; rfl
    live := by simp [issuedToken]
    ids := by
      intro r hr
      obtain rfl := List.mem_singleton.mp hr
      exact ⟨k + 1, hk', rfl⟩
    raws := by
      rw [hissued]
      intro issue hi
      obtain rfl := List.mem_singleton.mp hi
      exact ⟨k, hk, (Nat.lt_succ_self k).trans hk', rfl⟩
    revokes := hrevokes }

/-- Keys and raw tokens that the inputs from here on supply are new. -/
theorem Recorded.unused (hs : Recorded d.security inputs s) {past : List Input}
    (hf : FreshStream vaultEngine inputs past) {presented : Set String} {k : ℕ} (hk : s.next ≤ k)
    (hraw : RawTokens d.security inputs (k + 1) presented) :
    ∀ t ∈ s.db .refreshTokens, t.id ≠ (inputs (k + 1)).uuid ∧
      t.tokenHash ≠ d.security.hashRefreshToken (inputs k).rawToken := by
  intro t ht
  constructor
  · obtain ⟨i, hi, hid⟩ := hs.ids t ht
    rw [← hid]
    intro heq
    refine freshInput_ids (hf (k + 1)) (inputs (k + 1)).uuid (by simp [Input.ids]) (inputs i)
      (List.mem_append_left _ (mem_consumed (by omega))) ?_
    simp [Input.ids, heq]
  · obtain ⟨issue, hissue, heq⟩ := hs.issue ht
    obtain ⟨i, hi, hiraw⟩ := hs.raws issue hissue
    have hhash : t.tokenHash = d.security.hashRefreshToken issue.raw := congrArg Prod.fst heq
    rw [hhash]
    intro hsame
    have hik : i < k + 1 := by omega
    have hraws := hraw.injective (Or.inl ⟨i, hik, hiraw⟩) (Or.inl ⟨k, by omega, rfl⟩) hsame
    have := hraw.distinct i hik k (by omega) (hiraw.trans hraws)
    omega

theorem History.next_le_step (s : History) (e : SessionEvent) :
    s.next ≤ (s.step d inputs e).next := by
  cases e with
  | call c => exact Prog.exec_next_le vaultEngine inputs _ ⟨s.next, [], s.db⟩
  | setActive userId active => exact le_rfl

/-- A digest tells whether a presented token is one that was returned. -/
theorem Recorded.raw_eq_iff (hs : Recorded d.security inputs s) {next : ℕ} {presented : Set String}
    (hraw : RawTokens d.security inputs next presented) (hnext : s.next ≤ next) {raw : String}
    (hp : raw ∈ presented) {issue : Issue} (hissue : issue ∈ issuedIn inputs s.trace) :
    issue.raw = raw ↔
      d.security.hashRefreshToken issue.raw = d.security.hashRefreshToken raw := by
  obtain ⟨k, hk, heq⟩ := hs.raws issue hissue
  exact ⟨congrArg _, hraw.injective (Or.inl ⟨k, hk.trans_le hnext, heq⟩) (Or.inr hp)⟩

/-- Of the tokens that were returned, a refresh revokes the one it presents when it rotates
it or finds it expired, and all of its user when it finds it revoked or the user inactive. -/
theorem Recorded.revokes_refresh_iff {security : SecurityModules}
    (hs : Recorded security inputs s) {raw : String} {a issue : Issue}
    (ha : a ∈ issuedIn inputs s.trace) (haraw : a.raw = raw)
    (hissue : issue ∈ issuedIn inputs s.trace) {lifetime : ℕ} :
    (⟨.call ⟨.refresh raw, uow⟩, s.next, s.db, result⟩ : Entry).Revokes inputs lifetime s.trace
        (Revoked inputs lifetime s.trace) issue.raw issue.userId ↔
      issue.raw = raw ∧ result.isOk = true ∨
      issue.userId = a.userId ∧ Revoked inputs lifetime s.trace raw a.userId ∨
      (issue.userId = a.userId ∧ ¬ Revoked inputs lifetime s.trace raw a.userId ∧
        (inputs (s.next + 1)).now < a.time + lifetime ∧ ¬ Active s.db a.userId) ∨
      issue.raw = raw ∧ ¬ Revoked inputs lifetime s.trace raw a.userId ∧
        a.time + lifetime ≤ (inputs (s.next + 1)).now := by
  have hown : ∀ userId time, ⟨raw, userId, time⟩ ∈ issuedIn inputs s.trace →
      userId = a.userId ∧ time = a.time := by
    intro userId time hmem
    have heq := hs.issue_unique hmem ha haraw.symm
    exact ⟨congrArg Issue.userId heq, congrArg Issue.time heq⟩
  have hself : issue.raw = raw → issue.userId = a.userId := fun h =>
    congrArg Issue.userId (hs.issue_unique hissue ha (h.trans haraw.symm))
  have hamem : ⟨raw, a.userId, a.time⟩ ∈ issuedIn inputs s.trace := haraw ▸ ha
  simp only [Entry.Revokes, Entry.Ends, Entry.Expires, Entry.time]
  constructor
  · rintro ((⟨heq, hok⟩ | hrev | ⟨time, hmem, hlive, hunexpired, hinactive⟩) |
      ⟨heq, time, hmem, hlive, hexpired⟩)
    · exact Or.inl ⟨heq.symm, hok⟩
    · obtain ⟨time, hmem⟩ := hrev.issued
      obtain ⟨hu, -⟩ := hown _ _ hmem
      exact Or.inr (Or.inl ⟨hu, hu ▸ hrev⟩)
    · obtain ⟨hu, rfl⟩ := hown _ _ hmem
      rw [hu] at hlive hinactive
      exact Or.inr (Or.inr (Or.inl ⟨hu, hlive, hunexpired, hinactive⟩))
    · rw [← heq] at hmem hlive
      obtain ⟨hu, rfl⟩ := hown _ _ hmem
      rw [hu] at hlive
      exact Or.inr (Or.inr (Or.inr ⟨heq.symm, hlive, hexpired⟩))
  · rintro (⟨heq, hok⟩ | ⟨hu, hrev⟩ | ⟨hu, hlive, hunexpired, hinactive⟩ |
      ⟨heq, hlive, hexpired⟩)
    · exact Or.inl (Or.inl ⟨heq.symm, hok⟩)
    · exact Or.inl (Or.inr (Or.inl (hu ▸ hrev)))
    · rw [hu]
      exact Or.inl (Or.inr (Or.inr ⟨a.time, hamem, hlive, hunexpired, hinactive⟩))
    · rw [heq, hself heq]
      exact Or.inr ⟨rfl, a.time, hamem, hlive, hexpired⟩

/-- A refresh that returns tokens. -/
def Granted (d : Deployment) (inputs : ℕ → Input) (s : History) (uow : UnitOfWork)
    (raw : String) : Prop :=
  ∃ tokens P time new, (s.call d inputs ⟨.refresh raw, uow⟩).1 = .ok (.tokens tokens) ∧
    TokenStep d.security inputs s (s.step d inputs (.call ⟨.refresh raw, uow⟩))
      ⟨.call ⟨.refresh raw, uow⟩, s.next, s.db, .ok (.tokens tokens)⟩ P time new

/-- A refresh that raises `InvalidRefreshTokenError` and issues no token. -/
def Refused (d : Deployment) (inputs : ℕ → Input) (s : History) (uow : UnitOfWork)
    (raw : String) : Prop :=
  ∃ detail P time, (s.call d inputs ⟨.refresh raw, uow⟩).1 =
      .error ⟨.invalidRefreshTokenError, detail⟩ ∧
    TokenStep d.security inputs s (s.step d inputs (.call ⟨.refresh raw, uow⟩))
      ⟨.call ⟨.refresh raw, uow⟩, s.next, s.db, .error ⟨.invalidRefreshTokenError, detail⟩⟩ P
        time []

theorem Refused.of_call {security : SecurityModules} {kms : LocalKMSProvider} {raw detail : String}
    (hexec : (AuthService.refresh security uow raw).exec vaultEngine inputs ⟨s.next, [], s.db⟩ =
      (.error ⟨.invalidRefreshTokenError, detail⟩, ⟨next, ws, db⟩))
    (hvalid : vaultSchema.Valid db)
    (hrows : db .refreshTokens = (s.db .refreshTokens).map (revokedWhere P time))
    (hrevokes : ∀ r ∈ s.db .refreshTokens, ∀ issue ∈ issuedIn inputs s.trace,
      r.tokenHash = security.hashRefreshToken issue.raw → r.revokedAt = none → (P r = true ↔
        (⟨.call ⟨.refresh raw, uow⟩, s.next, s.db,
          .error ⟨.invalidRefreshTokenError, detail⟩⟩ : Entry).Revokes inputs
            security.refreshTokenLifetime s.trace (Revoked inputs security.refreshTokenLifetime
              s.trace) issue.raw issue.userId)) :
    Refused ⟨security, kms⟩ inputs s uow raw := by
  have hcall : s.call ⟨security, kms⟩ inputs ⟨.refresh raw, uow⟩ =
      (.error ⟨.invalidRefreshTokenError, detail⟩, ⟨next, ws, db⟩) := by
    refine (Prog.exec_map _ _ _ _ _).trans ?_
    rw [hexec]
    rfl
  exact ⟨detail, P, time, by rw [hcall], .of_call hcall hvalid hrows rfl hrevokes⟩

/-- Nobody has returned the token that is presented. -/
theorem Recorded.refresh_unknown (hs : Recorded d.security inputs s) {raw : String}
    (hnone : ∀ t ∈ s.db .refreshTokens, t.tokenHash ≠ d.security.hashRefreshToken raw) :
    ¬ Usable inputs d.security.refreshTokenLifetime s.trace s.db (inputs (s.next + 1)).now raw ∧
      Refused d inputs s uow raw := by
  have hunknown : ∀ issue ∈ issuedIn inputs s.trace, issue.raw ≠ raw := by
    intro issue hissue heq
    obtain ⟨t, ht, htissue⟩ := hs.row hissue
    exact hnone t ht ((congrArg Prod.fst htissue).trans (congrArg _ heq))
  constructor
  · rintro ⟨issue, hissue, heq, -⟩
    exact hunknown issue hissue heq
  · refine Refused.of_call (P := fun _ => false) (exec_refresh_unknown uow inputs hs.valid hnone
      s.next) hs.valid (map_revokedWhere_none _) fun r _ issue hissue _ _ =>
        iff_of_false Bool.false_ne_true ?_
    rintro ((⟨-, hok⟩ | hrev | ⟨time, hmem, -⟩) | ⟨heq, -⟩)
    · cases hok
    · obtain ⟨time, hmem⟩ := hrev.issued
      exact hunknown _ hmem rfl
    · exact hunknown _ hmem rfl
    · exact hunknown issue hissue heq.symm

/-- The token that is presented has this row and was returned so. -/
structure Found (security : SecurityModules) (inputs : ℕ → Input) (s : History) (raw : String)
    (t : RefreshToken) (a : Issue) : Prop where
  recorded : Recorded security inputs s
  row : t ∈ s.db .refreshTokens
  hash : t.tokenHash = security.hashRefreshToken raw
  issued : a ∈ issuedIn inputs s.trace
  raw_eq : a.raw = raw
  fixed : t.fixed = a.fixed security
  presented : ∀ issue ∈ issuedIn inputs s.trace,
    issue.raw = raw ↔ security.hashRefreshToken issue.raw = security.hashRefreshToken raw

namespace Found
variable {raw : String} {t : RefreshToken} {a : Issue}

theorem userId (h : Found d.security inputs s raw t a) : t.userId = a.userId :=
  congrArg (fun c => c.2.1) h.fixed

theorem expiresAt (h : Found d.security inputs s raw t a) :
    t.expiresAt = a.time + d.security.refreshTokenLifetime :=
  congrArg (fun c => c.2.2) h.fixed

theorem revoked_iff (h : Found d.security inputs s raw t a) : t.revokedAt ≠ none ↔
    Revoked inputs d.security.refreshTokenLifetime s.trace raw a.userId := by
  rw [← Option.isSome_iff_ne_none,
    h.recorded.revoked t h.row a h.issued (congrArg Prod.fst h.fixed), h.raw_eq]

theorem usable_iff (h : Found d.security inputs s raw t a) {lifetime : ℕ} {time : Timestamp} :
    Usable inputs lifetime s.trace s.db time raw ↔
      ¬ Revoked inputs lifetime s.trace raw a.userId ∧ time < a.time + lifetime ∧
        Active s.db a.userId := by
  constructor
  · rintro ⟨issue, hissue, hiraw, hu⟩
    rwa [h.recorded.issue_unique hissue h.issued (hiraw.trans h.raw_eq.symm)] at hu
  · exact fun hu => ⟨a, h.issued, h.raw_eq, hu⟩

/-- A row with the digest of the presented token is that of the presented token. -/
theorem tokenHash_iff (h : Found d.security inputs s raw t a) {r : RefreshToken} {issue : Issue}
    (hissue : issue ∈ issuedIn inputs s.trace)
    (hr : r.tokenHash = d.security.hashRefreshToken issue.raw) :
    (r.tokenHash == t.tokenHash) = true ↔ issue.raw = raw := by
  rw [h.presented issue hissue, beq_iff_eq, hr, h.hash]

theorem userId_iff (h : Found d.security inputs s raw t a) {r : RefreshToken} {issue : Issue}
    (hrow : r ∈ s.db .refreshTokens) (hissue : issue ∈ issuedIn inputs s.trace)
    (hr : r.tokenHash = d.security.hashRefreshToken issue.raw) :
    (r.userId == t.userId) = true ↔ issue.userId = a.userId := by
  have hru : r.userId = issue.userId :=
    congrArg (fun c => c.2.1) (h.recorded.fixed_eq hrow hissue hr)
  rw [beq_iff_eq, hru, h.userId]

theorem refresh_reused (h : Found d.security inputs s raw t a) (hrevoked : t.revokedAt ≠ none) :
    ¬ Usable inputs d.security.refreshTokenLifetime s.trace s.db (inputs (s.next + 1)).now raw ∧
      Refused d inputs s uow raw := by
  have hrev := h.revoked_iff.mp hrevoked
  obtain ⟨k', time, hexec, hvalid⟩ :=
    exec_refresh_reused uow inputs h.recorded.valid h.row h.hash hrevoked s.next
  refine ⟨fun hu => (h.usable_iff.mp hu).1 hrev, .of_call hexec hvalid tokensAfter_revoked
    fun r hr issue hissue hrh _ => ?_⟩
  rw [h.recorded.revokes_refresh_iff h.issued h.raw_eq hissue, h.userId_iff hr hissue hrh]
  simp only [Except.isOk, Except.toBool, Bool.false_eq_true]
  tauto

theorem refresh_expired (h : Found d.security inputs s raw t a) (hlive : t.revokedAt = none)
    (hexpired : t.expiresAt ≤ (inputs (s.next + 1)).now) :
    ¬ Usable inputs d.security.refreshTokenLifetime s.trace s.db (inputs (s.next + 1)).now raw ∧
      Refused d inputs s uow raw := by
  have hunrevoked := fun hrev => h.revoked_iff.mpr hrev hlive
  obtain ⟨k', time, hexec, hvalid⟩ :=
    exec_refresh_expired uow inputs h.recorded.valid h.row h.hash hlive s.next hexpired
  rw [h.expiresAt] at hexpired
  have hlate := Nat.not_lt.mpr hexpired
  refine ⟨fun hu => hlate (h.usable_iff.mp hu).2.1, .of_call hexec hvalid tokensAfter_revoked
    fun r hr issue hissue hrh _ => ?_⟩
  rw [h.recorded.revokes_refresh_iff h.issued h.raw_eq hissue, h.tokenHash_iff hissue hrh]
  simp only [Except.isOk, Except.toBool, Bool.false_eq_true]
  tauto

theorem refresh_inactive (h : Found d.security inputs s raw t a) (hlive : t.revokedAt = none)
    (hunexpired : ¬ t.expiresAt ≤ (inputs (s.next + 1)).now) {user : User}
    (huser : user ∈ s.db .users) (hid : user.id = t.userId) (hactive : user.isActive = false) :
    ¬ Usable inputs d.security.refreshTokenLifetime s.trace s.db (inputs (s.next + 1)).now raw ∧
      Refused d inputs s uow raw := by
  have hunrevoked := fun hrev => h.revoked_iff.mpr hrev hlive
  have hinactive : ¬ Active s.db a.userId := by
    rintro ⟨user', huser', hid', hactive'⟩
    rw [h.recorded.valid.eq_of_id (t := .users) huser' huser
      (hid'.trans (h.userId ▸ hid.symm)), hactive] at hactive'
    cases hactive'
  obtain ⟨k', time, hexec, hvalid⟩ := exec_refresh_inactive uow inputs h.recorded.valid h.row h.hash
    hlive s.next hunexpired huser hid hactive
  rw [h.expiresAt] at hunexpired
  have hearly := Nat.not_le.mp hunexpired
  refine ⟨fun hu => hinactive (h.usable_iff.mp hu).2.2, .of_call hexec hvalid tokensAfter_revoked
    fun r hr issue hissue hrh _ => ?_⟩
  rw [h.recorded.revokes_refresh_iff h.issued h.raw_eq hissue, h.userId_iff hr hissue hrh]
  simp only [Except.isOk, Except.toBool, Bool.false_eq_true]
  tauto

theorem refresh_rotates (h : Found d.security inputs s raw t a) {past : List Input}
    (hf : FreshStream vaultEngine inputs past) {presented : Set String}
    (hraw : RawTokens d.security inputs
      (s.step d inputs (.call ⟨.refresh raw, uow⟩)).next presented)
    (hlive : t.revokedAt = none) (hunexpired : ¬ t.expiresAt ≤ (inputs (s.next + 1)).now)
    {user : User} (huser : user ∈ s.db .users) (hid : user.id = t.userId)
    (hactive : user.isActive = true) :
    Usable inputs d.security.refreshTokenLifetime s.trace s.db (inputs (s.next + 1)).now raw ∧
      Granted d inputs s uow raw := by
  have hunrevoked := fun hrev => h.revoked_iff.mpr hrev hlive
  have huserActive : Active s.db a.userId := ⟨user, huser, hid.trans h.userId, hactive⟩
  have hcall : s.call d inputs ⟨.refresh raw, uow⟩ =
      (((AuthService.refresh d.security uow raw).exec vaultEngine inputs
        ⟨s.next, [], s.db⟩).1.map Reply.tokens, ((AuthService.refresh d.security uow raw).exec
          vaultEngine inputs ⟨s.next, [], s.db⟩).2) := Prog.exec_map _ _ _ _ _
  have hnext := congrArg (fun out => out.2.next) hcall
  obtain ⟨accessToken, hexec, hvalid⟩ := exec_refresh_rotates uow inputs h.recorded.valid h.row
    h.hash hlive s.next hunexpired huser hid hactive fun hfar => h.recorded.unused hf (by omega)
      (hraw.mono ((Nat.le_succ _).trans (hfar.trans hnext.ge)) subset_rfl)
  rw [hexec] at hcall
  rw [h.expiresAt] at hunexpired
  have hearly := Nat.not_le.mp hunexpired
  refine ⟨h.usable_iff.mpr ⟨hunrevoked, hearly, huserActive⟩, _, _, _, _, by rw [hcall]; rfl,
    .of_issue hcall hvalid (by omega) (by omega) ?_ fun r hr issue hissue hrh _ => ?_⟩
  · rw [← hid]
    rfl
  · rw [h.recorded.revokes_refresh_iff h.issued h.raw_eq hissue, h.tokenHash_iff hissue hrh]
    simp only [Except.isOk, Except.toBool]
    tauto

end Found

/-- A refresh succeeds when the token is usable, and else it raises. -/
theorem Recorded.refresh (hs : Recorded d.security inputs s) {past : List Input}
    (hf : FreshStream vaultEngine inputs past) {raw : String} {presented : Set String}
    (hraw : RawTokens d.security inputs
      (s.step d inputs (.call ⟨.refresh raw, uow⟩)).next presented) (hp : raw ∈ presented) :
    (Usable inputs d.security.refreshTokenLifetime s.trace s.db (inputs (s.next + 1)).now raw ∧
      Granted d inputs s uow raw) ∨
    (¬ Usable inputs d.security.refreshTokenLifetime s.trace s.db (inputs (s.next + 1)).now raw ∧
      Refused d inputs s uow raw) := by
  by_cases hex : ∃ t ∈ s.db .refreshTokens, t.tokenHash = d.security.hashRefreshToken raw
  · obtain ⟨t, ht, hhash⟩ := hex
    obtain ⟨a, ha, hta⟩ := hs.issue ht
    have hpresented : ∀ issue ∈ issuedIn inputs s.trace, issue.raw = raw ↔
        d.security.hashRefreshToken issue.raw = d.security.hashRefreshToken raw :=
      fun issue hissue => hs.raw_eq_iff hraw (s.next_le_step _) hp hissue
    have haraw : a.raw = raw := (hpresented a ha).mpr ((congrArg Prod.fst hta).symm.trans hhash)
    have hfound : Found d.security inputs s raw t a := ⟨hs, ht, hhash, ha, haraw, hta, hpresented⟩
    by_cases hlive : t.revokedAt = none
    · by_cases hexpired : t.expiresAt ≤ (inputs (s.next + 1)).now
      · exact Or.inr (hfound.refresh_expired hlive hexpired)
      · obtain ⟨user, huser, hid⟩ := parent_exists hs.valid ht (by simp [referencesOf] :
          (.users, some t.userId) ∈ referencesOf .refreshTokens t)
        cases hactive : user.isActive with
        | true => exact Or.inl (hfound.refresh_rotates hf hraw hlive hexpired huser hid hactive)
        | false => exact Or.inr (hfound.refresh_inactive hlive hexpired huser hid hactive)
    · exact Or.inr (hfound.refresh_reused hlive)
  · exact Or.inr (hs.refresh_unknown fun t ht h => hex ⟨t, ht, h⟩)

theorem valid_setActive (hv : vaultSchema.Valid db) (userId : UUID) (active : Bool) :
    vaultSchema.Valid (setActive userId active db) ∧
      setActive userId active db .refreshTokens = db .refreshTokens := by
  rw [setActive]
  cases hfind : (db .users).find? fun user : User => user.id == userId with
  | none => exact ⟨hv, rfl⟩
  | some user =>
    have huser : user ∈ db .users := List.mem_of_find?_eq_some hfind
    refine ⟨hv.update ?_, rfl⟩
    simp only [Schema.admitsUpdate, Bool.and_eq_true]
    constructor
    · refine Schema.uniqueAmong_iff.mpr fun x hx hne u hu => ?_
      obtain rfl : u = fun a b : User => sameEmail a.email b.email := by
        simpa [vaultSchema, uniqueOf] using hu
      exact ⟨hv.unique .users _ hu x hx user huser hne,
        hv.unique .users _ hu user huser x hx (Ne.symm hne)⟩
    · exact vaultSchema_referencesHold.mpr fun p hp => absurd hp List.not_mem_nil

/-- Every event of a run is such a step. -/
theorem Recorded.step (hs : Recorded d.security inputs s) {past : List Input}
    (hf : FreshStream vaultEngine inputs past) {e : SessionEvent} (he : e.Permitted)
    {presented : Set String} (hraw : RawTokens d.security inputs (s.step d inputs e).next presented)
    (hp : ∀ raw ∈ e.presented, raw ∈ presented) :
    ∃ x P time new, TokenStep d.security inputs s (s.step d inputs e) x P time new := by
  cases e with
  | setActive userId active =>
    obtain ⟨hvalid, hrows⟩ := valid_setActive hs.valid userId active
    refine ⟨_, fun _ => false, fun _ => 0, [], rfl, rfl, le_rfl, hvalid, ?_, rfl, ?_, ?_, ?_, ?_⟩
    · rw [List.append_nil, ← map_revokedWhere_none]
      exact hrows
    · exact fun r hr => nomatch hr
    · exact fun r hr => nomatch hr
    · exact fun issue hi => nomatch hi
    · exact fun r _ issue _ _ _ => iff_of_false Bool.false_ne_true (Or.rec id id)
  | call c =>
    obtain ⟨op, uow⟩ := c
    cases op with
    | register email password fullName =>
      obtain ⟨result, k', db', hexec, hvalid, hrows⟩ :=
        exec_register uow inputs hs.valid email password fullName s.next
      have hcall : s.call d inputs ⟨.register email password fullName, uow⟩ =
          (result.map Reply.user, ⟨k', [], db'⟩) := by
        refine (Prog.exec_map _ _ _ _ _).trans ?_
        rw [hexec]
      refine ⟨_, fun _ => false, fun _ => 0, [], .of_call hcall hvalid ?_ ?_
        fun r _ issue _ _ _ => iff_of_false Bool.false_ne_true (Or.rec id id)⟩
      · rw [← map_revokedWhere_none]
        exact hrows
      · cases result <;> rfl
    | login email password =>
      have hcall : s.call d inputs ⟨.login email password, uow⟩ =
          (((AuthService.login d.security uow email password).exec vaultEngine inputs
            ⟨s.next, [], s.db⟩).1.map Reply.tokens, ((AuthService.login d.security uow email
              password).exec vaultEngine inputs ⟨s.next, [], s.db⟩).2) := Prog.exec_map _ _ _ _ _
      have hnext := congrArg (fun out => out.2.next) hcall
      rcases exec_login uow inputs hs.valid email password s.next
        fun hfar => hs.unused hf (by omega) (hraw.mono ((Nat.le_succ _).trans
          (hfar.trans hnext.ge)) subset_rfl) with
        ⟨e, k', hexec⟩ | ⟨user, accessToken, hexec, hvalid⟩
      · rw [hexec] at hcall
        exact ⟨_, fun _ => false, fun _ => 0, [], .of_call hcall hs.valid (map_revokedWhere_none _)
          rfl fun r _ issue _ _ _ => iff_of_false Bool.false_ne_true (Or.rec id id)⟩
      · rw [hexec] at hcall
        exact ⟨_, _, _, _, .of_issue hcall hvalid (by omega) (by omega) rfl
          fun r _ issue _ _ _ => iff_of_false Bool.false_ne_true (Or.rec id id)⟩
    | refresh raw =>
      rcases hs.refresh hf hraw (hp raw rfl) with
        ⟨-, tokens, P, time, new, -, hstep⟩ | ⟨-, detail, P, time, -, hstep⟩
      · exact ⟨_, P, time, new, hstep⟩
      · exact ⟨_, P, time, [], hstep⟩
    | logout raw =>
      obtain ⟨k', time, hexec, hvalid⟩ := exec_logout uow inputs hs.valid s.next
      have hcall : s.call d inputs ⟨.logout raw, uow⟩ = (.ok .unit, ⟨k', [], tokensAfter
          (fun t => t.tokenHash == d.security.hashRefreshToken raw) time [] s.db⟩) := by
        refine (Prog.exec_map _ _ _ _ _).trans ?_
        rw [hexec]
        rfl
      refine ⟨_, _, _, [], .of_call hcall hvalid tokensAfter_revoked rfl
        fun r hr issue hissue hrh _ => ?_⟩
      have hends : issue.raw = raw ↔ raw = issue.raw ∨ False := by tauto
      rw [beq_iff_eq, hrh, ← hs.raw_eq_iff hraw (s.next_le_step _) (hp raw rfl) hissue]
      exact hends
    | logoutAll userId =>
      obtain ⟨k', time, hexec, hvalid⟩ := exec_logoutAll uow inputs hs.valid userId s.next
      have hcall : s.call d inputs ⟨.logoutAll userId, uow⟩ = (.ok .unit, ⟨k', [], tokensAfter
          (fun t => t.userId == userId) time [] s.db⟩) := by
        refine (Prog.exec_map _ _ _ _ _).trans ?_
        rw [hexec]
        rfl
      refine ⟨_, _, _, [], .of_call hcall hvalid tokensAfter_revoked rfl
        fun r hr issue hissue hrh _ => ?_⟩
      have hru : r.userId = issue.userId := congrArg (fun c => c.2.1) (hs.fixed_eq hr hissue hrh)
      have hends : issue.userId = userId ↔ userId = issue.userId ∨ False := by tauto
      rw [beq_iff_eq, hru]
      exact hends
    | _ => cases he

end

end EnvVault
