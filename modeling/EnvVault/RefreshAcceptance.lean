import EnvVault.SessionHistory

/-!
# Which refresh is accepted

From a database without refresh tokens, over any serial run, a refresh succeeds exactly
when the trace says so; otherwise it raises `InvalidRefreshTokenError` and issues nothing.
-/
namespace EnvVault
open EnvVault.Relational EnvVault.Transactions

/-- The tokens that the events present. -/
def presentedBy (events : List SessionEvent) : Set String :=
  {raw | ∃ e ∈ events, e.presented = some raw}

section
variable {d : Deployment} {inputs : ℕ → Input} {s : History} {db : Db}
  {events : List SessionEvent} {past : List Input}

theorem History.run_snoc (events : List SessionEvent) (e : SessionEvent) :
    run d inputs db (events ++ [e]) = (run d inputs db events).step d inputs e := by
  simp [run]

theorem presentedBy_mono {events events' : List SessionEvent} (h : events ⊆ events') :
    presentedBy events ⊆ presentedBy events' :=
  fun _ ⟨e, he, hraw⟩ => ⟨e, h he, hraw⟩

/-- What is to be known of the raw tokens after a run was known before its last event. -/
theorem RawTokens.before {e : SessionEvent}
    (h : RawTokens d.security inputs (History.run d inputs db (events ++ [e])).next
      (presentedBy (events ++ [e]))) :
    RawTokens d.security inputs (History.run d inputs db events).next (presentedBy events) := by
  refine h.mono ?_ (presentedBy_mono (List.subset_append_left _ _))
  rw [History.run_snoc]
  exact History.next_le_step _ _

theorem History.run_next_le (events later : List SessionEvent) :
    (run d inputs db events).next ≤ (run d inputs db (events ++ later)).next := by
  induction later using List.reverseRecOn with
  | nil => rw [List.append_nil]
  | append_singleton later e ih =>
    rw [← List.append_assoc, run_snoc]
    exact ih.trans (next_le_step _ _)

/-- From a database without refresh tokens the rows hold what the trace says. -/
theorem recorded_run (hf : FreshStream vaultEngine inputs past) (hv : vaultSchema.Valid db)
    (hempty : db .refreshTokens = []) (hevents : ∀ e ∈ events, e.Permitted)
    (hraw : RawTokens d.security inputs (History.run d inputs db events).next
      (presentedBy events)) :
    Recorded d.security inputs (History.run d inputs db events) := by
  induction events using List.reverseRecOn with
  | nil =>
    have hnone : ∀ t : RefreshToken, t ∉ db .refreshTokens := by
      intro t ht
      rw [hempty] at ht
      cases ht
    exact ⟨hv, by rw [History.run]; exact congrArg (List.map RefreshToken.fixed) hempty,
      fun t ht => (hnone t ht).elim, fun issue hi => (List.not_mem_nil hi).elim,
      fun t ht => (hnone t ht).elim, fun x hx => (List.not_mem_nil hx).elim⟩
  | append_singleton events e ih =>
    have hs := ih (fun e he => hevents e (List.mem_append_left _ he)) hraw.before
    rw [History.run_snoc] at hraw ⊢
    obtain ⟨x, P, time, new, hstep⟩ := hs.step hf (hevents e (by simp)) hraw
      fun raw he => ⟨e, by simp, he⟩
    exact hstep.recorded hs hraw

/-- A row that is revoked stays as it is over a run. -/
theorem settled_run (hf : FreshStream vaultEngine inputs past) (hv : vaultSchema.Valid db)
    (hempty : db .refreshTokens = []) {later : List SessionEvent}
    (hevents : ∀ e ∈ events ++ later, e.Permitted)
    (hraw : RawTokens d.security inputs (History.run d inputs db (events ++ later)).next
      (presentedBy (events ++ later))) {t : RefreshToken}
    (ht : t ∈ (History.run d inputs db events).db .refreshTokens) (hrevoked : t.revokedAt ≠ none) :
    t ∈ (History.run d inputs db (events ++ later)).db .refreshTokens := by
  induction later using List.reverseRecOn with
  | nil =>
    rw [List.append_nil]
    exact ht
  | append_singleton later e ih =>
    rw [← List.append_assoc] at hevents hraw ⊢
    have hbefore := fun e he => hevents e (List.mem_append_left _ he)
    have hs := recorded_run hf hv hempty hbefore hraw.before
    have hmem := ih hbefore hraw.before
    rw [History.run_snoc] at hraw ⊢
    obtain ⟨x, P, time, new, hstep⟩ := hs.step hf (hevents e (by simp)) hraw
      fun raw he => ⟨e, by simp, he⟩
    exact hstep.settled hmem hrevoked

theorem Entry.Expires.expired {x : Entry} {earlier : List Entry} {lifetime : ℕ}
    {revoked : String → UUID → Prop} {raw : String} {userId : UUID}
    (h : x.Expires inputs lifetime earlier revoked raw userId) :
    ∃ time, ⟨raw, userId, time⟩ ∈ issuedIn inputs earlier ∧ time + lifetime ≤ x.time inputs := by
  rw [Entry.Expires] at h
  split at h
  · obtain ⟨-, time, hmem, -, hle⟩ := h
    exact ⟨time, hmem, hle⟩
  · exact h.elim

theorem mem_issuedIn {trace : List Entry} {issue : Issue} : issue ∈ issuedIn inputs trace ↔
    ∃ later x earlier, trace = later ++ x :: earlier ∧ issue ∈ x.issued inputs := by
  constructor
  · intro h
    induction trace with
    | nil => cases h
    | cons y trace ih =>
      rcases List.mem_append.mp h with h | h
      · obtain ⟨later, x, earlier, rfl, hx⟩ := ih h
        exact ⟨y :: later, x, earlier, rfl, hx⟩
      · exact ⟨[], y, trace, rfl, h⟩
  · rintro ⟨later, x, earlier, rfl, hx⟩
    rw [issuedIn_append, issuedIn]
    exact List.mem_append_left _ (List.mem_append_right _ hx)

/-- The trace accepts a token exactly when it has not revoked it: once a token has
expired the clock, which does not go back, keeps it expired. -/
theorem Recorded.accepts_iff {security : SecurityModules} (hs : Recorded security inputs s)
    (hclock : Monotone fun k => (inputs k).now) (raw : String) (lifetime : ℕ) :
    Accepts inputs lifetime s.trace s.db (inputs (s.next + 1)).now raw ↔
      Usable inputs lifetime s.trace s.db (inputs (s.next + 1)).now raw := by
  have hnew : ∀ later x earlier issue, s.trace = later ++ x :: earlier →
      issue ∈ x.issued inputs → ∀ other ∈ issuedIn inputs earlier, other.raw ≠ issue.raw := by
    intro later x earlier issue htrace hissue other hother heq
    have hnodup := hs.nodup
    rw [htrace, issuedIn_append, issuedIn, List.map_append, List.map_append] at hnodup
    have hdisjoint := List.disjoint_of_nodup_append (List.nodup_append.mp hnodup).1
    exact hdisjoint (List.mem_map_of_mem hother) (List.mem_map.mpr ⟨issue, hissue, heq.symm⟩)
  constructor
  · rintro ⟨later, x, earlier, issue, htrace, hissue, rfl, hearly, hends, hactive⟩
    have hmem : issue ∈ issuedIn inputs s.trace := mem_issuedIn.mpr ⟨_, _, _, htrace, hissue⟩
    refine ⟨issue, hmem, rfl, fun hrevoked => ?_, hearly, hactive⟩
    rw [htrace, revoked_iff_since hissue (hnew _ _ _ _ htrace hissue)] at hrevoked
    obtain ⟨last, y, between, hlater, hy | hy⟩ := hrevoked
    · exact hends last y between hlater hy
    · obtain ⟨time, htime, hle⟩ := hy.expired
      have hy : y ∈ s.trace := by
        rw [htrace, hlater]
        simp
      have htime' : ⟨issue.raw, issue.userId, time⟩ ∈ issuedIn inputs s.trace := by
        rw [htrace, hlater, List.append_assoc, issuedIn_append, List.cons_append, issuedIn]
        exact List.mem_append_left _ (List.mem_append_left _ htime)
      have hsame : time = issue.time := congrArg Issue.time (hs.issue_unique htime' hmem rfl)
      have hnow : y.time inputs ≤ (inputs (s.next + 1)).now :=
        hclock (Nat.succ_le_succ (hs.starts y hy))
      exact absurd (hle.trans hnow) (Nat.not_le.mpr (hsame ▸ hearly))
  · rintro ⟨issue, hmem, rfl, hlive, hearly, hactive⟩
    obtain ⟨later, x, earlier, htrace, hissue⟩ := mem_issuedIn.mp hmem
    refine ⟨later, x, earlier, issue, htrace, hissue, rfl, hearly, fun last y between hlater hy =>
      hlive ?_, hactive⟩
    rw [htrace, revoked_iff_since hissue (hnew _ _ _ _ htrace hissue)]
    exact ⟨last, y, between, hlater, Or.inl hy⟩

end

/-- What holds of a refresh that ends a serial run of these events. -/
structure RefreshLaw (d : Deployment) (inputs : ℕ → Input) (db : Db) (events : List SessionEvent)
    (uow : UnitOfWork) (raw : String) : Prop where
  accepted : (∃ reply, ((History.run d inputs db events).call d inputs ⟨.refresh raw, uow⟩).1 =
      .ok reply) ↔
    Accepts inputs d.security.refreshTokenLifetime (History.run d inputs db events).trace
      (History.run d inputs db events).db
        (inputs ((History.run d inputs db events).next + 1)).now raw
  refused : ¬ Accepts inputs d.security.refreshTokenLifetime
      (History.run d inputs db events).trace (History.run d inputs db events).db
        (inputs ((History.run d inputs db events).next + 1)).now raw →
    ∃ detail, ((History.run d inputs db events).call d inputs ⟨.refresh raw, uow⟩).1 =
        .error ⟨.invalidRefreshTokenError, detail⟩ ∧
      ∀ t ∈ ((History.run d inputs db events).call d inputs
          ⟨.refresh raw, uow⟩).2.db .refreshTokens,
        ∃ t₀ ∈ (History.run d inputs db events).db .refreshTokens, t₀.id = t.id
  settled : ∀ earlier middle later,
    events ++ [.call ⟨.refresh raw, uow⟩] = earlier ++ middle ++ later →
      ∀ t ∈ (History.run d inputs db earlier).db .refreshTokens, t.revokedAt ≠ none →
        t ∈ (History.run d inputs db (earlier ++ middle)).db .refreshTokens

/-- A refresh succeeds if and only if its token was returned for a user less than the
lifetime before, nothing since then has taken it from the user, and the user is active;
otherwise it raises `InvalidRefreshTokenError` and issues no token. The time at which a
token was first revoked never changes. -/
theorem refresh_accepts_iff (d : Deployment) (inputs : ℕ → Input) (past : List Input)
    (hf : FreshStream vaultEngine inputs past) (hclock : Monotone fun k => (inputs k).now) (db : Db)
    (hv : vaultSchema.Valid db) (hempty : db .refreshTokens = []) (events : List SessionEvent)
    (hevents : ∀ e ∈ events, e.Permitted) (uow : UnitOfWork) (raw : String)
    (hraw : RawTokens d.security inputs
      (History.run d inputs db (events ++ [.call ⟨.refresh raw, uow⟩])).next
        (presentedBy (events ++ [.call ⟨.refresh raw, uow⟩]))) :
    RefreshLaw d inputs db events uow raw := by
  have hpermitted : ∀ e ∈ events ++ [.call ⟨.refresh raw, uow⟩], e.Permitted := by
    intro e he
    rcases List.mem_append.mp he with he | he
    · exact hevents e he
    · rw [List.mem_singleton.mp he]
      exact rfl
  have hs := recorded_run hf hv hempty hevents hraw.before
  have hpresented : raw ∈ presentedBy (events ++ [.call ⟨.refresh raw, uow⟩]) :=
    ⟨.call ⟨.refresh raw, uow⟩, by simp, rfl⟩
  have hrefresh := hs.refresh hf (by rw [← History.run_snoc]; exact hraw) hpresented
  have haccepts := hs.accepts_iff hclock raw d.security.refreshTokenLifetime
  refine ⟨?_, fun hrefused => ?_, fun earlier middle later hsplit t ht hrevoked => ?_⟩
  · rw [haccepts]
    rcases hrefresh with ⟨husable, tokens, -, -, -, hcall, -⟩ | ⟨hunusable, detail, -, -, hcall, -⟩
    · exact iff_of_true ⟨_, hcall⟩ husable
    · refine iff_of_false ?_ hunusable
      rintro ⟨reply, hok⟩
      rw [hcall] at hok
      cases hok
  · rw [haccepts] at hrefused
    rcases hrefresh with ⟨husable, -⟩ | ⟨-, detail, P, time, hcall, hstep⟩
    · exact absurd husable hrefused
    · refine ⟨detail, hcall, fun t ht => ?_⟩
      have hrows := hstep.rows
      rw [List.append_nil] at hrows
      have ht' : t ∈ ((History.run d inputs db events).db .refreshTokens).map
          (revokedWhere P time) := hrows ▸ ht
      obtain ⟨t₀, ht₀, rfl⟩ := List.mem_map.mp ht'
      exact ⟨t₀, ht₀, (revokedWhere_id t₀).symm⟩
  · rw [hsplit] at hpermitted hraw
    refine settled_run hf hv hempty (fun e he => hpermitted e (List.mem_append_left _ he))
      (hraw.mono ?_ (presentedBy_mono (List.subset_append_left _ _))) ht hrevoked
    exact History.run_next_le _ _

/-- User 1, with a password and no refresh token. -/
def passwordDb : Db
  | .users => [⟨1, "ana@example.com", some "h", none, true⟩]
  | _ => []

/-- The sample raw tokens are pairwise distinct, and the sample digest is the token itself. -/
theorem rawTokens_sample (m next : ℕ) (presented : Set String) :
    RawTokens sampleDeployment.security (fun k => sampleInput (m + k)) next presented := by
  refine ⟨fun i _ j _ h => ?_, fun a _ b _ h => h⟩
  have hlists : List.replicate (m + i) 'a' = List.replicate (m + j) 'a' :=
    String.ofList_injective h
  have hlength : m + i = m + j := by simpa using congrArg List.length hlists
  omega

/-- The token of a login is presented once. -/
theorem refresh_accepts_iff_login :
    RefreshLaw sampleDeployment (fun k => sampleInput (1 + k)) passwordDb
      [.call ⟨.login "ana@example.com" "h", ⟨none, none, .envvaultApp, .superuser⟩⟩]
      ⟨none, none, .envvaultApp, .superuser⟩ "aa" ∧
    ((History.run sampleDeployment (fun k => sampleInput (1 + k)) passwordDb
      [.call ⟨.login "ana@example.com" "h", ⟨none, none, .envvaultApp, .superuser⟩⟩]).call
        sampleDeployment (fun k => sampleInput (1 + k))
          ⟨.refresh "aa", ⟨none, none, .envvaultApp, .superuser⟩⟩).1.isOk = true := by
  have hclock : Monotone fun k => (sampleInput (1 + k)).now := fun i j h => Nat.add_le_add_left h 1
  refine ⟨refresh_accepts_iff sampleDeployment (fun k => sampleInput (1 + k)) []
    (freshStream_sample (by decide)) hclock passwordDb
    (.of_checks mem_allTables (by decide) (by decide +kernel)) rfl _ ?_ _ _
    (rawTokens_sample 1 _ _), by decide +kernel⟩
  simp [SessionEvent.Permitted, Op.authenticates]

end EnvVault
