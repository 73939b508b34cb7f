import EnvVault.RefreshAcceptance

/-!
# Reuse detection

A refresh that presents a revoked token revokes all the tokens of its user, as if the
token had been stolen. A token is revoked when it is rotated, but also when it is logged
out, when all sessions are, and when it is presented after it has expired.
-/
namespace EnvVault
open EnvVault.Relational EnvVault.Transactions

/-- The entry is a refresh that succeeded with this token. -/
def Entry.consumes (x : Entry) (raw : String) : Bool :=
  match x.event with
  | .call ⟨.refresh presented, _⟩ => presented == raw && x.result.isOk
  | _ => false

/-- A successful refresh has consumed the token. -/
def Consumed (trace : List Entry) (raw : String) : Prop :=
  ∃ x ∈ trace, x.consumes raw = true

/-- Between the two states another token than the presented one was revoked. -/
def RevokesOther (security : SecurityModules) (raw : String) (before after : Db) : Prop :=
  ∃ t ∈ before .refreshTokens, t.tokenHash ≠ security.hashRefreshToken raw ∧
    t.revokedAt = none ∧ ∃ t' ∈ after .refreshTokens, t'.id = t.id ∧ t'.revokedAt ≠ none

/-- The user has no other token that is not revoked. -/
def OnlySession (inputs : ℕ → Input) (lifetime : ℕ) (trace : List Entry) (raw : String)
    (userId : UUID) : Prop :=
  ∀ b ∈ issuedIn inputs trace, b.userId = userId → b.raw ≠ raw →
    Revoked inputs lifetime trace b.raw b.userId

/-- If a refresh revokes another token than the one it presents, that one was consumed. -/
def WipesOnReuse (d : Deployment) (inputs : ℕ → Input) (s : History) (uow : UnitOfWork)
    (raw : String) : Prop :=
  RevokesOther d.security raw s.db (s.call d inputs ⟨.refresh raw, uow⟩).2.db →
    Consumed s.trace raw

instance (trace : List Entry) (raw : String) : Decidable (Consumed trace raw) :=
  inferInstanceAs (Decidable (∃ x ∈ trace, x.consumes raw = true))

instance (security : SecurityModules) (raw : String) (before after : Db) :
    Decidable (RevokesOther security raw before after) :=
  inferInstanceAs (Decidable (∃ t ∈ before .refreshTokens, _ ∧ _ ∧ ∃ t' ∈ after .refreshTokens, _))

instance (d : Deployment) (inputs : ℕ → Input) (s : History) (uow : UnitOfWork) (raw : String) :
    Decidable (WipesOnReuse d inputs s uow raw) :=
  inferInstanceAs (Decidable (_ → _))

instance (db : Db) (userId : UUID) : Decidable (Active db userId) :=
  inferInstanceAs (Decidable (∃ user ∈ db .users, user.id = userId ∧ user.isActive = true))

section
variable {d : Deployment} {inputs : ℕ → Input} {s : History} {uow : UnitOfWork} {raw : String}

/-- A refresh revokes the rows that its entry says. -/
theorem Recorded.refresh_step (hs : Recorded d.security inputs s) {past : List Input}
    (hf : FreshStream vaultEngine inputs past) {presented : Set String}
    (hraw : RawTokens d.security inputs
      (s.step d inputs (.call ⟨.refresh raw, uow⟩)).next presented) (hp : raw ∈ presented) :
    ∃ result P time new, TokenStep d.security inputs s
      (s.step d inputs (.call ⟨.refresh raw, uow⟩))
        ⟨.call ⟨.refresh raw, uow⟩, s.next, s.db, result⟩ P time new := by
  rcases hs.refresh hf hraw hp with
    ⟨-, tokens, P, time, new, -, hstep⟩ | ⟨-, detail, P, time, -, hstep⟩
  · exact ⟨_, P, time, new, hstep⟩
  · exact ⟨_, P, time, [], hstep⟩

/-- What a refresh revokes beside the token it presents, while the user is active, are the
other tokens of the user of a revoked token. -/
theorem Recorded.revokesOther_iff (hs : Recorded d.security inputs s) {past : List Input}
    (hf : FreshStream vaultEngine inputs past) {presented : Set String}
    (hraw : RawTokens d.security inputs
      (s.step d inputs (.call ⟨.refresh raw, uow⟩)).next presented) (hp : raw ∈ presented)
    (hactive : ∀ a ∈ issuedIn inputs s.trace, a.raw = raw → Active s.db a.userId) :
    RevokesOther d.security raw s.db (s.call d inputs ⟨.refresh raw, uow⟩).2.db ↔
      ∃ a ∈ issuedIn inputs s.trace, a.raw = raw ∧
        Revoked inputs d.security.refreshTokenLifetime s.trace raw a.userId ∧
        ¬ OnlySession inputs d.security.refreshTokenLifetime s.trace raw a.userId := by
  obtain ⟨result, P, time, new, hstep⟩ := hs.refresh_step hf hraw hp
  have hrows : (s.call d inputs ⟨.refresh raw, uow⟩).2.db .refreshTokens =
      (s.db .refreshTokens).map (revokedWhere P time) ++ new := hstep.rows
  constructor
  · rintro ⟨t, ht, hhash, hlive, t', ht', hid, hrevoked⟩
    obtain ⟨b, hb, htb⟩ := hs.issue ht
    have hbhash : t.tokenHash = d.security.hashRefreshToken b.raw := congrArg Prod.fst htb
    have hbraw : b.raw ≠ raw := fun he => hhash (he ▸ hbhash)
    have hbuser : t.userId = b.userId := congrArg (fun c => c.2.1) htb
    have hblive : ¬ Revoked inputs d.security.refreshTokenLifetime s.trace b.raw b.userId := by
      rw [← hs.revoked t ht b hb hbhash, hlive]
      exact Bool.false_ne_true
    -- The row that was revoked is an old one, so its condition holds.
    have hP : P t = true := by
      rw [hrows] at ht'
      rcases List.mem_append.mp ht' with ht' | ht'
      · obtain ⟨t₀, ht₀, rfl⟩ := List.mem_map.mp ht'
        obtain rfl : t₀ = t := hs.valid.eq_of_id (t := .refreshTokens) ht₀ ht
          ((revokedWhere_id t₀).symm.trans hid)
        have hsome := (revokedWhere_isSome t₀).mp (Option.isSome_iff_ne_none.mpr hrevoked)
        simpa [hlive] using hsome
      · exact absurd (hstep.live t' ht') hrevoked
    rcases (hstep.revokes t ht b hb hbhash hlive).mp hP with
      (⟨heq, -⟩ | hrev | ⟨time, hmem, -, -, hinactive⟩) | ⟨heq, -⟩
    · exact absurd heq.symm hbraw
    · obtain ⟨time, hmem⟩ := hrev.issued
      exact ⟨_, hmem, rfl, hrev, fun honly => hblive (honly b hb rfl hbraw)⟩
    · exact absurd (hactive _ hmem rfl) hinactive
    · exact absurd heq.symm hbraw
  · rintro ⟨a, ha, haraw, hrev, honly⟩
    obtain ⟨b, hb, hbuser, hbraw, hblive⟩ : ∃ b ∈ issuedIn inputs s.trace, b.userId = a.userId ∧
        b.raw ≠ raw ∧ ¬ Revoked inputs d.security.refreshTokenLifetime s.trace b.raw b.userId := by
      by_contra hnone
      refine honly fun b hb hbuser hbraw => ?_
      by_contra hblive
      exact hnone ⟨b, hb, hbuser, hbraw, hblive⟩
    obtain ⟨t, ht, htb⟩ := hs.row hb
    have hbhash : t.tokenHash = d.security.hashRefreshToken b.raw := congrArg Prod.fst htb
    have hlive : t.revokedAt = none := by
      have := (hs.revoked t ht b hb hbhash).not.mpr hblive
      simpa using this
    have hP : P t = true := (hstep.revokes t ht b hb hbhash hlive).mpr
      (Or.inl (Or.inr (Or.inl (hbuser ▸ hrev))))
    refine ⟨t, ht, fun hhash => hbraw ?_, hlive, revokedWhere P time t, ?_, revokedWhere_id t, ?_⟩
    · exact (hs.raw_eq_iff hraw (s.next_le_step _) hp hb).mpr (hbhash.symm.trans hhash)
    · rw [hrows]
      exact List.mem_append_left _ (List.mem_map_of_mem ht)
    · exact Option.isSome_iff_ne_none.mp ((revokedWhere_isSome t).mpr (Or.inr hP))

end

/-- A refresh in a serial run, whose user is active, revokes other tokens than the one it
presents only if a successful refresh has consumed that one, if and only if it has, or the
trace has not revoked it, or the user has no other unrevoked token. -/
theorem reuse_detection_iff (d : Deployment) (inputs : ℕ → Input) (past : List Input)
    (hf : FreshStream vaultEngine inputs past) (db : Db) (hv : vaultSchema.Valid db)
    (hempty : db .refreshTokens = []) (events : List SessionEvent)
    (hevents : ∀ e ∈ events, e.Permitted) (uow : UnitOfWork) (raw : String)
    (hraw : RawTokens d.security inputs
      (History.run d inputs db (events ++ [.call ⟨.refresh raw, uow⟩])).next
        (presentedBy (events ++ [.call ⟨.refresh raw, uow⟩])))
    (hactive : ∀ a ∈ issuedIn inputs (History.run d inputs db events).trace, a.raw = raw →
      Active (History.run d inputs db events).db a.userId) :
    WipesOnReuse d inputs (History.run d inputs db events) uow raw ↔
    Consumed (History.run d inputs db events).trace raw ∨
      ∀ a ∈ issuedIn inputs (History.run d inputs db events).trace, a.raw = raw →
        Revoked inputs d.security.refreshTokenLifetime (History.run d inputs db events).trace raw
          a.userId →
        OnlySession inputs d.security.refreshTokenLifetime (History.run d inputs db events).trace
          raw a.userId := by
  have hs := recorded_run hf hv hempty hevents hraw.before
  have hpresented : raw ∈ presentedBy (events ++ [.call ⟨.refresh raw, uow⟩]) :=
    ⟨.call ⟨.refresh raw, uow⟩, by simp, rfl⟩
  rw [History.run_snoc] at hraw
  rw [WipesOnReuse, hs.revokesOther_iff hf hraw hpresented hactive]
  constructor
  · intro h
    by_cases hconsumed : Consumed (History.run d inputs db events).trace raw
    · exact Or.inl hconsumed
    · refine Or.inr fun a ha haraw hrev => ?_
      by_contra honly
      exact hconsumed (h ⟨a, ha, haraw, hrev, honly⟩)
  · rintro (hconsumed | h) ⟨a, ha, haraw, hrev, honly⟩
    · exact hconsumed
    · exact absurd (h a ha haraw hrev) honly

/-- The unit of work of a request without a user. -/
def anonymousUow : UnitOfWork := ⟨none, none, .envvaultApp, .superuser⟩

/-- Two sessions of one user. -/
def twoLogins : List SessionEvent :=
  [.call ⟨.login "ana@example.com" "h", anonymousUow⟩,
    .call ⟨.login "ana@example.com" "h", anonymousUow⟩]

/-- The inputs of the sample, with a clock that jumps after the first login. -/
def lateInput (k : ℕ) : Input := { sampleInput (1 + k) with now := if k < 6 then 0 else 1000 }

/-- A refresh with a token that was only logged out, and the second one with a token that
has expired, revoke the other session of the user. -/
theorem logged_out_token_wipes :
    ¬ WipesOnReuse sampleDeployment (fun k => sampleInput (1 + k))
      (History.run sampleDeployment (fun k => sampleInput (1 + k)) passwordDb
        (twoLogins ++ [.call ⟨.logout "aa", anonymousUow⟩])) anonymousUow "aa" ∧
    ¬ WipesOnReuse sampleDeployment lateInput
      (History.run sampleDeployment lateInput passwordDb
        (twoLogins ++ [.call ⟨.refresh "aa", anonymousUow⟩])) anonymousUow "aa" := by
  decide +kernel

/-- The token that was logged out, presented when there is no other session. -/
theorem reuse_detection_iff_login :
    WipesOnReuse sampleDeployment (fun k => sampleInput (1 + k))
      (History.run sampleDeployment (fun k => sampleInput (1 + k)) passwordDb
        [.call ⟨.login "ana@example.com" "h", anonymousUow⟩, .call ⟨.logout "aa", anonymousUow⟩])
      anonymousUow "aa" := by
  refine (reuse_detection_iff sampleDeployment (fun k => sampleInput (1 + k)) []
    (freshStream_sample (by decide)) passwordDb
    (.of_checks mem_allTables (by decide) (by decide +kernel)) rfl _ ?_ _ _
    (rawTokens_sample 1 _ _) (by decide +kernel)).mpr (Or.inr ?_)
  · simp [SessionEvent.Permitted, Op.authenticates]
  · intro a _ _ _ b hb _ hbraw
    have hone : ∀ b ∈ issuedIn (fun k => sampleInput (1 + k)) (History.run sampleDeployment
        (fun k => sampleInput (1 + k)) passwordDb
          [.call ⟨.login "ana@example.com" "h", anonymousUow⟩,
            .call ⟨.logout "aa", anonymousUow⟩]).trace, b.raw = "aa" := by
      decide +kernel
    exact absurd (hone b hb) hbraw

end EnvVault
