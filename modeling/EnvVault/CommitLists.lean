import EnvVault.AttributedWrites
import EnvVault.StagedRuns

/-!
# What is pending at a COMMIT

Where a program commits, the writes of its transaction are a list of a known form. Then
every entry of the log of a run has the form of its caller. And what is to be kept of the
store along a run has to be kept by the commits on the way only.
-/
namespace EnvVault.Transactions

variable {n : ℕ} {ι σ ω ε α β : Type} {J : List ω → Prop}

namespace Prog

/-- With these writes pending, the program commits only lists that satisfy `J`. -/
def CommitsOnly (J : List ω → Prop) : List ω → Prog ι σ ω ε α → Prop
  | _, .ret _ => True
  | _, .raise _ => True
  | ws, .stmt writes next failed =>
      (∀ inp v, (next inp v).CommitsOnly J (ws ++ writes inp v)) ∧
        ∀ e, (failed e).CommitsOnly J []
  | ws, .commit next failed => J ws ∧ next.CommitsOnly J [] ∧ ∀ e, (failed e).CommitsOnly J []
  | _, .rollback next => next.CommitsOnly J []

variable {ws : List ω} {p : Prog ι σ ω ε α}

theorem CommitsOnly.bind (hp : p.CommitsOnly J ws) {f : α → Prog ι σ ω ε β}
    (hf : ∀ a vs, (f a).CommitsOnly J vs) : (p.bind f).CommitsOnly J ws := by
  induction p generalizing ws with
  | ret a => exact hf a ws
  | raise e => trivial
  | stmt writes next failed ihn ihf =>
    exact ⟨fun inp v => ihn inp v (hp.1 inp v), fun e => ihf e (hp.2 e)⟩
  | commit next failed ihn ihf => exact ⟨hp.1, ihn hp.2.1, fun e => ihf e (hp.2.2 e)⟩
  | rollback next ih => exact ih hp

theorem CommitsOnly.mono {J' : List ω → Prop} (hp : p.CommitsOnly J ws)
    (h : ∀ vs, J vs → J' vs) : p.CommitsOnly J' ws := by
  induction p generalizing ws with
  | ret a => trivial
  | raise e => trivial
  | stmt writes next failed ihn ihf =>
    exact ⟨fun inp v => ihn inp v (hp.1 inp v), fun e => ihf e (hp.2 e)⟩
  | commit next failed ihn ihf =>
    exact ⟨h ws hp.1, ihn hp.2.1, fun e => ihf e (hp.2.2 e)⟩
  | rollback next ih => exact ih hp

theorem commitsOnly_of_forall (h : ∀ vs, J vs) : p.CommitsOnly J ws := by
  induction p generalizing ws with
  | ret a => trivial
  | raise e => trivial
  | stmt writes next failed ihn ihf => exact ⟨fun inp v => ihn inp v, fun e => ihf e⟩
  | commit next failed ihn ihf => exact ⟨h ws, ihn, fun e => ihf e⟩
  | rollback next ih => exact ih

/-- A handler sees what was pending when the exception was raised. -/
theorem CommitsOnly.handle (hp : p.CommitsOnly J ws) {h : ε → Prog ι σ ω ε α}
    (hh : ∀ e vs, (h e).CommitsOnly J vs) : (p.handle h).CommitsOnly J ws := by
  induction p generalizing ws with
  | ret a => trivial
  | raise e => exact hh e ws
  | stmt writes next failed ihn ihf =>
    exact ⟨fun inp v => ihn inp v (hp.1 inp v), fun e => ihf e (hp.2 e)⟩
  | commit next failed ihn ihf => exact ⟨hp.1, ihn hp.2.1, fun e => ihf e (hp.2.2 e)⟩
  | rollback next ih => exact ih hp

theorem Reads.bind_commitsOnly {P : α → Prop} (hp : p.Reads P) {f : α → Prog ι σ ω ε β}
    (hf : ∀ a, P a → (f a).CommitsOnly J ws) : (p.bind f).CommitsOnly J ws := by
  induction p with
  | ret a => exact hf a hp
  | raise e => trivial
  | stmt writes next failed ihn ihf =>
    refine ⟨fun inp v => ?_, fun e => ?_⟩
    · rw [hp.1 inp v, List.append_nil]
      exact ihn inp v (hp.2.1 inp v)
    · obtain ⟨e', he⟩ := hp.2.2 e
      show ((failed e).bind f).CommitsOnly J []
      rw [he]
      trivial
  | commit next failed ihn ihf => exact hp.elim
  | rollback next ih => exact hp.elim

theorem Reads.commitsOnly {P : α → Prop} (hp : p.Reads P) : p.CommitsOnly J ws := by
  have h : (p.bind ret).CommitsOnly J ws := hp.bind_commitsOnly fun _ _ => trivial
  rwa [bind_ret] at h

/-- A statement that fails commits nothing. -/
theorem commitsOnly_statement_bind {f : ι → σ → Except ε (List ω × α)} {k : α → Prog ι σ ω ε β}
    (h : ∀ inp v vs a, f inp v = .ok (vs, a) → (k a).CommitsOnly J (ws ++ vs)) :
    ((statement f).bind k).CommitsOnly J ws := by
  refine ⟨fun inp v => ?_, fun _ => trivial⟩
  dsimp only
  cases hf : f inp v with
  | ok r => exact h inp v r.1 r.2 hf
  | error e => trivial

theorem commitsOnly_commitNow_bind {k : Unit → Prog ι σ ω ε β} (hws : J ws)
    (hk : (k ()).CommitsOnly J []) : (commitNow.bind k).CommitsOnly J ws :=
  ⟨hws, hk, fun _ => trivial⟩

/-- Where every write of a program satisfies `P`, it commits such writes only. -/
theorem Comprises.commitsOnly {P : ω → Prop}
    (hp : p.Comprises fun writes => ∀ inp v, ∀ w ∈ writes inp v, P w) (hws : ∀ w ∈ ws, P w) :
    p.CommitsOnly (fun ws => ∀ w ∈ ws, P w) ws := by
  induction p generalizing ws with
  | ret a => trivial
  | raise e => trivial
  | stmt writes next failed ihn ihf =>
    refine ⟨fun inp v => ihn inp v (hp.2.1 inp v) fun w hw => ?_,
      fun e => ihf e (hp.2.2 e) fun w hw => absurd hw List.not_mem_nil⟩
    rcases List.mem_append.mp hw with hw | hw
    · exact hws w hw
    · exact hp.1 inp v w hw
  | commit next failed ihn ihf =>
    exact ⟨hws, ihn hp.1 fun w hw => absurd hw List.not_mem_nil,
      fun e => ihf e (hp.2 e) fun w hw => absurd hw List.not_mem_nil⟩
  | rollback next ih => exact ih hp fun w hw => absurd hw List.not_mem_nil

end Prog

/-- Every commit of the log has the form of its caller, and so will the next ones. -/
structure Sys.CommitsOnly (J : Fin n → List ω → Prop) (s : Sys n ι σ ω ε α) : Prop where
  log : ∀ e ∈ s.world.log, J e.1 e.2
  progs : ∀ i, (s.call i).prog.CommitsOnly (J i) (s.call i).pending

namespace Sys.CommitsOnly
variable {E : Engine ι σ ω} {J : Fin n → List ω → Prop} {s t : Sys n ι σ ω ε α}

theorem initial {W : World n ι σ ω} {progs : Fin n → Prog ι σ ω ε α} (hlog : W.log = [])
    (hprogs : ∀ i, (progs i).CommitsOnly (J i) []) : (Sys.initial W progs).CommitsOnly J where
  log e he := by
    rw [Sys.initial, hlog] at he
    exact absurd he List.not_mem_nil
  progs := hprogs

theorem update {W : World n ι σ ω} {i : Fin n} {c : Call ι σ ω ε α} (h : s.CommitsOnly J)
    (hlog : ∀ e ∈ W.log, J e.1 e.2) (hprog : c.prog.CommitsOnly (J i) c.pending) :
    (({ s with world := W } : Sys n ι σ ω ε α).setCall i c).CommitsOnly J where
  log := hlog
  progs := Sys.forall_setCall (P := fun j c => c.prog.CommitsOnly (J j) c.pending) hprog
    fun j _ => h.progs j

theorem step (h : s.CommitsOnly J) {a : Action n ι ε} (hs : s.step E a = some t) :
    t.CommitsOnly J := by
  cases Sys.step_cases hs with
  | closed i inp hp ht =>
    rw [ht]
    refine h.update (W := s.world) h.log ?_
    show (s.call i).prog.CommitsOnly (J i) []
    rcases hp with ⟨a, hp⟩ | ⟨e, hp⟩ <;> rw [hp] <;> trivial
  | stmt i inp writes next failed hp fresh free ht =>
    have hprog := h.progs i
    rw [hp] at hprog
    rw [ht]
    exact h.update h.log (hprog.1 inp _)
  | commit i inp next failed hp ht =>
    have hprog := h.progs i
    rw [hp] at hprog
    rw [ht]
    refine h.update (fun e he => ?_) hprog.2.1
    rcases List.mem_append.mp he with he | he
    · exact h.log e he
    · obtain rfl := List.mem_singleton.mp he
      exact hprog.1
  | rollback i inp next hp ht =>
    have hprog := h.progs i
    rw [hp] at hprog
    rw [ht]
    exact h.update (W := s.world) h.log hprog
  | failed i e failed hp ht =>
    have hprog := h.progs i
    rw [ht]
    refine h.update (W := s.world) h.log ?_
    rcases hp with ⟨writes, next, hp⟩ | ⟨next, hp⟩
    · rw [hp] at hprog
      exact hprog.2 e
    · rw [hp] at hprog
      exact hprog.2.2 e

theorem run (h : s.CommitsOnly J) {as : List (Action n ι ε)} (hr : s.run E as = some t) :
    t.CommitsOnly J :=
  Sys.run_invariant (I := fun _ u => u.CommitsOnly J) hr h
    fun _ _ _ _ _ _ hu hstep => hu.step hstep

end Sys.CommitsOnly

/-- An assertion of the store that each commit on the way keeps. -/
theorem Sys.run_store {E : Engine ι σ ω} {I : σ → Prop} {s t : Sys n ι σ ω ε α}
    {as : List (Action n ι ε)} (hr : s.run E as = some t) (hs : I s.world.db)
    (hcommit : ∀ pre a u k ws, pre ++ [a] <+: as → s.run E pre = some u →
      u.committing a = some (k, ws) → u.world.log ++ [(k, ws)] <+: t.world.log →
      I u.world.db → I (E.view ws u.world.db)) : I t.world.db := by
  refine Sys.run_invariant (I := fun _ u => I u.world.db) hr hs ?_
  intro pre a u u' hpre hu hI hstep
  rw [Sys.step_db hstep]
  cases hc : u.committing a with
  | none => exact hI
  | some e =>
    obtain ⟨k, ws⟩ := e
    have hlog : u'.world.log = u.world.log ++ [(k, ws)] := by rw [Sys.step_log hstep, hc]; rfl
    obtain ⟨rest, rfl⟩ := hpre
    rw [Sys.run_append, Sys.run_snoc, hu, Option.bind_some, hstep, Option.bind_some] at hr
    exact hcommit pre a u k ws (List.prefix_append _ _) hu hc (hlog ▸ Sys.run_log_prefix hr) hI

end EnvVault.Transactions
