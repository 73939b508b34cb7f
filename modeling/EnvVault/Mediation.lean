import EnvVault.PhasedContracts

/-!
# Nothing before the guard

A program is mediated when it writes, commits and answers nothing before one of its
statements has met a store that its guard accepts. In a run of mediated programs whoever
has committed or answered has met such a store, whatever the others do meanwhile. The guard
may depend on what is known of the inputs of the run.
-/
namespace EnvVault.Transactions

variable {n : ℕ} {ι σ ω ε α β : Type} {I : ι → Prop} {G : σ → Prop} {D : α → Prop}
  {D' : β → Prop}

/-- On inputs with `I`, until a statement meets a view with `G` the program writes nothing,
and it returns only what `D` describes. -/
def Prog.Mediated (I : ι → Prop) (G : σ → Prop) (D : α → Prop) : Prog ι σ ω ε α → Prop
  | .ret a => D a
  | .raise _ => True
  | .stmt writes next failed =>
      (∀ inp v, I inp → G v ∨ writes inp v = [] ∧ (next inp v).Mediated I G D) ∧
        ∀ e, (failed e).Mediated I G D
  | .commit _ _ => False
  | .rollback next => next.Mediated I G D

namespace Prog
variable {p : Prog ι σ ω ε α}

theorem Mediated.bind {f : α → Prog ι σ ω ε β} (hp : p.Mediated I G D)
    (hf : ∀ a, D a → (f a).Mediated I G D') : (p.bind f).Mediated I G D' := by
  induction p with
  | ret a => exact hf a hp
  | raise e => trivial
  | stmt writes next failed ihn ihf =>
    refine ⟨fun inp v hinp => ?_, fun e => ihf e (hp.2 e)⟩
    rcases hp.1 inp v hinp with hG | ⟨hw, hn⟩
    · exact Or.inl hG
    · exact Or.inr ⟨hw, ihn inp v hn⟩
  | commit next failed ihn ihf => exact hp.elim
  | rollback next ih => exact ih hp

theorem Mediated.mono_guard {G' : σ → Prop} (hp : p.Mediated I G D) (hG : ∀ v, G v → G' v) :
    p.Mediated I G' D := by
  induction p with
  | ret a => exact hp
  | raise e => trivial
  | stmt writes next failed ihn ihf =>
    refine ⟨fun inp v hinp => ?_, fun e => ihf e (hp.2 e)⟩
    exact (hp.1 inp v hinp).imp (hG v) fun h => ⟨h.1, ihn inp v h.2⟩
  | commit next failed ihn ihf => exact hp.elim
  | rollback next ih => exact ih hp

/-- Queries may come before the guard. -/
theorem Reads.mediated (hp : p.Reads D) : p.Mediated I G D := by
  induction p with
  | ret a => exact hp
  | raise e => trivial
  | stmt writes next failed ihn ihf =>
    refine ⟨fun inp v _ => Or.inr ⟨hp.1 inp v, ihn inp v (hp.2.1 inp v)⟩, fun e => ?_⟩
    obtain ⟨e', he⟩ := hp.2.2 e
    rw [he]
    trivial
  | commit next failed ihn ihf => exact hp.elim
  | rollback next ih => exact hp.elim

theorem mediated_statement_bind {f : ι → σ → Except ε (List ω × α)} {k : α → Prog ι σ ω ε β}
    (h : ∀ inp v ws a, I inp → f inp v = .ok (ws, a) →
      G v ∨ ws = [] ∧ (k a).Mediated I G D') :
    ((statement f).bind k).Mediated I G D' := by
  refine ⟨fun inp v hinp => ?_, fun _ => trivial⟩
  dsimp only
  cases hf : f inp v with
  | ok r => exact h inp v r.1 r.2 hinp hf
  | error e => exact Or.inr ⟨rfl, trivial⟩

end Prog

/-- The caller has met a store with its guard, or has done nothing yet. -/
def Sys.Mediated (i : Fin n) (I : ι → Prop) (G : σ → Prop) (D : α → Prop)
    (s : Sys n ι σ ω ε α) : Prop :=
  (∃ db ∈ (s.call i).seen, G db) ∨ ((s.call i).pending = [] ∧ (∀ e ∈ s.world.log, e.1 ≠ i) ∧
    (s.call i).prog.Mediated I G D)

namespace Sys.Mediated
variable {E : Engine ι σ ω} {i : Fin n} {s t : Sys n ι σ ω ε α}

theorem initial {W : World n ι σ ω} {progs : Fin n → Prog ι σ ω ε α} (hlog : W.log = [])
    (hprog : (progs i).Mediated I G D) : (Sys.initial W progs).Mediated i I G D := by
  refine Or.inr ⟨rfl, fun e he => ?_, hprog⟩
  rw [Sys.initial, hlog] at he
  exact absurd he List.not_mem_nil

/-- A step of the caller that leaves the log alone. -/
theorem update {W : World n ι σ ω} {c : Call ι σ ω ε α} (h : s.Mediated i I G D)
    (hlog : W.log = s.world.log) (hseen : ∀ db ∈ (s.call i).seen, db ∈ c.seen)
    (hc : (s.call i).pending = [] → (s.call i).prog.Mediated I G D → (∃ db ∈ c.seen, G db) ∨
      (c.pending = [] ∧ c.prog.Mediated I G D)) :
    (({ s with world := W } : Sys n ι σ ω ε α).setCall i c).Mediated i I G D := by
  unfold Sys.Mediated
  rw [Sys.setCall_self, Sys.setCall_world, hlog]
  rcases h with ⟨db, hdb, hG⟩ | ⟨hpending, hnone, hprog⟩
  · exact Or.inl ⟨db, hseen db hdb, hG⟩
  · exact (hc hpending hprog).imp_right fun h => ⟨h.1, hnone, h.2⟩

theorem step (h : s.Mediated i I G D) {a : Action n ι ε} (hs : s.step E a = some t)
    (hI : ∀ inp ∈ t.world.past, I inp) : t.Mediated i I G D := by
  by_cases hi : i = a.caller
  · cases Sys.step_cases hs with
    | closed j inp hp ht =>
      obtain rfl : i = j := hi
      rw [ht]
      exact h.update (W := s.world) rfl (fun _ hdb => hdb) fun _ hprog => Or.inr ⟨rfl, hprog⟩
    | stmt j inp writes next failed hp fresh free ht =>
      obtain rfl : i = j := hi
      rw [ht]
      refine h.update rfl (fun _ hdb => List.mem_cons_of_mem _ hdb) fun hpending hprog => ?_
      -- with nothing pending the statement meets the committed store itself
      rw [hp] at hprog
      rw [hpending]
      have hinp : I inp := hI inp (by rw [ht]; exact List.mem_cons_self)
      rcases hprog.1 inp (E.view [] s.world.db) hinp with hG | ⟨hw, hn⟩
      · exact Or.inl ⟨s.world.db, List.mem_cons_self, hG⟩
      · exact Or.inr ⟨hw, hn⟩
    | commit j inp next failed hp ht =>
      obtain rfl : i = j := hi
      rw [ht]
      unfold Sys.Mediated
      rw [Sys.setCall_self]
      rcases h with ⟨db, hdb, hG⟩ | ⟨-, -, hprog⟩
      · exact Or.inl ⟨db, List.mem_cons_of_mem _ hdb, hG⟩
      · rw [hp] at hprog
        exact hprog.elim
    | rollback j inp next hp ht =>
      obtain rfl : i = j := hi
      rw [ht]
      refine h.update (W := s.world) rfl (fun _ hdb => hdb) fun _ hprog => Or.inr ⟨rfl, ?_⟩
      rw [hp] at hprog
      exact hprog
    | failed j e failed hp ht =>
      obtain rfl : i = j := hi
      rw [ht]
      refine h.update (W := s.world) rfl (fun _ hdb => hdb) fun _ hprog => Or.inr ⟨rfl, ?_⟩
      rcases hp with ⟨writes, next, hp⟩ | ⟨next, hp⟩
      · rw [hp] at hprog
        exact hprog.2 e
      · rw [hp] at hprog
        exact hprog.elim
  · unfold Sys.Mediated
    rw [Sys.step_other hs hi]
    exact h.imp_right fun h => ⟨h.1, Sys.step_log_other hs hi h.2.1, h.2.2⟩

theorem run (h : s.Mediated i I G D) {as : List (Action n ι ε)} (hr : s.run E as = some t)
    (hI : ∀ inp ∈ t.world.past, I inp) : t.Mediated i I G D := by
  refine Sys.run_invariant (I := fun _ u => u.Mediated i I G D) hr h
    fun pre a u u' hpre hu hok hstep => hok.step hstep fun inp hinp => ?_
  have hu' : s.run E (pre ++ [a]) = some u' := by
    rw [Sys.run_snoc, hu]
    exact hstep
  obtain ⟨rest, hrest⟩ := Sys.run_of_prefix hpre hu' hr
  exact hI inp ((Sys.run_past hrest).subset hinp)

/-- A caller that has committed has met a store with its guard. -/
theorem committed (h : s.Mediated i I G D) {ws : List ω} (he : (i, ws) ∈ s.world.log) :
    ∃ db ∈ (s.call i).seen, G db :=
  h.resolve_right fun hnone => hnone.2.1 _ he rfl

/-- So has one that answers what only the guarded part of its program answers. -/
theorem returned (h : s.Mediated i I G D) {a : α} (ha : (s.call i).prog = .ret a) (hD : ¬ D a) :
    ∃ db ∈ (s.call i).seen, G db := by
  refine h.resolve_right fun hnone => hD ?_
  have hprog := hnone.2.2
  rw [ha] at hprog
  exact hprog

end Sys.Mediated

end EnvVault.Transactions
