import EnvVault.SoloLogic

/-!
# What a program running alone commits

`committed` collects the writes of the COMMITs of a program that runs alone. They are all
that becomes of the store, and what a store records beside its rows (a trigger, a counter)
is a function of them.
-/
namespace EnvVault.Transactions

variable {ι σ ω ε α β : Type}

namespace Prog
variable (E : Engine ι σ ω) (inputs : ℕ → ι)

/-- The writes that the program commits, in order. -/
def committed : Prog ι σ ω ε α → Solo σ ω → List ω
  | ret _, _ => []
  | raise _, _ => []
  | stmt writes next _, s =>
      (next (inputs s.next) (E.view s.pending s.db)).committed
        ⟨s.next + 1, s.pending ++ writes (inputs s.next) (E.view s.pending s.db), s.db⟩
  | commit next _, s => s.pending ++ next.committed ⟨s.next, [], E.view s.pending s.db⟩
  | rollback next, s => next.committed ⟨s.next, [], s.db⟩

/-- The store after the run. -/
theorem exec_db (p : Prog ι σ ω ε α) (s : Solo σ ω) :
    (p.exec E inputs s).2.db = E.view (p.committed E inputs s) s.db := by
  induction p generalizing s with
  | ret a => rfl
  | raise e => rfl
  | stmt writes next failed ihn ihf => exact ihn _ _ _
  | commit next failed ihn ihf =>
    simp only [exec, committed, Engine.view_append]
    exact ihn _
  | rollback next ih => exact ih _

theorem committed_bind (p : Prog ι σ ω ε α) (f : α → Prog ι σ ω ε β) (s : Solo σ ω) :
    (p.bind f).committed E inputs s = p.committed E inputs s ++ match p.exec E inputs s with
      | (.ok a, t) => (f a).committed E inputs t
      | (.error _, _) => [] := by
  induction p generalizing s with
  | ret a => rfl
  | raise e => rfl
  | stmt writes next failed ihn ihf => exact ihn _ _ _
  | commit next failed ihn ihf =>
    simp only [bind, committed, exec, List.append_assoc]
    rw [ihn]
  | rollback next ih => exact ih _

theorem committed_handle (p : Prog ι σ ω ε α) (h : ε → Prog ι σ ω ε α) (s : Solo σ ω) :
    (p.handle h).committed E inputs s = p.committed E inputs s ++ match p.exec E inputs s with
      | (.ok _, _) => []
      | (.error e, t) => (h e).committed E inputs t := by
  induction p generalizing s with
  | ret a => rfl
  | raise e => rfl
  | stmt writes next failed ihn ihf => exact ihn _ _ _
  | commit next failed ihn ihf =>
    simp only [handle, committed, exec, List.append_assoc]
    rw [ihn]
  | rollback next ih => exact ih _

theorem Reads.committed {P : α → Prop} {p : Prog ι σ ω ε α} (hp : p.Reads P) (s : Solo σ ω) :
    p.committed E inputs s = [] := by
  induction p generalizing s with
  | ret a => rfl
  | raise e => rfl
  | stmt writes next failed ihn ihf => exact ihn _ _ (hp.2.1 _ _) _
  | commit next failed ihn ihf => exact hp.elim
  | rollback next ih => exact hp.elim

/-- Alone, when the program returns, its result and what it has committed satisfy `R`. -/
def Leaves (p : Prog ι σ ω ε α) (ws : List ω) (db : σ) (R : α → List ω → Prop) : Prop :=
  ∀ k a so, p.exec E inputs ⟨k, ws, db⟩ = (.ok a, so) → R a (p.committed E inputs ⟨k, ws, db⟩)

section
variable {E inputs} {p : Prog ι σ ω ε α} {f : α → Prog ι σ ω ε β} {ws : List ω} {db : σ}
  {P S : α → Prop} {R : β → List ω → Prop}

theorem leaves_raise {e : ε} : (raise e : Prog ι σ ω ε β).Leaves E inputs ws db R := by
  intro k a so hexec
  cases congrArg Prod.fst hexec

/-- What is only read comes first. -/
theorem Observes.leaves (hobserves : p.Observes E inputs ws db P) (hreads : p.Reads S)
    (hf : ∀ a, P a → (f a).Leaves E inputs ws db R) : (p.bind f).Leaves E inputs ws db R := by
  intro k b so hexec
  rw [committed_bind, hreads.committed, List.nil_append]
  rw [exec_bind] at hexec
  obtain ⟨k', ⟨a, ha, hk⟩ | ⟨e, hk⟩⟩ := hobserves k
  · rw [hk] at hexec ⊢
    exact hf a ha k' b so hexec
  · rw [hk] at hexec
    cases congrArg Prod.fst hexec

theorem Reads.leaves (hreads : p.Reads S) (hf : ∀ a, S a → (f a).Leaves E inputs ws db R) :
    (p.bind f).Leaves E inputs ws db R :=
  hreads.observes.leaves hreads hf

/-- A statement adds its writes to the open ones. -/
theorem leaves_statement_bind {g : ι → σ → Except ε (List ω × α)}
    (h : ∀ inp vs a, g inp (E.view ws db) = .ok (vs, a) →
      (f a).Leaves E inputs (ws ++ vs) db R) : ((statement g).bind f).Leaves E inputs ws db R := by
  intro k b so hexec
  rw [committed_bind]
  rw [exec_bind] at hexec
  have hnone : (statement g).committed E inputs ⟨k, ws, db⟩ = [] := by
    simp only [statement, committed]
    cases g (inputs k) (E.view ws db) <;> rfl
  rw [hnone, List.nil_append]
  rw [exec_statement] at hexec ⊢
  cases hg : g (inputs k) (E.view ws db) with
  | ok r =>
    simp only [hg] at hexec ⊢
    exact h _ r.1 r.2 hg _ b so hexec
  | error e =>
    simp only [hg] at hexec
    cases congrArg Prod.fst hexec

/-- The COMMIT commits the open writes; what follows only reads. -/
theorem leaves_commit_bind {f : Unit → Prog ι σ ω ε β} {b : β}
    (hf : (f ()).Answers E inputs [] (E.view ws db) b) {S : β → Prop} (hreads : (f ()).Reads S)
    (h : R b ws) : (commitNow.bind f).Leaves E inputs ws db R := by
  intro k b' so hexec
  have hcommitted : (commitNow.bind f).committed E inputs ⟨k, ws, db⟩ =
      ws ++ (f ()).committed E inputs ⟨k, [], E.view ws db⟩ := rfl
  rw [hcommitted, hreads.committed, List.append_nil]
  rw [exec_bind, exec_commitNow] at hexec
  obtain ⟨k', hk⟩ := hf k
  obtain rfl : b = b' := Except.ok.inj (congrArg Prod.fst (hk.symm.trans hexec))
  exact h

/-- A handler that raises leaves the results as they are. -/
theorem leaves_handle {p : Prog ι σ ω ε β} {h : ε → Prog ι σ ω ε β}
    (hp : p.Leaves E inputs ws db R)
    (hraise : ∀ e so a so', (h e).exec E inputs so ≠ (.ok a, so')) :
    (p.handle h).Leaves E inputs ws db R := by
  intro k b so hexec
  rw [committed_handle]
  rw [exec_handle] at hexec
  cases hfirst : p.exec E inputs ⟨k, ws, db⟩ with
  | mk result t =>
    rw [hfirst] at hexec
    cases result with
    | ok a =>
      rw [List.append_nil]
      obtain rfl : a = b := Except.ok.inj (congrArg Prod.fst hexec)
      exact hp k a t hfirst
    | error e => exact absurd hexec (hraise e t b so)

end

end Prog

end EnvVault.Transactions
