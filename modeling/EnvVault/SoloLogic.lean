import EnvVault.SoloRun

/-!
# What a program running alone has done when it returns

Rules for programs that commit once, at their end: a result means that the one
COMMIT went through, and an exception that nothing was committed.
-/
namespace EnvVault.Transactions

variable {ι σ ω ε α β : Type}

namespace Prog
variable (E : Engine ι σ ω) (inputs : ℕ → ι)

/-- Alone the program leaves the open writes and the store as they are, and a
result of it satisfies `P`. -/
def Observes (p : Prog ι σ ω ε α) (ws : List ω) (db : σ) (P : α → Prop) : Prop :=
  ∀ k, ∃ k', (∃ a, P a ∧ p.exec E inputs ⟨k, ws, db⟩ = (.ok a, ⟨k', ws, db⟩)) ∨
    ∃ e, p.exec E inputs ⟨k, ws, db⟩ = (.error e, ⟨k', ws, db⟩)

/-- Alone, a result of the program and the store committed by then satisfy `R`; an
exception of it leaves the store as it was. -/
def Yields (p : Prog ι σ ω ε α) (ws : List ω) (db : σ) (R : α → σ → Prop) : Prop :=
  p.Ends E inputs ws db fun result so => match result with
    | .ok a => R a so.db
    | .error _ => so.db = db

section
variable {E inputs} {p : Prog ι σ ω ε α} {f : α → Prog ι σ ω ε β} {ws : List ω} {db : σ}
  {P : α → Prop} {S : β → Prop} {R : β → σ → Prop}

theorem observes_ret {a : α} (h : P a) : (ret a : Prog ι σ ω ε α).Observes E inputs ws db P :=
  fun k => ⟨k, Or.inl ⟨a, h, rfl⟩⟩

theorem observes_raise {e : ε} : (raise e : Prog ι σ ω ε α).Observes E inputs ws db P :=
  fun k => ⟨k, Or.inr ⟨e, rfl⟩⟩

theorem observes_statement {g : ι → σ → Except ε (List ω × α)}
    (h : ∀ inp vs a, g inp (E.view ws db) = .ok (vs, a) → vs = [] ∧ P a) :
    (statement g).Observes E inputs ws db P := by
  intro k
  refine ⟨k + 1, ?_⟩
  rw [exec_statement]
  cases hg : g (inputs k) (E.view ws db) with
  | ok r =>
    obtain ⟨hr, hP⟩ := h _ r.1 r.2 hg
    exact Or.inl ⟨r.2, hP, by simp [hr]⟩
  | error e => exact Or.inr ⟨e, rfl⟩

theorem Observes.bind (hp : p.Observes E inputs ws db P)
    (hf : ∀ a, P a → (f a).Observes E inputs ws db S) :
    (p.bind f).Observes E inputs ws db S := by
  intro k
  obtain ⟨k', ⟨a, hPa, hk'⟩ | ⟨e, hk'⟩⟩ := hp k
  · rw [exec_bind, hk']
    exact hf a hPa k'
  · exact ⟨k', Or.inr ⟨e, by rw [exec_bind, hk']⟩⟩

theorem Observes.mono {P' : α → Prop} (hp : p.Observes E inputs ws db P) (h : ∀ a, P a → P' a) :
    p.Observes E inputs ws db P' := by
  intro k
  obtain ⟨k', ⟨a, hPa, hk'⟩ | he⟩ := hp k
  · exact ⟨k', Or.inl ⟨a, h a hPa, hk'⟩⟩
  · exact ⟨k', Or.inr he⟩

/-- A program that only reads changes nothing. -/
theorem Reads.observes (hp : p.Reads P) : p.Observes E inputs ws db P := by
  induction p with
  | ret a => exact observes_ret hp
  | raise e => exact observes_raise
  | stmt writes next failed ihn ihf =>
    intro k
    have hw := hp.1 (inputs k) (E.view ws db)
    have hnext := ihn (inputs k) (E.view ws db) (hp.2.1 _ _) (k + 1)
    simpa only [exec, hw, List.append_nil] using hnext
  | commit next failed ihn ihf => exact hp.elim
  | rollback next ih => exact hp.elim

theorem yields_ret {b : β} (h : R b db) : (ret b : Prog ι σ ω ε β).Yields E inputs ws db R :=
  fun _ => h

theorem yields_raise {e : ε} : (raise e : Prog ι σ ω ε β).Yields E inputs ws db R :=
  fun _ => rfl

theorem Observes.yields (hp : p.Observes E inputs ws db P)
    (hf : ∀ a, P a → (f a).Yields E inputs ws db R) : (p.bind f).Yields E inputs ws db R := by
  intro k
  obtain ⟨k', ⟨a, hPa, hk'⟩ | ⟨e, hk'⟩⟩ := hp k
  · rw [exec_bind, hk']
    exact hf a hPa k'
  · rw [exec_bind, hk']

theorem Observes.yields_last {q : Prog ι σ ω ε β} (hq : q.Observes E inputs ws db S)
    (h : ∀ b, S b → R b db) : q.Yields E inputs ws db R := by
  intro k
  obtain ⟨k', ⟨b, hSb, hk'⟩ | ⟨e, hk'⟩⟩ := hq k
  · rw [hk']
    exact h b hSb
  · rw [hk']

/-- A statement that succeeds adds its writes. -/
theorem yields_statement_bind {g : ι → σ → Except ε (List ω × α)}
    (h : ∀ k vs a, g (inputs k) (E.view ws db) = .ok (vs, a) →
      (f a).Yields E inputs (ws ++ vs) db R) :
    ((statement g).bind f).Yields E inputs ws db R := by
  intro k
  rw [exec_bind, exec_statement]
  cases hg : g (inputs k) (E.view ws db) with
  | ok r => exact h k r.1 r.2 hg (k + 1)
  | error e => rfl

/-- After the COMMIT the program answers. -/
theorem yields_commit_bind {f : Unit → Prog ι σ ω ε β} {b : β}
    (hf : (f ()).Answers E inputs [] (E.view ws db) b) (h : R b (E.view ws db)) :
    (commitNow.bind f).Yields E inputs ws db R := by
  intro k
  obtain ⟨k', hk'⟩ := hf k
  rw [exec_bind, exec_commitNow]
  dsimp only
  rw [hk']
  exact h

/-- A handler that gives up adds nothing to what the program does. -/
theorem yields_handle {q : Prog ι σ ω ε β} {hd : ε → Prog ι σ ω ε β}
    (hq : q.Yields E inputs ws db R)
    (hh : ∀ e vs, (hd e).Yields E inputs vs db R) : (q.handle hd).Yields E inputs ws db R := by
  intro k
  have hk := hq k
  rw [exec_handle]
  cases hexec : q.exec E inputs ⟨k, ws, db⟩ with
  | mk result so =>
    rw [hexec] at hk
    cases result with
    | ok b => exact hk
    | error e =>
      obtain ⟨next, vs, db'⟩ := so
      obtain rfl : db' = db := hk
      exact hh e vs next

theorem yields_rollback_bind {f : Unit → Prog ι σ ω ε β}
    (hf : (f ()).Yields E inputs [] db R) : (rollbackNow.bind f).Yields E inputs ws db R :=
  fun k => hf k

theorem Yields.map {q : Prog ι σ ω ε α} {g : α → β} {R : β → σ → Prop}
    (hq : q.Yields E inputs ws db fun a s => R (g a) s) :
    (g <$> q).Yields E inputs ws db R := by
  intro k
  have hk := hq k
  rw [map_eq, exec_bind]
  cases hexec : q.exec E inputs ⟨k, ws, db⟩ with
  | mk result so =>
    rw [hexec] at hk
    cases result <;> exact hk

end

end Prog

end EnvVault.Transactions
