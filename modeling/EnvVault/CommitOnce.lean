import EnvVault.SoloRun

/-!
# Programs that commit once and then return

The shape of a transaction script: queries and writes, one COMMIT, and after it only
statements that prepare what is returned. A failed statement makes it give up. Such a
program that raises has committed nothing, unless a statement failed after its COMMIT.
-/
namespace EnvVault.Transactions

variable {n : ℕ} {ι σ ω ε α β : Type}

namespace Prog

/-- It raises, at most after a ROLLBACK. -/
def GivesUp : Prog ι σ ω ε α → Prop
  | .raise _ => True
  | .rollback next => next.GivesUp
  | .ret _ => False
  | .stmt _ _ _ => False
  | .commit _ _ => False

/-- It does not commit, and gives up when a statement fails. -/
def Preliminary : Prog ι σ ω ε α → Prop
  | .ret _ => True
  | .raise _ => True
  | .stmt _ next failed => (∀ inp v, (next inp v).Preliminary) ∧ ∀ e, (failed e).GivesUp
  | .commit _ _ => False
  | .rollback _ => False

/-- What is left after the COMMIT: unless a statement fails it raises `A` or nothing. -/
def Settled (A : ε → Prop) : Prog ι σ ω ε α → Prop
  | .ret _ => True
  | .raise e => A e
  | .stmt _ next failed => (∀ inp v, (next inp v).Settled A) ∧ ∀ e, (failed e).GivesUp
  | .commit _ _ => False
  | .rollback _ => False

/-- It commits at most once, as the last thing but for preparing the result; without
a COMMIT it returns `B` only, and after it raises `A` only. -/
def CommitsLast (A : ε → Prop) (B : α → Prop) : Prog ι σ ω ε α → Prop
  | .ret a => B a
  | .raise _ => True
  | .stmt _ next failed => (∀ inp v, (next inp v).CommitsLast A B) ∧ ∀ e, (failed e).GivesUp
  | .commit next failed => next.Settled A ∧ ∀ e, (failed e).GivesUp
  | .rollback next => next.GivesUp

section Rules
variable {p : Prog ι σ ω ε α} {f : α → Prog ι σ ω ε β} {A A' : ε → Prop} {B : α → Prop}
  {B' : β → Prop}

theorem GivesUp.bind (hp : p.GivesUp) : (p.bind f).GivesUp := by
  induction p with
  | raise e => trivial
  | rollback next ih => exact ih hp
  | ret a => exact hp.elim
  | stmt writes next failed ihn ihf => exact hp.elim
  | commit next failed ihn ihf => exact hp.elim

theorem GivesUp.handle {h : ε → Prog ι σ ω ε α} (hp : p.GivesUp) (hh : ∀ e, (h e).GivesUp) :
    (p.handle h).GivesUp := by
  induction p with
  | raise e => exact hh e
  | rollback next ih => exact ih hp
  | ret a => exact hp.elim
  | stmt writes next failed ihn ihf => exact hp.elim
  | commit next failed ihn ihf => exact hp.elim

theorem GivesUp.commitsLast (hp : p.GivesUp) : p.CommitsLast A B := by
  cases p with
  | raise e => trivial
  | rollback next => exact hp
  | ret a => exact hp.elim
  | stmt writes next failed => exact hp.elim
  | commit next failed => exact hp.elim

theorem Settled.mono (hp : p.Settled A) (hA : ∀ e, A e → A' e) : p.Settled A' := by
  induction p with
  | ret a => trivial
  | raise e => exact hA e hp
  | stmt writes next failed ihn ihf => exact ⟨fun inp v => ihn inp v (hp.1 inp v), hp.2⟩
  | commit next failed ihn ihf => exact hp.elim
  | rollback next ih => exact hp.elim

theorem CommitsLast.mono {B₂ : α → Prop} (hp : p.CommitsLast A B) (hA : ∀ e, A e → A' e)
    (hB : ∀ a, B a → B₂ a) : p.CommitsLast A' B₂ := by
  induction p with
  | ret a => exact hB a hp
  | raise e => trivial
  | stmt writes next failed ihn ihf => exact ⟨fun inp v => ihn inp v (hp.1 inp v), hp.2⟩
  | commit next failed ihn ihf => exact ⟨hp.1.mono hA, hp.2⟩
  | rollback next ih => exact hp

theorem preliminary_statement (g : ι → σ → Except ε (List ω × α)) :
    (statement g).Preliminary := by
  refine ⟨fun inp v => ?_, fun e => trivial⟩
  dsimp only
  cases g inp v <;> trivial

theorem Reads.preliminary {P : α → Prop} (hp : p.Reads P) : p.Preliminary := by
  induction p with
  | ret a => trivial
  | raise e => trivial
  | stmt writes next failed ihn ihf =>
    refine ⟨fun inp v => ihn inp v (hp.2.1 inp v), fun e => ?_⟩
    obtain ⟨e', he⟩ := hp.2.2 e
    rw [he]
    trivial
  | commit next failed ihn ihf => exact hp.elim
  | rollback next ih => exact hp.elim

theorem Preliminary.bind (hp : p.Preliminary) (hf : ∀ a, (f a).Preliminary) :
    (p.bind f).Preliminary := by
  induction p with
  | ret a => exact hf a
  | raise e => trivial
  | stmt writes next failed ihn ihf =>
    exact ⟨fun inp v => ihn inp v (hp.1 inp v), fun e => (hp.2 e).bind⟩
  | commit next failed ihn ihf => exact hp.elim
  | rollback next ih => exact hp.elim

theorem Preliminary.commitsLast (hp : p.Preliminary) (hB : ∀ a, B a) : p.CommitsLast A B := by
  induction p with
  | ret a => exact hB a
  | raise e => trivial
  | stmt writes next failed ihn ihf => exact ⟨fun inp v => ihn inp v (hp.1 inp v), hp.2⟩
  | commit next failed ihn ihf => exact hp.elim
  | rollback next ih => exact hp.elim

theorem Preliminary.bind_commitsLast (hp : p.Preliminary) (hf : ∀ a, (f a).CommitsLast A B') :
    (p.bind f).CommitsLast A B' := by
  induction p with
  | ret a => exact hf a
  | raise e => trivial
  | stmt writes next failed ihn ihf =>
    exact ⟨fun inp v => ihn inp v (hp.1 inp v), fun e => (hp.2 e).bind⟩
  | commit next failed ihn ihf => exact hp.elim
  | rollback next ih => exact hp.elim

theorem Settled.bind (hp : p.Settled A) (hf : ∀ a, (f a).Settled A) : (p.bind f).Settled A := by
  induction p with
  | ret a => exact hf a
  | raise e => exact hp
  | stmt writes next failed ihn ihf =>
    exact ⟨fun inp v => ihn inp v (hp.1 inp v), fun e => (hp.2 e).bind⟩
  | commit next failed ihn ihf => exact hp.elim
  | rollback next ih => exact hp.elim

/-- A statement that always succeeds, after the COMMIT. -/
theorem settled_statement {g : ι → σ → Except ε (List ω × α)}
    (hg : ∀ inp v, ∃ r, g inp v = .ok r) : (statement g).Settled A := by
  refine ⟨fun inp v => ?_, fun e => trivial⟩
  obtain ⟨r, hr⟩ := hg inp v
  dsimp only
  rw [hr]
  trivial

theorem commitsLast_commitNow_bind {k : Unit → Prog ι σ ω ε β} (hk : (k ()).Settled A) :
    (commitNow.bind k).CommitsLast A B' :=
  ⟨hk, fun _ => trivial⟩

/-- What follows a program that has committed by the time it returns. -/
theorem CommitsLast.bind (hp : p.CommitsLast A fun _ => False) (hf : ∀ a, (f a).Settled A) :
    (p.bind f).CommitsLast A B' := by
  induction p with
  | ret a => exact hp.elim
  | raise e => trivial
  | stmt writes next failed ihn ihf =>
    exact ⟨fun inp v => ihn inp v (hp.1 inp v), fun e => (hp.2 e).bind⟩
  | commit next failed ihn ihf => exact ⟨hp.1.bind hf, fun e => (hp.2 e).bind⟩
  | rollback next ih => exact GivesUp.bind hp

theorem CommitsLast.map {g : α → β} (hp : p.CommitsLast A fun a => B' (g a)) :
    (g <$> p).CommitsLast A B' := by
  rw [map_eq]
  induction p with
  | ret a => exact hp
  | raise e => trivial
  | stmt writes next failed ihn ihf =>
    exact ⟨fun inp v => ihn inp v (hp.1 inp v), fun e => (hp.2 e).bind⟩
  | commit next failed ihn ihf => exact ⟨hp.1.bind fun _ => trivial, fun e => (hp.2 e).bind⟩
  | rollback next ih => exact GivesUp.bind hp

/-- A handler that gives up, around a program that raises nothing after its COMMIT. -/
theorem CommitsLast.handle {h : ε → Prog ι σ ω ε α} (hp : p.CommitsLast (fun _ => False) B)
    (hh : ∀ e, (h e).GivesUp) : (p.handle h).CommitsLast A B := by
  have hsettled : ∀ q : Prog ι σ ω ε α, q.Settled (fun _ => False) →
      (q.handle h).Settled A := by
    intro q hq
    induction q with
    | ret a => trivial
    | raise e => exact hq.elim
    | stmt writes next failed ihn ihf =>
      exact ⟨fun inp v => ihn inp v (hq.1 inp v), fun e => (hq.2 e).handle hh⟩
    | commit next failed ihn ihf => exact hq.elim
    | rollback next ih => exact hq.elim
  induction p with
  | ret a => exact hp
  | raise e => exact (hh e).commitsLast
  | stmt writes next failed ihn ihf =>
    exact ⟨fun inp v => ihn inp v (hp.1 inp v), fun e => (hp.2 e).handle hh⟩
  | commit next failed ihn ihf => exact ⟨hsettled next hp.1, fun e => (hp.2 e).handle hh⟩
  | rollback next ih => exact GivesUp.handle hp hh

end Rules

/-- `exec`, but the statement or COMMIT after the first `f` fails with `e`. -/
def execFailing (E : Engine ι σ ω) (inputs : ℕ → ι) (e : ε) :
    ℕ → Prog ι σ ω ε α → Solo σ ω → Except ε α × Solo σ ω
  | _, .ret a, s => (.ok a, s)
  | _, .raise e', s => (.error e', s)
  | 0, .stmt _ _ failed, s => (failed e).exec E inputs ⟨s.next, [], s.db⟩
  | f + 1, .stmt writes next _, s =>
      (next (inputs s.next) (E.view s.pending s.db)).execFailing E inputs e f
        ⟨s.next + 1, s.pending ++ writes (inputs s.next) (E.view s.pending s.db), s.db⟩
  | 0, .commit _ failed, s => (failed e).exec E inputs ⟨s.next, [], s.db⟩
  | f + 1, .commit next _, s => next.execFailing E inputs e f ⟨s.next, [], E.view s.pending s.db⟩
  | f, .rollback next, s => next.execFailing E inputs e f ⟨s.next, [], s.db⟩

/-- Where the program stands when the statement or COMMIT after the first `f` is to be
executed, if it gets there. -/
def standing (E : Engine ι σ ω) (inputs : ℕ → ι) :
    ℕ → Prog ι σ ω ε α → Solo σ ω → Option (Solo σ ω)
  | _, .ret _, _ => none
  | _, .raise _, _ => none
  | 0, .stmt _ _ _, s => some s
  | f + 1, .stmt writes next _, s =>
      (next (inputs s.next) (E.view s.pending s.db)).standing E inputs f
        ⟨s.next + 1, s.pending ++ writes (inputs s.next) (E.view s.pending s.db), s.db⟩
  | 0, .commit _ _, s => some s
  | f + 1, .commit next _, s => next.standing E inputs f ⟨s.next, [], E.view s.pending s.db⟩
  | f, .rollback next, s => next.standing E inputs f ⟨s.next, [], s.db⟩

/-- Whether the statement after the first `f` is executed, and after a COMMIT. -/
def pastCommit (E : Engine ι σ ω) (inputs : ℕ → ι) : ℕ → Prog ι σ ω ε α → Solo σ ω → Bool
  | _, .ret _, _ => false
  | _, .raise _, _ => false
  | 0, .stmt _ _ _, _ => false
  | f + 1, .stmt writes next _, s =>
      (next (inputs s.next) (E.view s.pending s.db)).pastCommit E inputs f
        ⟨s.next + 1, s.pending ++ writes (inputs s.next) (E.view s.pending s.db), s.db⟩
  | 0, .commit _ _, _ => false
  | f + 1, .commit next _, s =>
      (next.standing E inputs f ⟨s.next, [], E.view s.pending s.db⟩).isSome
  | f, .rollback next, s => next.pastCommit E inputs f ⟨s.next, [], s.db⟩

section Alone
variable {E : Engine ι σ ω} {inputs : ℕ → ι} {p : Prog ι σ ω ε α} {A : ε → Prop} {B : α → Prop}
  {e : ε} {s so : Solo σ ω} {f : ℕ}

theorem GivesUp.exec (hp : p.GivesUp) (E : Engine ι σ ω) (inputs : ℕ → ι) (s : Solo σ ω) :
    (∃ e, (p.exec E inputs s).1 = .error e) ∧ (p.exec E inputs s).2.db = s.db := by
  induction p generalizing s with
  | raise e => exact ⟨⟨e, rfl⟩, rfl⟩
  | rollback next ih => exact ih hp ⟨s.next, [], s.db⟩
  | ret a => exact hp.elim
  | stmt writes next failed ihn ihf => exact hp.elim
  | commit next failed ihn ihf => exact hp.elim

theorem Settled.exec_error (hp : p.Settled A) (h : (p.exec E inputs s).1 = .error e) : A e := by
  induction p generalizing s with
  | ret a => cases h
  | raise e' =>
    obtain rfl : e' = e := Except.error.inj h
    exact hp
  | stmt writes next failed ihn ihf => exact ihn _ _ (hp.1 _ _) h
  | commit next failed ihn ihf => exact hp.elim
  | rollback next ih => exact hp.elim

/-- Undisturbed, a program that raises anything but `A` has committed nothing. -/
theorem CommitsLast.exec_error (hp : p.CommitsLast A B) (h : (p.exec E inputs s).1 = .error e) :
    A e ∨ (p.exec E inputs s).2.db = s.db := by
  induction p generalizing s with
  | ret a => cases h
  | raise e' => exact Or.inr rfl
  | stmt writes next failed ihn ihf => exact ihn _ _ (hp.1 _ _) h
  | commit next failed ihn ihf => exact Or.inl (hp.1.exec_error h)
  | rollback next ih => exact Or.inr (GivesUp.exec hp E inputs _).2

/-- A failure that comes after the end changes nothing. -/
theorem execFailing_of_standing_none (h : p.standing E inputs f s = none) :
    p.execFailing E inputs e f s = p.exec E inputs s := by
  induction p generalizing f s with
  | ret a => cases f <;> rfl
  | raise e' => cases f <;> rfl
  | stmt writes next failed ihn ihf =>
    cases f with
    | zero => cases h
    | succ f => exact ihn _ _ h
  | commit next failed ihn ihf =>
    cases f with
    | zero => cases h
    | succ f => exact ihn h
  | rollback next ih => cases f <;> exact ih h

theorem GivesUp.standing (hp : p.GivesUp) : p.standing E inputs f s = none := by
  induction p generalizing f s with
  | raise e' => cases f <;> rfl
  | rollback next ih => cases f <;> exact ih hp
  | ret a => exact hp.elim
  | stmt writes next failed ihn ihf => exact hp.elim
  | commit next failed ihn ihf => exact hp.elim

theorem Settled.execFailing (hp : p.Settled A) (h : p.standing E inputs f s = some so) :
    (∃ e', (p.execFailing E inputs e f s).1 = .error e') ∧
      (p.execFailing E inputs e f s).2.db = so.db := by
  induction p generalizing f s with
  | ret a => cases f <;> cases h
  | raise e' => cases f <;> cases h
  | stmt writes next failed ihn ihf =>
    cases f with
    | zero =>
      obtain rfl : s = so := Option.some.inj h
      exact (hp.2 e).exec E inputs ⟨s.next, [], s.db⟩
    | succ f => exact ihn _ _ (hp.1 _ _) h
  | commit next failed ihn ihf => exact hp.elim
  | rollback next ih => exact hp.elim

/-- When the statement that fails is reached, the program raises, and leaves the store
as it was then. -/
theorem CommitsLast.execFailing (hp : p.CommitsLast A B) (h : p.standing E inputs f s = some so) :
    (∃ e', (p.execFailing E inputs e f s).1 = .error e') ∧
      (p.execFailing E inputs e f s).2.db = so.db := by
  induction p generalizing f s with
  | ret a => cases f <;> cases h
  | raise e' => cases f <;> cases h
  | stmt writes next failed ihn ihf =>
    cases f with
    | zero =>
      obtain rfl : s = so := Option.some.inj h
      exact (hp.2 e).exec E inputs ⟨s.next, [], s.db⟩
    | succ f => exact ihn _ _ (hp.1 _ _) h
  | commit next failed ihn ihf =>
    cases f with
    | zero =>
      obtain rfl : s = so := Option.some.inj h
      exact (hp.2 e).exec E inputs ⟨s.next, [], s.db⟩
    | succ f => exact hp.1.execFailing h
  | rollback next ih =>
    have hnone : next.standing E inputs f ⟨s.next, [], s.db⟩ = none := GivesUp.standing hp
    cases f <;> cases hnone.symm.trans h

/-- After the COMMIT the store stays as it is. -/
theorem Settled.exec_db (hp : p.Settled A) : (p.exec E inputs s).2.db = s.db := by
  induction p generalizing s with
  | ret a => rfl
  | raise e' => rfl
  | stmt writes next failed ihn ihf => exact ihn _ _ (hp.1 _ _)
  | commit next failed ihn ihf => exact hp.elim
  | rollback next ih => exact hp.elim

theorem Settled.standing_db (hp : p.Settled A) (h : p.standing E inputs f s = some so) :
    so.db = s.db := by
  induction p generalizing f s with
  | ret a => cases f <;> cases h
  | raise e' => cases f <;> cases h
  | stmt writes next failed ihn ihf =>
    cases f with
    | zero =>
      obtain rfl : s = so := Option.some.inj h
      rfl
    | succ f =>
      have hdb := ihn _ _ (hp.1 _ _) (s := ⟨s.next + 1, s.pending ++ writes (inputs s.next)
        (E.view s.pending s.db), s.db⟩) h
      exact hdb
  | commit next failed ihn ihf => exact hp.elim
  | rollback next ih => exact hp.elim

/-- Past the COMMIT the store is already what the undisturbed program leaves, and before
it what the program found. -/
theorem CommitsLast.standing_db (hp : p.CommitsLast A B) (h : p.standing E inputs f s = some so) :
    so.db = if p.pastCommit E inputs f s = true then (p.exec E inputs s).2.db else s.db := by
  induction p generalizing f s with
  | ret a => cases f <;> cases h
  | raise e' => cases f <;> cases h
  | stmt writes next failed ihn ihf =>
    cases f with
    | zero =>
      obtain rfl : s = so := Option.some.inj h
      rfl
    | succ f => exact ihn _ _ (hp.1 _ _) h
  | commit next failed ihn ihf =>
    cases f with
    | zero =>
      obtain rfl : s = so := Option.some.inj h
      rfl
    | succ f =>
      have hnext : next.standing E inputs f ⟨s.next, [], E.view s.pending s.db⟩ = some so := h
      have hdb := hp.1.standing_db hnext
      have hexec : (next.exec E inputs ⟨s.next, [], E.view s.pending s.db⟩).2.db =
        E.view s.pending s.db := hp.1.exec_db
      simp only [Prog.pastCommit, hnext, Option.isSome_some, if_true]
      exact hdb.trans hexec.symm
  | rollback next ih =>
    have hnone : next.standing E inputs f ⟨s.next, [], s.db⟩ = none := GivesUp.standing hp
    cases f <;> cases hnone.symm.trans h

theorem pastCommit_of_standing_none (h : p.standing E inputs f s = none) :
    p.pastCommit E inputs f s = false := by
  induction p generalizing f s with
  | ret a => cases f <;> rfl
  | raise e' => cases f <;> rfl
  | stmt writes next failed ihn ihf =>
    cases f with
    | zero => cases h
    | succ f => exact ihn _ _ h
  | commit next failed ihn ihf =>
    cases f with
    | zero => cases h
    | succ f =>
      have hnext : next.standing E inputs f ⟨s.next, [], E.view s.pending s.db⟩ = none := h
      simp [Prog.pastCommit, hnext]
  | rollback next ih => cases f <;> exact ih h

/-- A program that undisturbed raises nothing after a COMMIT has committed nothing when it
raises, unless the statement that fails comes after a COMMIT that has changed the store. -/
theorem CommitsLast.raises_unchanged_iff (hp : p.CommitsLast A B)
    (hundisturbed : ∀ e', (p.exec E inputs s).1 = .error e' → (p.exec E inputs s).2.db = s.db) :
    (∀ e', (p.execFailing E inputs e f s).1 = .error e' →
      (p.execFailing E inputs e f s).2.db = s.db) ↔
      ¬ (p.pastCommit E inputs f s = true ∧ (p.exec E inputs s).2.db ≠ s.db) := by
  cases hso : p.standing E inputs f s with
  | none =>
    rw [execFailing_of_standing_none hso, pastCommit_of_standing_none hso]
    simpa using hundisturbed
  | some so =>
    obtain ⟨⟨e', he'⟩, hdb⟩ := hp.execFailing (e := e) hso
    have hstanding := hp.standing_db hso
    rw [hdb, hstanding, he']
    by_cases hpast : p.pastCommit E inputs f s = true
    · simp [hpast]
    · simp [hpast]

end Alone

end Prog

/-- `execFailing` is the machine when only this caller is scheduled and one of its steps
is made to fail. -/
theorem StandsAlone.runsTo_failing {E : Engine ι σ ω} {inputs : ℕ → ι} {past : List ι} {i : Fin n}
    {p : Prog ι σ ω ε α} {so : Solo σ ω} {s : Sys n ι σ ω ε α} (hf : FreshStream E inputs past)
    (h : StandsAlone inputs past i p so s) (e : ε) (f : ℕ) :
    RunsTo E i s (p.execFailing E inputs e f so) := by
  induction p generalizing f so s with
  | ret a => cases f <;> exact h.over (r := .ok a)
  | raise e' => cases f <;> exact h.over (r := .error e')
  | stmt writes next failed ihn ihf =>
    cases f with
    | zero =>
      obtain ⟨t, hs, ht, hsame⟩ := h.fail (E := E) (e := e) (Or.inl ⟨writes, next, rfl⟩)
      exact .of_step hs hsame (ht.runsTo hf)
    | succ f =>
      obtain ⟨t, hs, ht, hsame⟩ := h.stmt hf
      exact .of_step hs hsame (ihn _ _ ht f)
  | commit next failed ihn ihf =>
    cases f with
    | zero =>
      obtain ⟨t, hs, ht, hsame⟩ := h.fail (E := E) (e := e) (Or.inr ⟨next, rfl⟩)
      exact .of_step hs hsame (ht.runsTo hf)
    | succ f =>
      obtain ⟨t, hs, ht, hsame⟩ := h.commit (E := E)
      exact .of_step hs hsame (ihn ht f)
  | rollback next ih =>
    obtain ⟨t, hs, ht, hsame⟩ := h.rollback (E := E)
    cases f <;> exact .of_step hs hsame (ih ht _)

end EnvVault.Transactions
