import EnvVault.RelyGuarantee
import EnvVault.StagedRuns

/-!
# A stronger contract for the rest of a run

From some point of a run on, its commits may obey a stronger contract. What the programs in
progress were proved to do under the first contract they do under the second, as long as
their own commits then meet the stronger guarantee.
-/
namespace EnvVault.Transactions

variable {n : ℕ} {ι σ ω ε α β : Type}

/-- The caller whose step it is. -/
def Action.caller : Action n ι ε → Fin n
  | .run i _ => i
  | .fail i _ => i

namespace Sys
variable {E : Engine ι σ ω} {s t : Sys n ι σ ω ε α} {as bs : List (Action n ι ε)}

/-- `P` was true in some state of the run. -/
def Once (E : Engine ι σ ω) (s : Sys n ι σ ω ε α) (as : List (Action n ι ε))
    (P : Sys n ι σ ω ε α → Prop) : Prop :=
  ∃ pre t, pre <+: as ∧ s.run E pre = some t ∧ P t

theorem Once.extend {P : Sys n ι σ ω ε α → Prop} (h : s.Once E as P) (hp : as <+: bs) :
    s.Once E bs P := by
  obtain ⟨pre, t, hpre, ht⟩ := h
  exact ⟨pre, t, hpre.trans hp, ht⟩

/-- A run goes through the states of its beginnings. -/
theorem run_of_prefix {u : Sys n ι σ ω ε α} (hp : as <+: bs) (ht : s.run E as = some t)
    (hu : s.run E bs = some u) : ∃ rest, t.run E rest = some u := by
  obtain ⟨rest, rfl⟩ := hp
  rw [run_append, ht] at hu
  exact ⟨rest, hu⟩

theorem step_past {a : Action n ι ε} (h : s.step E a = some t) :
    s.world.past <:+ t.world.past := by
  cases step_cases h with
  | closed i inp hp ht => exact ht ▸ List.suffix_refl _
  | stmt i inp writes next failed hp fresh free ht => exact ht ▸ List.suffix_cons _ _
  | commit i inp next failed hp ht => exact ht ▸ List.suffix_refl _
  | rollback i inp next hp ht => exact ht ▸ List.suffix_refl _
  | failed i e failed hp ht => exact ht ▸ List.suffix_refl _

/-- The inputs of a run stay. -/
theorem run_past (h : s.run E as = some t) : s.world.past <:+ t.world.past :=
  run_invariant (I := fun _ u => s.world.past <:+ u.world.past) h (List.suffix_refl _)
    fun _ _ _ _ _ _ hu hstep => hu.trans (step_past hstep)

/-- Who has not begun in the end has never begun. -/
theorem run_unstarted (h : s.run E as = some t) {j : Fin n}
    (ht : (t.call j).started = false) : (s.call j).started = false := by
  revert ht
  refine run_invariant (I := fun _ u => (u.call j).started = false → (s.call j).started = false)
    h id ?_
  intro pre a u u' _ _ hu hstep hu'
  rcases step_seen hstep j with ⟨-, hback⟩ | ⟨-, hbegun⟩
  · exact hu (hback hu')
  · rw [hbegun] at hu'
    cases hu'

/-- Every store that a caller has met was the committed one in some state of the run. -/
theorem seen_once (h : s.run E as = some t) {j : Fin n} (hnil : (s.call j).seen = []) :
    ∀ v ∈ (t.call j).seen, s.Once E as fun u => u.world.db = v := by
  refine run_invariant (I := fun pre u => ∀ v ∈ (u.call j).seen,
    s.Once E pre fun u => u.world.db = v) h (by simp [hnil]) ?_
  intro pre a u u' _ hu hseen hstep v hv
  have hgrow : pre <+: pre ++ [a] := List.prefix_append _ _
  rcases step_seen hstep j with ⟨heq, -⟩ | ⟨heq, -⟩
  · exact (hseen v (heq ▸ hv)).extend hgrow
  · rw [heq] at hv
    rcases List.mem_cons.mp hv with rfl | hv
    · exact ⟨pre, u, hgrow, hu, rfl⟩
    · exact (hseen v hv).extend hgrow

theorem step_other {a : Action n ι ε} (h : s.step E a = some t) {j : Fin n}
    (hj : j ≠ a.caller) : t.call j = s.call j := by
  cases step_cases h with
  | closed i inp hp ht => exact ht ▸ setCall_other s hj _
  | stmt i inp writes next failed hp fresh free ht => exact ht ▸ setCall_other _ hj _
  | commit i inp next failed hp ht => exact ht ▸ setCall_other _ hj _
  | rollback i inp next hp ht => exact ht ▸ setCall_other s hj _
  | failed i e failed hp ht => exact ht ▸ setCall_other s hj _

theorem committing_caller {a : Action n ι ε} {k : Fin n} {ws : List ω}
    (hc : s.committing a = some (k, ws)) : k = a.caller := by
  cases a with
  | run i inp =>
    cases hp : (s.call i).prog with
    | commit next failed =>
      simp only [committing, hp, Option.some.injEq, Prod.mk.injEq] at hc
      exact hc.1.symm
    | ret a => simp [committing, hp] at hc
    | raise e => simp [committing, hp] at hc
    | stmt writes next failed => simp [committing, hp] at hc
    | rollback next => simp [committing, hp] at hc
  | fail i e => cases hc

/-- A step of another caller adds no commit of this one. -/
theorem step_log_other {a : Action n ι ε} (h : s.step E a = some t) {j : Fin n}
    (hj : j ≠ a.caller) (hlog : ∀ e ∈ s.world.log, e.1 ≠ j) : ∀ e ∈ t.world.log, e.1 ≠ j := by
  intro e he
  rw [step_log h] at he
  rcases List.mem_append.mp he with he | he
  · exact hlog e he
  · obtain hc := Option.mem_toList.mp he
    exact fun hej => hj (hej ▸ committing_caller hc)

end Sys

section
variable {E : Engine ι σ ω}

/-- What the contract allows and guarantees, `C` does too. -/
structure Contract.Strengthens (C' C : Contract n E) : Prop where
  inv : ∀ W, C'.inv W → C.inv W
  assume : ∀ k W ws, C'.assume k W ws → C.assume k W ws
  guar : ∀ k W ws, C'.guar k W ws → C.guar k W ws
  quiet : ∀ i k W ws, C'.quiet i k W ws → C.quiet i k W ws

/-- The commits of the caller that meet the guarantee of `C` meet that of `C'`. -/
def Contract.Keeps (C' C : Contract n E) (i : Fin n) : Prop :=
  ∀ W ws, C'.inv W → C'.assume i W ws → C.guar i W ws → C'.guar i W ws

variable {C C' : Contract n E} {i : Fin n}

theorem Interference.strengthen (h : C'.Strengthens C) {ws : List ω} {W V : World n ι σ ω}
    (hV : Interference C' i ws W V) : Interference C i ws W V := by
  induction hV with
  | refl => exact .refl _
  | consume inp _ hi hf ih => exact .consume inp ih (h.inv _ hi) hf
  | commit k vs _ hi ha hg hq hc ih =>
    exact .commit k vs ih (h.inv _ hi) (h.assume _ _ _ ha) (h.guar _ _ _ hg) (h.quiet _ _ _ _ hq)
      hc

theorem wlp_strengthen (h : C'.Strengthens C) (hown : C'.Keeps C i) {p : Prog ι σ ω ε α}
    {Q : α → Local σ ω → World n ι σ ω → Prop} {X : ε → Local σ ω → World n ι σ ω → Prop}
    {l : Local σ ω} {W : World n ι σ ω} (hp : wlp C i p Q X l W) : wlp C' i p Q X l W := by
  induction p generalizing l W with
  | ret a => exact fun V hV => hp V (hV.strengthen h)
  | raise e => exact fun V hV => hp V (hV.strengthen h)
  | stmt writes next failed ihn ihf =>
    intro V hV hi
    obtain ⟨hn, hf⟩ := hp V (hV.strengthen h) (h.inv V hi)
    exact ⟨fun inp hinp => ihn _ _ (hn inp hinp), fun e => ihf _ (hf e)⟩
  | commit next failed ihn ihf =>
    intro V hV hi
    obtain ⟨hn, hf⟩ := hp V (hV.strengthen h) (h.inv V hi)
    refine ⟨fun ha => ?_, fun e => ihf _ (hf e)⟩
    obtain ⟨hg, hnext⟩ := hn (h.assume _ _ _ ha)
    exact ⟨hown V _ hi ha hg, ihn hnext⟩
  | rollback next ih => exact fun V hV => ih (hp V (hV.strengthen h))

variable {progs : Fin n → Prog ι σ ω ε α} {Q : Fin n → α → List σ → World n ι σ ω → Prop}

theorem CallOk.strengthen {c : Call ι σ ω ε α} {W : World n ι σ ω} (h : C'.Strengthens C)
    (hown : c.started = true → C'.Keeps C i) (hc : CallOk C progs Q i c W) :
    CallOk C' progs Q i c W := by
  rcases hc with hc | ⟨hstart, hw⟩
  · exact Or.inl hc
  · refine Or.inr ⟨hstart, ?_⟩
    split at hw
    · rename_i a ha
      simpa only [ha] using hw
    · trivial
    · exact wlp_strengthen h (hown hstart) hw

/-- The callers go on under the stronger contract. -/
theorem Sys.Ok.strengthen {s : Sys n ι σ ω ε α} (hs : s.Ok C progs Q) (h : C'.Strengthens C)
    (hinv : C'.inv s.world) (hown : ∀ i, (s.call i).started = true → C'.Keeps C i) :
    s.Ok C' progs Q :=
  ⟨hinv, hs.apart, fun i => (hs.call i).strengthen h (hown i)⟩

/-- They do while one of them, in order under the stronger contract, goes on with a program
of its own. -/
theorem Sys.Ok.strengthen_except {s : Sys n ι σ ω ε α} (hs : s.Ok C progs Q)
    (h : C'.Strengthens C) (hinv : C'.inv s.world) (j : Fin n) (p : Prog ι σ ω ε α)
    (hown : ∀ i, i ≠ j → C'.Keeps C i)
    (hj : CallOk C' (Function.update progs j p) Q j (s.call j) s.world) :
    s.Ok C' (Function.update progs j p) Q := by
  refine ⟨hinv, hs.apart, fun i => ?_⟩
  by_cases hij : i = j
  · exact hij ▸ hj
  · have hi := (hs.call i).strengthen h fun _ => hown i hij
    unfold CallOk at hi ⊢
    rw [Function.update_of_ne hij]
    exact hi

end

end EnvVault.Transactions
