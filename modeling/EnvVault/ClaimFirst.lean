import EnvVault.CommitOnce
import EnvVault.Undisturbed

/-!
# Programs that claim before they write

Where the first writes of every transaction are a claim, and two claims exclude each
other, one caller at most has writes pending. It waits for nobody, so a run never gets
stuck.
-/
namespace EnvVault.Transactions

variable {n : ℕ} {ι σ ω ε α β : Type}

/-- With admitted inputs and over views that satisfy `D`, writes follow a claim only; the
flag says whether the open transaction holds one. -/
def Prog.ClaimsFirst (ok : ι → Bool) (D : σ → Prop) (K : List ω → Prop) :
    Prog ι σ ω ε α → Bool → Prop
  | .ret _, _ => True
  | .raise _, _ => True
  | .stmt writes next _, held => ∀ inp v, ok inp = true → held = true ∨ D v →
      (held = false ∧ writes inp v = [] ∧ (next inp v).ClaimsFirst ok D K false) ∨
        ((held = true ∨ K (writes inp v)) ∧ (next inp v).ClaimsFirst ok D K true)
  | .commit next _, _ => next.ClaimsFirst ok D K false
  | .rollback next, _ => next.ClaimsFirst ok D K false

namespace Prog
variable {ok : ι → Bool} {D : σ → Prop} {K : List ω → Prop} {p : Prog ι σ ω ε α}
  {f : α → Prog ι σ ω ε β} {held : Bool}

theorem GivesUp.claimsFirst (hp : p.GivesUp) (held : Bool) : p.ClaimsFirst ok D K held := by
  induction p generalizing held with
  | rollback next ih => exact ih hp false
  | raise e => trivial
  | ret a => exact hp.elim
  | stmt writes next failed ihn ihf => exact hp.elim
  | commit next failed ihn ihf => exact hp.elim

/-- Queries leave the transaction without a claim. -/
theorem Reads.bind_claimsFirst {P : α → Prop} (hp : p.Reads P)
    (hf : ∀ a, P a → (f a).ClaimsFirst ok D K false) : (p.bind f).ClaimsFirst ok D K false := by
  induction p with
  | ret a => exact hf a hp
  | raise e => trivial
  | stmt writes next failed ihn ihf =>
    exact fun inp v _ _ => Or.inl ⟨rfl, hp.1 inp v, ihn inp v (hp.2.1 inp v)⟩
  | commit next failed ihn ihf => exact hp.elim
  | rollback next ih => exact hp.elim

theorem Finds.bind_claimsFirst {P : α → Prop} {k : ℕ} (hp : p.Finds ok D P k)
    (hf : ∀ a, P a → (f a).ClaimsFirst ok D K false) : (p.bind f).ClaimsFirst ok D K false := by
  induction p generalizing k with
  | ret a => exact hf a hp.2
  | raise e => trivial
  | stmt writes next failed ihn ihf =>
    obtain ⟨j, -, hp⟩ := hp
    intro inp v hok hv
    obtain ⟨hw, hn⟩ := hp inp v hok (hv.resolve_left Bool.false_ne_true)
    exact Or.inl ⟨rfl, hw, ihn inp v hn⟩
  | commit next failed ihn ihf => exact hp.elim
  | rollback next ih => exact hp.elim

/-- A statement that claims whenever it succeeds. -/
theorem claimsFirst_statement_bind {g : ι → σ → Except ε (List ω × α)}
    (hg : ∀ inp v ws a, g inp v = .ok (ws, a) → K ws)
    (hf : ∀ a, (f a).ClaimsFirst ok D K true) :
    ((statement g).bind f).ClaimsFirst ok D K false := by
  intro inp v _ _
  dsimp only
  cases hr : g inp v with
  | ok r => exact Or.inr ⟨Or.inr (hg inp v r.1 r.2 hr), hf r.2⟩
  | error e => exact Or.inl ⟨rfl, rfl, trivial⟩

/-- Under a claim the program may write anything. -/
theorem Preliminary.bind_claimsFirst (hp : p.Preliminary)
    (hf : ∀ a, (f a).ClaimsFirst ok D K true) : (p.bind f).ClaimsFirst ok D K true := by
  induction p with
  | ret a => exact hf a
  | raise e => trivial
  | stmt writes next failed ihn ihf =>
    exact fun inp v _ _ => Or.inr ⟨Or.inl rfl, ihn inp v (hp.1 inp v)⟩
  | commit next failed ihn ihf => exact hp.elim
  | rollback next ih => exact hp.elim

theorem claimsFirst_commitNow_bind {k : Unit → Prog ι σ ω ε β}
    (hk : (k ()).ClaimsFirst ok D K false) : (commitNow.bind k).ClaimsFirst ok D K held := hk

theorem ClaimsFirst.map {g : α → β} (hp : p.ClaimsFirst ok D K held) :
    (p.bind fun a => ret (g a)).ClaimsFirst ok D K held := by
  induction p generalizing held with
  | ret a => trivial
  | raise e => trivial
  | stmt writes next failed ihn ihf =>
    intro inp v hok hv
    rcases hp inp v hok hv with ⟨hheld, hw, hn⟩ | ⟨hheld, hn⟩
    · exact Or.inl ⟨hheld, hw, ihn inp v hn⟩
    · exact Or.inr ⟨hheld, ihn inp v hn⟩
  | commit next failed ihn ihf => exact ihn hp
  | rollback next ih => exact ih hp

theorem ClaimsFirst.handle {h : ε → Prog ι σ ω ε α} (hp : p.ClaimsFirst ok D K held)
    (hh : ∀ e, (h e).GivesUp) : (p.handle h).ClaimsFirst ok D K held := by
  induction p generalizing held with
  | ret a => trivial
  | raise e => exact (hh e).claimsFirst held
  | stmt writes next failed ihn ihf =>
    intro inp v hok hv
    rcases hp inp v hok hv with ⟨hheld, hw, hn⟩ | ⟨hheld, hn⟩
    · exact Or.inl ⟨hheld, hw, ihn inp v hn⟩
    · exact Or.inr ⟨hheld, ihn inp v hn⟩
  | commit next failed ihn ihf => exact ihn hp
  | rollback next ih => exact ih hp

end Prog

section
variable {E : Engine ι σ ω} {ok : ι → Bool} {D : σ → Prop} {K : List ω → Prop}
  {s t : Sys n ι σ ω ε α}

/-- Nothing is pending, or a claim is. -/
def Call.Claiming (ok : ι → Bool) (D : σ → Prop) (K : List ω → Prop) (c : Call ι σ ω ε α) : Prop :=
  c.pending = [] ∧ c.prog.ClaimsFirst ok D K false ∨ K c.pending ∧ c.prog.ClaimsFirst ok D K true

theorem Call.claiming_close {c : Call ι σ ω ε α}
    (hp : (∃ a, c.prog = .ret a) ∨ ∃ e, c.prog = .raise e) : c.close.Claiming ok D K := by
  refine Or.inl ⟨rfl, ?_⟩
  rcases hp with ⟨a, hp⟩ | ⟨e, hp⟩
  · rw [Call.close, hp]
    trivial
  · rw [Call.close, hp]
    trivial

theorem Sys.claiming_step (hK : ∀ ws vs, K ws → K (ws ++ vs)) (hD : D s.world.db)
    (h : ∀ i, (s.call i).Claiming ok D K) {a : Action n ι ε} (ha : a.Admitted ok)
    (hs : s.step E a = some t) : ∀ i, (t.call i).Claiming ok D K := by
  have hset : ∀ (i : Fin n) (V : World n ι σ ω) (c : Call ι σ ω ε α), c.Claiming ok D K →
      ∀ j, ((({ s with world := V } : Sys n ι σ ω ε α).setCall i c).call j).Claiming ok D K := by
    intro i V c hc
    exact Sys.forall_setCall (P := fun _ c => c.Claiming ok D K) hc fun j _ => h j
  cases Sys.step_cases hs with
  | closed i inp hp ht =>
    rw [ht]
    exact hset i s.world _ (Call.claiming_close hp)
  | stmt i inp writes next failed hp fresh free ht =>
    rw [ht]
    refine hset i _ _ ?_
    have hi := h i
    rw [Call.Claiming, hp] at hi
    rcases hi with ⟨hnil, hc⟩ | ⟨hheld, hc⟩
    · have hview : D (E.view (s.call i).pending s.world.db) := by rwa [hnil, Engine.view_nil]
      rcases hc inp _ ha (Or.inr hview) with ⟨-, hw, hn⟩ | ⟨hw, hn⟩
      · refine Or.inl ⟨?_, hn⟩
        dsimp only
        rw [hw, List.append_nil]
        exact hnil
      · refine Or.inr ⟨?_, hn⟩
        have happend : (s.call i).pending ++ writes inp (E.view (s.call i).pending s.world.db) =
            writes inp (E.view (s.call i).pending s.world.db) := by simpa using hnil
        dsimp only
        rw [happend]
        exact hw.resolve_left Bool.false_ne_true
    · rcases hc inp _ ha (Or.inl rfl) with ⟨hfalse, -⟩ | ⟨-, hn⟩
      · cases hfalse
      · exact Or.inr ⟨hK _ _ hheld, hn⟩
  | commit i inp next failed hp ht =>
    rw [ht]
    refine hset i _ _ (Or.inl ⟨rfl, ?_⟩)
    have hi := h i
    rw [Call.Claiming, hp] at hi
    rcases hi with ⟨-, hc⟩ | ⟨-, hc⟩
    exacts [hc, hc]
  | rollback i inp next hp ht =>
    rw [ht]
    refine hset i s.world _ (Or.inl ⟨rfl, ?_⟩)
    have hi := h i
    rw [Call.Claiming, hp] at hi
    rcases hi with ⟨-, hc⟩ | ⟨-, hc⟩
    exacts [hc, hc]
  | failed i e failed hp ht => exact ha.elim

theorem Sys.claiming_run (hK : ∀ ws vs, K ws → K (ws ++ vs)) {as : List (Action n ι ε)}
    (hD : ∀ pre u, pre <+: as → s.run E pre = some u → D u.world.db)
    (h : ∀ i, (s.call i).Claiming ok D K) (ha : ∀ a ∈ as, a.Admitted ok)
    (hr : s.run E as = some t) : ∀ i, (t.call i).Claiming ok D K := by
  refine Sys.run_invariant (I := fun _ u => ∀ i, (u.call i).Claiming ok D K) hr h ?_
  intro pre a u u' hpre hu hcl hstep
  have hdb : D u.world.db := hD pre u ((List.prefix_append _ _).trans hpre) hu
  exact Sys.claiming_step hK hdb hcl (ha a (Runs.action_mem hpre)) hstep

/-- Where nobody else has writes pending, a caller can take its next step. -/
theorem Sys.step_enabled {i : Fin n} (hidle : ∀ j, j ≠ i → (s.call j).pending = []) {inp : ι}
    (hfresh : E.fresh s.world.past inp = true) : ∃ t, s.step E (.run i inp) = some t := by
  have hfree : ∀ ws, s.Free E i ws := by
    intro ws j hj
    rw [hidle j hj]
    exact Engine.compatible_nil E ws
  cases hp : (s.call i).prog with
  | stmt writes next failed =>
    simp only [Sys.step, hp]
    exact ⟨_, if_pos ⟨hfresh, hfree _⟩⟩
  | ret a =>
    simp only [Sys.step, hp]
    exact ⟨_, rfl⟩
  | raise e =>
    simp only [Sys.step, hp]
    exact ⟨_, rfl⟩
  | commit next failed =>
    simp only [Sys.step, hp]
    exact ⟨_, rfl⟩
  | rollback next =>
    simp only [Sys.step, hp]
    exact ⟨_, rfl⟩

/-- The caller has left its program and its transaction. -/
def Call.Done (c : Call ι σ ω ε α) : Prop :=
  c.pending = [] ∧ ((∃ a, c.prog = .ret a) ∨ ∃ e, c.prog = .raise e)

/-- As long as somebody has something to do, somebody can do it. -/
theorem Sys.goes_on (h : ∀ i, (s.call i).Claiming ok D K)
    (hexcl : ∀ ws vs, K ws → K vs → ¬ E.Compatible ws vs)
    (hapart : ∀ i j, i ≠ j → E.Compatible (s.call i).pending (s.call j).pending)
    (hwork : ∃ i, ¬ (s.call i).Done) : ∃ i, ¬ (s.call i).Done ∧
      ∀ inp, E.fresh s.world.past inp = true → ∃ t, s.step E (.run i inp) = some t := by
  by_cases hidle : ∀ j, (s.call j).pending = []
  · obtain ⟨i, hi⟩ := hwork
    exact ⟨i, hi, fun inp hinp => Sys.step_enabled (fun j _ => hidle j) hinp⟩
  · obtain ⟨i, hi⟩ := not_forall.mp hidle
    have hclaim : K (s.call i).pending := by
      rcases h i with ⟨hnil, -⟩ | ⟨hclaim, -⟩
      · exact absurd hnil hi
      · exact hclaim
    refine ⟨i, fun hdone => hi hdone.1, fun inp hinp => Sys.step_enabled (fun j hj => ?_) hinp⟩
    rcases h j with ⟨hnil, -⟩ | ⟨hclaim', -⟩
    · exact hnil
    · exact absurd (hapart j i hj) (hexcl _ _ hclaim' hclaim)

end

end EnvVault.Transactions
