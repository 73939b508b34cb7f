import EnvVault.RelyGuarantee
import EnvVault.StagedRuns

/-!
# What an undisturbed call raises

`wlp` follows a program through failing statements too, so it says nothing of the
exceptions a program raises by itself. Here no statement fails and the inputs are
those that a condition admits: the program is followed to its outcome, a result or an
exception, through every interference of the others.
-/
namespace EnvVault.Transactions

variable {n : ℕ} {ι σ ω ε α β : Type}

/-- The program with its exceptions as results. It answers `none` to an input that is not
admitted. -/
def Prog.undisturbed (ok : ι → Bool) :
    Prog ι σ ω ε α → Prog ι σ ω ε (Option (Except ε α))
  | .ret a => .ret (some (.ok a))
  | .raise e => .ret (some (.error e))
  | .stmt writes next _ =>
      .stmt writes (fun inp v => bif ok inp then (next inp v).undisturbed ok else .ret none) .raise
  | .commit next _ => .commit (next.undisturbed ok) .raise
  | .rollback next => .rollback (next.undisturbed ok)

/-- The action lets a caller do its next step with an admitted input. -/
def Action.Admitted {ε : Type} (ok : ι → Bool) : Action n ι ε → Prop
  | .run _ inp => ok inp = true
  | .fail _ _ => False

theorem Action.Admitted.proceeds {ok : ι → Bool} {a : Action n ι ε} (h : a.Admitted ok) :
    a.Proceeds := by
  cases a with
  | run i inp => trivial
  | fail i e => exact h.elim

/-- The call with this program in its place. -/
def Call.undisturbed (ok : ι → Bool) (c : Call ι σ ω ε α) : Call ι σ ω ε (Option (Except ε α)) :=
  ⟨c.prog.undisturbed ok, c.pending, c.seen, c.started⟩

def Sys.undisturbed (ok : ι → Bool) (s : Sys n ι σ ω ε α) : Sys n ι σ ω ε (Option (Except ε α)) :=
  ⟨s.world, fun i => (s.call i).undisturbed ok⟩

theorem Sys.undisturbed_setCall (ok : ι → Bool) (s : Sys n ι σ ω ε α) (i : Fin n)
    (c : Call ι σ ω ε α) (W : World n ι σ ω) :
    Sys.undisturbed ok (({ s with world := W } : Sys n ι σ ω ε α).setCall i c) =
      ({ s.undisturbed ok with world := W } : Sys n ι σ ω ε _).setCall i (c.undisturbed ok) := by
  simp only [Sys.undisturbed, Sys.setCall, Sys.mk.injEq, true_and]
  funext j
  by_cases hj : j = i
  · subst hj
    simp
  · simp [hj]

theorem Sys.undisturbed_step {E : Engine ι σ ω} {ok : ι → Bool} {s t : Sys n ι σ ω ε α}
    {a : Action n ι ε} (ha : a.Admitted ok) (h : s.step E a = some t) :
    (s.undisturbed ok).step E a = some (t.undisturbed ok) := by
  cases Sys.step_cases h with
  | closed i inp hp ht =>
    rw [ht]
    have hclose := Sys.undisturbed_setCall ok s i (s.call i).close s.world
    rcases hp with ⟨a, hp⟩ | ⟨e, hp⟩ <;>
      simpa [Sys.step, Sys.undisturbed, Call.undisturbed, Prog.undisturbed, Call.close, hp]
        using hclose.symm
  | stmt i inp writes next failed hp fresh free ht =>
    rw [ht, Sys.undisturbed_setCall]
    have hok : ok inp = true := ha
    have hfree : Sys.Free E (s.undisturbed ok) i (writes inp (E.view (s.call i).pending
      s.world.db)) := free
    simp only [Sys.step, Sys.undisturbed, Call.undisturbed, hp, Prog.undisturbed, hok, cond_true]
    exact if_pos ⟨fresh, hfree⟩
  | commit i inp next failed hp ht =>
    rw [ht, Sys.undisturbed_setCall]
    simp [Sys.step, Sys.undisturbed, Call.undisturbed, hp, Prog.undisturbed]
  | rollback i inp next hp ht =>
    rw [ht]
    have hset := Sys.undisturbed_setCall ok s i ⟨next, [], (s.call i).seen, true⟩ s.world
    simpa [Sys.step, Sys.undisturbed, Call.undisturbed, hp, Prog.undisturbed] using hset.symm
  | failed i e failed hp ht => exact ha.elim

/-- A run whose actions are all admitted is a run of the undisturbed programs. -/
theorem Sys.undisturbed_run {E : Engine ι σ ω} {ok : ι → Bool} {s t : Sys n ι σ ω ε α}
    {as : List (Action n ι ε)} (ha : ∀ a ∈ as, a.Admitted ok) (h : s.run E as = some t) :
    (s.undisturbed ok).run E as = some (t.undisturbed ok) := by
  refine Sys.run_invariant (I := fun pre u => (s.undisturbed ok).run E pre =
    some (u.undisturbed ok)) h rfl ?_
  intro pre a u u' hpre _ hu hstep
  rw [Sys.run_snoc, hu]
  exact Sys.undisturbed_step (ha a (Runs.action_mem hpre)) hstep

section Rules
variable {E : Engine ι σ ω} {C : Contract n E} {ok : ι → Bool} {i : Fin n}

/-- `Q` of a result and `X` of an exception. -/
def Outcome (Q : α → Local σ ω → World n ι σ ω → Prop) (X : ε → Local σ ω → World n ι σ ω → Prop) :
    Option (Except ε α) → Local σ ω → World n ι σ ω → Prop
  | some (.ok a) => Q a
  | some (.error e) => X e
  | none => fun _ _ => True

/-- However the others interfere, the program reaches an outcome that satisfies `Q` or `X`. -/
def Reaches (C : Contract n E) (ok : ι → Bool) (i : Fin n) (p : Prog ι σ ω ε α)
    (Q : α → Local σ ω → World n ι σ ω → Prop) (X : ε → Local σ ω → World n ι σ ω → Prop)
    (l : Local σ ω) (W : World n ι σ ω) : Prop :=
  wlp C i (p.undisturbed ok) (Outcome Q X) (fun _ _ _ => True) l W

variable {p : Prog ι σ ω ε α} {Q : β → Local σ ω → World n ι σ ω → Prop}
  {X : ε → Local σ ω → World n ι σ ω → Prop} {l : Local σ ω} {W : World n ι σ ω}

/-- What the others do before the first statement makes no difference. -/
theorem Reaches.interference {V : World n ι σ ω} {q : Prog ι σ ω ε β}
    (h : Reaches C ok i q Q X l W) (hV : Interference C i l.pending W V) :
    Reaches C ok i q Q X l V :=
  wlp_interference h hV

theorem Reaches.mono {Q' : β → Local σ ω → World n ι σ ω → Prop} {q : Prog ι σ ω ε β}
    (h : Reaches C ok i q Q X l W) (hQ : ∀ a l V, Q a l V → Q' a l V) :
    Reaches C ok i q Q' X l W := by
  refine wlp_mono (fun r l V hr => ?_) (fun _ _ _ he => he) h
  match r, hr with
  | some (.ok a), hr => exact hQ a l V hr
  | some (.error e), hr => exact hr
  | none, _ => trivial

theorem reaches_ret {a : β} (h : ∀ V, Interference C i l.pending W V → Q a l V) :
    Reaches C ok i (.ret a) Q X l W := h

theorem reaches_raise {e : ε} (h : ∀ V, Interference C i l.pending W V → X e l V) :
    Reaches C ok i (.raise e : Prog ι σ ω ε β) Q X l W := h

/-- One program after the other. -/
theorem reaches_bind {f : α → Prog ι σ ω ε β}
    (h : Reaches C ok i p (fun a l V => Reaches C ok i (f a) Q X l V) X l W) :
    Reaches C ok i (p.bind f) Q X l W := by
  induction p generalizing l W with
  | ret a => exact h W (.refl W)
  | raise e => exact h
  | stmt writes next failed ihn ihf =>
    intro V hV hi
    obtain ⟨hn, hf⟩ := h V hV hi
    refine ⟨fun inp hinp => ?_, fun e U _ => trivial⟩
    have hinp := hn inp hinp
    dsimp only at hinp ⊢
    cases hok : ok inp with
    | false => exact fun U _ => trivial
    | true =>
      rw [hok] at hinp
      exact ihn _ _ hinp
  | commit next failed ihn ihf =>
    intro V hV hi
    obtain ⟨hn, hf⟩ := h V hV hi
    exact ⟨fun ha => ⟨(hn ha).1, ihn (hn ha).2⟩, fun e U _ => trivial⟩
  | rollback next ih => exact fun V hV => ih (h V hV)

/-- A handler goes on from the exceptions of the body. -/
theorem reaches_handle {q : Prog ι σ ω ε β} {f : ε → Prog ι σ ω ε β}
    (h : Reaches C ok i q Q (fun e l V => Reaches C ok i (f e) Q X l V) l W) :
    Reaches C ok i (q.handle f) Q X l W := by
  induction q generalizing l W with
  | ret a => exact h
  | raise e => exact h W (.refl W)
  | stmt writes next failed ihn ihf =>
    intro V hV hi
    obtain ⟨hn, hf⟩ := h V hV hi
    refine ⟨fun inp hinp => ?_, fun e U _ => trivial⟩
    have hinp := hn inp hinp
    dsimp only at hinp ⊢
    cases hok : ok inp with
    | false => exact fun U _ => trivial
    | true =>
      rw [hok] at hinp
      exact ihn _ _ hinp
  | commit next failed ihn ihf =>
    intro V hV hi
    obtain ⟨hn, hf⟩ := h V hV hi
    exact ⟨fun ha => ⟨(hn ha).1, ihn (hn ha).2⟩, fun e U _ => trivial⟩
  | rollback next ih => exact fun V hV => ih (h V hV)

/-- One statement: it answers, or it raises and the open transaction stays as it is. -/
theorem reaches_statement_bind {f : ι → σ → Except ε (List ω × α)} {k : α → Prog ι σ ω ε β}
    {A : World n ι σ ω → Prop} (hA : Stable C i l.pending A) (hW : A W)
    (hX : ∀ e seen, Stable C i l.pending (X e ⟨l.pending, seen⟩))
    (h : ∀ V inp, A V → C.inv V → E.fresh V.past inp = true → ok inp = true →
      (∃ ws a, f inp (E.view l.pending V.db) = .ok (ws, a) ∧
        Reaches C ok i (k a) Q X ⟨l.pending ++ ws, V.db :: l.seen⟩ (V.consume inp)) ∨
      ∃ e, f inp (E.view l.pending V.db) = .error e ∧
        X e ⟨l.pending, V.db :: l.seen⟩ (V.consume inp)) :
    Reaches C ok i ((Prog.statement f).bind k) Q X l W := by
  refine reaches_bind ?_
  intro V hV hi
  refine ⟨fun inp hinp => ?_, fun e U _ => trivial⟩
  dsimp only
  cases hok : ok inp with
  | false => exact fun U _ => trivial
  | true =>
    rcases h V inp (hA W V hV hW) hi hinp hok with ⟨ws, a, hf, hk⟩ | ⟨e, hf, hx⟩
    · rw [hf]
      exact fun U hU => hk.interference hU
    · rw [hf, Prog.answerWrites_error, List.append_nil]
      exact fun U hU => hX e _ _ U hU hx

/-- One statement that answers. -/
theorem reaches_answer_bind {f : ι → σ → Except ε (List ω × α)} {k : α → Prog ι σ ω ε β}
    {A : World n ι σ ω → Prop} (hA : Stable C i l.pending A) (hW : A W)
    (h : ∀ V inp, A V → C.inv V → E.fresh V.past inp = true → ok inp = true →
      ∃ ws a, f inp (E.view l.pending V.db) = .ok (ws, a) ∧
        Reaches C ok i (k a) Q X ⟨l.pending ++ ws, V.db :: l.seen⟩ (V.consume inp)) :
    Reaches C ok i ((Prog.statement f).bind k) Q X l W := by
  refine reaches_bind ?_
  intro V hV hi
  refine ⟨fun inp hinp => ?_, fun e U _ => trivial⟩
  dsimp only
  cases hok : ok inp with
  | false => exact fun U _ => trivial
  | true =>
    obtain ⟨ws, a, hf, hk⟩ := h V inp (hA W V hV hW) hi hinp hok
    rw [hf]
    exact fun U hU => hk.interference hU

/-- The COMMIT publishes the pending writes and leaves none. -/
theorem reaches_commit_bind {k : Unit → Prog ι σ ω ε β} {A : World n ι σ ω → Prop}
    (hA : Stable C i l.pending A) (hW : A W)
    (h : ∀ V, A V → C.inv V → C.assume i V l.pending → C.guar i V l.pending ∧
      Reaches C ok i (k ()) Q X ⟨[], V.db :: l.seen⟩ (V.commit E i l.pending)) :
    Reaches C ok i (Prog.commitNow.bind k) Q X l W := by
  refine reaches_bind ?_
  intro V hV hi
  refine ⟨fun ha => ?_, fun e U _ => trivial⟩
  obtain ⟨hg, hk⟩ := h V (hA W V hV hW) hi ha
  exact ⟨hg, fun U hU => hk.interference hU⟩

theorem reaches_rollback_bind {k : Unit → Prog ι σ ω ε β}
    (h : ∀ V, Interference C i l.pending W V → Reaches C ok i (k ()) Q X ⟨[], l.seen⟩ V) :
    Reaches C ok i (Prog.rollbackNow.bind k) Q X l W := by
  refine reaches_bind ?_
  exact fun V hV U hU => (h V hV).interference hU

end Rules

/-- Over views that satisfy `D` the program reads with so many statements, and what it
returns satisfies `P`. -/
def Prog.Finds (ok : ι → Bool) (D : σ → Prop) (P : α → Prop) : ℕ → Prog ι σ ω ε α → Prop
  | k, .ret a => k = 0 ∧ P a
  | _, .raise _ => False
  | k, .stmt writes next _ => ∃ j, k = j + 1 ∧ ∀ inp v, ok inp = true → D v →
      writes inp v = [] ∧ (next inp v).Finds ok D P j
  | _, .commit _ _ => False
  | _, .rollback _ => False

namespace Prog
variable {ok : ι → Bool} {D : σ → Prop} {P : α → Prop} {R : β → Prop}

theorem finds_ret {a : α} (h : P a) : (ret a : Prog ι σ ω ε α).Finds ok D P 0 := ⟨rfl, h⟩

theorem finds_statement {f : ι → σ → Except ε (List ω × α)}
    (h : ∀ inp v, ok inp = true → D v → ∃ a, f inp v = .ok ([], a) ∧ P a) :
    (statement f).Finds ok D P 1 := by
  refine ⟨0, rfl, fun inp v hok hv => ?_⟩
  obtain ⟨a, hf, ha⟩ := h inp v hok hv
  dsimp only
  rw [hf]
  exact ⟨rfl, rfl, ha⟩

theorem Finds.bind {j k : ℕ} {p : Prog ι σ ω ε α} {f : α → Prog ι σ ω ε β}
    (hp : p.Finds ok D P j) (hf : ∀ a, P a → (f a).Finds ok D R k) :
    (p.bind f).Finds ok D R (j + k) := by
  induction p generalizing j with
  | ret a =>
    obtain ⟨rfl, ha⟩ := hp
    rw [Nat.zero_add]
    exact hf a ha
  | raise e => exact hp.elim
  | stmt writes next failed ihn ihf =>
    obtain ⟨j, rfl, hp⟩ := hp
    refine ⟨j + k, by omega, fun inp v hok hv => ?_⟩
    obtain ⟨hw, hnext⟩ := hp inp v hok hv
    exact ⟨hw, ihn inp v hnext⟩
  | commit next failed ihn ihf => exact hp.elim
  | rollback next ih => exact hp.elim

end Prog

/-- Queries that a stable assertion answers. -/
theorem reaches_finds_bind {E : Engine ι σ ω} {C : Contract n E} {ok : ι → Bool} {i : Fin n}
    {p : Prog ι σ ω ε α} {f : α → Prog ι σ ω ε β} {Q : β → Local σ ω → World n ι σ ω → Prop}
    {X : ε → Local σ ω → World n ι σ ω → Prop} {l : Local σ ω} {W : World n ι σ ω}
    {D : σ → Prop} {P : α → Prop} {k : ℕ} (hp : p.Finds ok D P k) {A : World n ι σ ω → Prop}
    (hA : Stable C i l.pending A) (hW : A W)
    (hD : ∀ V, A V → C.inv V → D (E.view l.pending V.db))
    (h : ∀ a seen V, P a → l.seen <:+ seen → seen.length = l.seen.length + k → A V →
      Reaches C ok i (f a) Q X ⟨l.pending, seen⟩ V) :
    Reaches C ok i (p.bind f) Q X l W := by
  refine reaches_bind ?_
  induction p generalizing k l W with
  | ret a =>
    obtain ⟨rfl, ha⟩ := hp
    exact fun V hV => h a l.seen V ha (List.suffix_refl _) rfl (hA W V hV hW)
  | raise e => exact hp.elim
  | stmt writes next failed ihn ihf =>
    obtain ⟨j, rfl, hp⟩ := hp
    intro V hV hi
    refine ⟨fun inp hinp => ?_, fun e U _ => trivial⟩
    have hAV := hA W V hV hW
    dsimp only
    cases hok : ok inp with
    | false => exact fun U _ => trivial
    | true =>
      obtain ⟨hw, hnext⟩ := hp inp _ hok (hD V hAV hi)
      rw [hw, List.append_nil]
      have hAc : A (V.consume inp) := hA V _ (.consume inp (.refl V) hi hinp) hAV
      refine ihn inp _ hnext hA hAc hD fun a seen U ha hs hlen hAU => ?_
      refine h a seen U ha ((List.suffix_cons _ _).trans hs) ?_ hAU
      rw [hlen, List.length_cons]
      omega
  | commit next failed ihn ihf => exact hp.elim
  | rollback next ih => exact hp.elim

section Soundness
variable {E : Engine ι σ ω} {C : Contract n E} {ok : ι → Bool}
  {progs : Fin n → Prog ι σ ω ε α} {Q : Fin n → α → List σ → World n ι σ ω → Prop}
  {X : Fin n → ε → List σ → World n ι σ ω → Prop} {s t : Sys n ι σ ω ε α} {W : World n ι σ ω}

theorem Sys.undisturbed_committing (s : Sys n ι σ ω ε α) (a : Action n ι ε) :
    (s.undisturbed ok).committing a = s.committing a := by
  cases a with
  | fail i e => rfl
  | run i inp =>
    simp only [Sys.committing, Sys.undisturbed, Call.undisturbed]
    cases (s.call i).prog <;> rfl

theorem Sys.undisturbed_inProgress {i : Fin n} (h : (s.undisturbed ok).InProgress i) :
    s.InProgress i := by
  refine ⟨h.1, ?_⟩
  have hprog := h.2
  simp only [Sys.undisturbed, Call.undisturbed] at hprog
  cases hp : (s.call i).prog with
  | ret a => simp [hp, Prog.undisturbed] at hprog
  | raise e => simp [hp, Prog.undisturbed] at hprog
  | _ => trivial

theorem Contract.Allows.undisturbed {a : Action n ι ε} (h : C.Allows s a) :
    C.Allows (s.undisturbed ok) a := by
  intro k ws hc
  rw [Sys.undisturbed_committing] at hc
  exact ⟨(h k ws hc).1, fun i hi hp => (h k ws hc).2 i hi (Sys.undisturbed_inProgress hp)⟩

theorem Sys.Each.undisturbed {as : List (Action n ι ε)} (hok : ∀ a ∈ as, a.Admitted ok)
    (h : s.Each E C.Allows as) (hr : s.run E as = some t) :
    (s.undisturbed ok).Each E C.Allows as := by
  intro pre a u hpre hu
  obtain ⟨post, rfl⟩ := hpre
  rw [List.append_assoc, Sys.run_append, Option.bind_eq_some_iff] at hr
  obtain ⟨m, hm, -⟩ := hr
  have hm' := Sys.undisturbed_run (fun b hb => hok b (by simp [hb])) hm
  obtain rfl : m.undisturbed ok = u := Option.some.inj (hm'.symm.trans hu)
  exact (h pre a m ⟨post, rfl⟩ hm).undisturbed

/-- An outcome as the result of the undisturbed program. -/
def Concluded (Q : Fin n → α → List σ → World n ι σ ω → Prop)
    (X : Fin n → ε → List σ → World n ι σ ω → Prop) (i : Fin n) :
    Option (Except ε α) → List σ → World n ι σ ω → Prop
  | some (.ok a) => Q i a
  | some (.error e) => X i e
  | none => fun _ _ => True

theorem Concluded.lasting (hQ : Lasting (E := E) Q) (hX : Lasting (E := E) X) :
    Lasting (E := E) (Concluded Q X) where
  consume i r seen W inp h := by
    match r, h with
    | some (.ok a), h => exact hQ.consume i a seen W inp h
    | some (.error e), h => exact hX.consume i e seen W inp h
    | none, _ => trivial
  commit i r seen W k ws h := by
    match r, h with
    | some (.ok a), h => exact hQ.commit i a seen W k ws h
    | some (.error e), h => exact hX.commit i e seen W k ws h
    | none, _ => trivial

/-- The outcomes of the calls of a run without failures satisfy what their programs reach. -/
theorem reaches_run (hm : ∀ i W, C.inv W → Reaches C ok i (progs i)
      (fun a l V => Q i a l.seen V) (fun e l V => X i e l.seen V) ⟨[], []⟩ W)
    (hQ : Lasting (E := E) Q) (hX : Lasting (E := E) X) (hW : C.inv W)
    {as : List (Action n ι ε)} (hok : ∀ a ∈ as, a.Admitted ok)
    (ha : (Sys.initial W progs).Each E C.Allows as)
    (hr : (Sys.initial W progs).run E as = some s) : C.inv s.world ∧
      (∀ i a, (s.call i).prog = .ret a → Q i a (s.call i).seen s.world) ∧
      ∀ i e, (s.call i).prog = .raise e → X i e (s.call i).seen s.world := by
  have hmeets : C.Meets (fun i => (progs i).undisturbed ok) (Concluded Q X) := by
    intro i V hV
    refine wlp_mono (fun r l U h => ?_) (fun _ _ _ h => h) (hm i V hV)
    match r, h with
    | some (.ok a), h => exact h
    | some (.error e), h => exact h
    | none, _ => trivial
  have hok' : (s.undisturbed ok).Ok C (fun i => (progs i).undisturbed ok) (Concluded Q X) :=
    (Sys.Ok.initial hW).run hmeets (Concluded.lasting hQ hX) (ha.undisturbed hok hr)
      (Sys.undisturbed_run hok hr)
  refine ⟨hok'.inv, fun i a hp => ?_, fun i e hp => ?_⟩
  · have hret : ((s.undisturbed ok).call i).prog = .ret (some (.ok a)) := by
      simp [Sys.undisturbed, Call.undisturbed, hp, Prog.undisturbed]
    exact (hok'.call i).ret hmeets hok'.inv hret
  · have hret : ((s.undisturbed ok).call i).prog = .ret (some (.error e)) := by
      simp [Sys.undisturbed, Call.undisturbed, hp, Prog.undisturbed]
    exact (hok'.call i).ret hmeets hok'.inv hret

end Soundness

end EnvVault.Transactions
