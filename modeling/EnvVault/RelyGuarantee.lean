import EnvVault.Transactions

/-!
# Rely and guarantee for interleaved transactions

A contract names an invariant of the committed world and what a commit of each
caller guarantees. `wlp` follows one program through every input, every failing
statement and every interference that the contract allows between two of its
steps; a system whose programs all satisfy their `wlp` keeps the invariant along
every run, whatever the schedule. A contract may also restrict the runs: a
condition assumed of every commit, and commits of others that an unfinished
caller is assumed not to meet.
-/
namespace EnvVault.Transactions

variable {n : ℕ} {ι σ ω ε α β : Type}

structure Contract (n : ℕ) {ι σ ω : Type} (E : Engine ι σ ω) where
  inv : World n ι σ ω → Prop
  guar : Fin n → World n ι σ ω → List ω → Prop
  /-- Assumed of every commit of the run. -/
  assume : Fin n → World n ι σ ω → List ω → Prop
  /-- `quiet i k W ws`: caller `i`, while in progress, may meet this commit of `k`. -/
  quiet : Fin n → Fin n → World n ι σ ω → List ω → Prop
  inv_consume : ∀ W inp, inv W → E.fresh W.past inp = true → inv (W.consume inp)
  inv_commit : ∀ k W ws, inv W → assume k W ws → guar k W ws → inv (W.commit E k ws)

/-- What the other callers may do to the world between two steps of caller `i`,
which holds the pending writes `ws`. -/
inductive Interference {E : Engine ι σ ω} (C : Contract n E) (i : Fin n) (ws : List ω) :
    World n ι σ ω → World n ι σ ω → Prop
  | refl (W : World n ι σ ω) : Interference C i ws W W
  | consume {W V : World n ι σ ω} (inp : ι) : Interference C i ws W V → C.inv V →
      E.fresh V.past inp = true → Interference C i ws W (V.consume inp)
  | commit {W V : World n ι σ ω} (k : Fin n) (vs : List ω) : Interference C i ws W V → C.inv V →
      C.assume k V vs → C.guar k V vs → C.quiet i k V vs → E.Compatible vs ws →
      Interference C i ws W (V.commit E k vs)

namespace Interference
variable {E : Engine ι σ ω} {C : Contract n E} {i : Fin n} {ws : List ω}

theorem trans {W V U : World n ι σ ω} (h₁ : Interference C i ws W V)
    (h₂ : Interference C i ws V U) : Interference C i ws W U := by
  induction h₂ with
  | refl => exact h₁
  | consume inp _ hi hf ih => exact .consume inp ih hi hf
  | commit k vs _ hi ha hg hq hc ih => exact .commit k vs ih hi ha hg hq hc

/-- A smaller set of pending writes tolerates at least as much. -/
theorem mono {vs : List ω} {W V : World n ι σ ω} (hs : vs ⊆ ws)
    (h : Interference C i ws W V) : Interference C i vs W V := by
  induction h with
  | refl => exact .refl _
  | consume inp _ hi hf ih => exact .consume inp ih hi hf
  | commit k us _ hi ha hg hq hc ih =>
    exact .commit k us ih hi ha hg hq (fun w hw v hv => hc w hw v (hs hv))

end Interference

/-- An assertion that no tolerated step of another caller can falsify. -/
def Stable {E : Engine ι σ ω} (C : Contract n E) (i : Fin n) (ws : List ω)
    (A : World n ι σ ω → Prop) : Prop :=
  ∀ W V, Interference C i ws W V → A W → A V

theorem Stable.of_steps {E : Engine ι σ ω} {C : Contract n E} {i : Fin n} {ws : List ω}
    {A : World n ι σ ω → Prop}
    (hconsume : ∀ W inp, C.inv W → E.fresh W.past inp = true → A W → A (W.consume inp))
    (hcommit : ∀ W k vs, C.inv W → C.assume k W vs → C.guar k W vs → C.quiet i k W vs →
      E.Compatible vs ws → A W → A (W.commit E k vs)) : Stable C i ws A := by
  intro W V h hA
  induction h with
  | refl => exact hA
  | consume inp _ hi hf ih => exact hconsume _ _ hi hf ih
  | commit k vs _ hi ha hg hq hc ih => exact hcommit _ _ _ hi ha hg hq hc ih

theorem Stable.and {E : Engine ι σ ω} {C : Contract n E} {i : Fin n} {ws : List ω}
    {A B : World n ι σ ω → Prop} (hA : Stable C i ws A) (hB : Stable C i ws B) :
    Stable C i ws (fun W => A W ∧ B W) :=
  fun W V h ⟨a, b⟩ => ⟨hA W V h a, hB W V h b⟩

theorem Stable.exists {κ : Type} {E : Engine ι σ ω} {C : Contract n E} {i : Fin n} {ws : List ω}
    {A : κ → World n ι σ ω → Prop} (hA : ∀ k, Stable C i ws (A k)) :
    Stable C i ws (fun W => ∃ k, A k W) :=
  fun W V h ⟨k, hk⟩ => ⟨k, hA k W V h hk⟩

theorem Stable.const {E : Engine ι σ ω} {C : Contract n E} {i : Fin n} {ws : List ω} (p : Prop) :
    Stable C i ws (fun _ => p) :=
  fun _ _ _ h => h

theorem Stable.mono {E : Engine ι σ ω} {C : Contract n E} {i : Fin n} {ws vs : List ω}
    {A : World n ι σ ω → Prop} (h : Stable C i ws A) (hs : ws ⊆ vs) : Stable C i vs A :=
  fun W V hi hA => h W V (hi.mono hs) hA

/-- The part of a call that its own steps change. -/
structure Local (σ ω : Type) where
  pending : List ω
  seen : List σ

def Call.local (c : Call ι σ ω ε α) : Local σ ω := ⟨c.pending, c.seen⟩

section Wlp
variable {E : Engine ι σ ω} (C : Contract n E) (i : Fin n)

/-- Weakest precondition of a program run by caller `i` among others: `Q` of a
result, `X` of an exception. Interference is possible before every step, also
before the result is used. -/
def wlp : Prog ι σ ω ε α → (α → Local σ ω → World n ι σ ω → Prop) →
    (ε → Local σ ω → World n ι σ ω → Prop) → Local σ ω → World n ι σ ω → Prop
  | .ret a, Q, _, l, W => ∀ V, Interference C i l.pending W V → Q a l V
  | .raise e, _, X, l, W => ∀ V, Interference C i l.pending W V → X e l V
  | .stmt writes next failed, Q, X, l, W => ∀ V, Interference C i l.pending W V → C.inv V →
      (∀ inp, E.fresh V.past inp = true →
        wlp (next inp (E.view l.pending V.db)) Q X
          ⟨l.pending ++ writes inp (E.view l.pending V.db), V.db :: l.seen⟩ (V.consume inp)) ∧
      ∀ e, wlp (failed e) Q X ⟨[], l.seen⟩ V
  | .commit next failed, Q, X, l, W => ∀ V, Interference C i l.pending W V → C.inv V →
      (C.assume i V l.pending → C.guar i V l.pending ∧
        wlp next Q X ⟨[], V.db :: l.seen⟩ (V.commit E i l.pending)) ∧
      ∀ e, wlp (failed e) Q X ⟨[], l.seen⟩ V
  | .rollback next, Q, X, l, W => ∀ V, Interference C i l.pending W V →
      wlp next Q X ⟨[], l.seen⟩ V

variable {C i}

theorem wlp_interference {p : Prog ι σ ω ε α} {Q : α → Local σ ω → World n ι σ ω → Prop}
    {X : ε → Local σ ω → World n ι σ ω → Prop} {l : Local σ ω} {W V : World n ι σ ω}
    (hp : wlp C i p Q X l W) (h : Interference C i l.pending W V) : wlp C i p Q X l V := by
  cases p with
  | ret a => exact fun U hU => hp U (h.trans hU)
  | raise e => exact fun U hU => hp U (h.trans hU)
  | stmt writes next failed => exact fun U hU => hp U (h.trans hU)
  | commit next failed => exact fun U hU => hp U (h.trans hU)
  | rollback next => exact fun U hU => hp U (h.trans hU)

theorem wlp_mono {p : Prog ι σ ω ε α} {Q Q' : α → Local σ ω → World n ι σ ω → Prop}
    {X X' : ε → Local σ ω → World n ι σ ω → Prop} (hQ : ∀ a l W, Q a l W → Q' a l W)
    (hX : ∀ e l W, X e l W → X' e l W) {l : Local σ ω} {W : World n ι σ ω}
    (hp : wlp C i p Q X l W) : wlp C i p Q' X' l W := by
  induction p generalizing l W with
  | ret a => exact fun V hV => hQ _ _ _ (hp V hV)
  | raise e => exact fun V hV => hX _ _ _ (hp V hV)
  | stmt writes next failed ihn ihf =>
    intro V hV hi
    obtain ⟨hn, hf⟩ := hp V hV hi
    exact ⟨fun inp hinp => ihn _ _ (hn inp hinp), fun e => ihf _ (hf e)⟩
  | commit next failed ihn ihf =>
    intro V hV hi
    obtain ⟨hn, hf⟩ := hp V hV hi
    exact ⟨fun ha => ⟨(hn ha).1, ihn (hn ha).2⟩, fun e => ihf _ (hf e)⟩
  | rollback next ih => exact fun V hV => ih (hp V hV)

theorem wlp_bind {p : Prog ι σ ω ε α} {f : α → Prog ι σ ω ε β}
    {Q : β → Local σ ω → World n ι σ ω → Prop} {X : ε → Local σ ω → World n ι σ ω → Prop}
    {l : Local σ ω} {W : World n ι σ ω}
    (hp : wlp C i p (fun a l' V => wlp C i (f a) Q X l' V) X l W) :
    wlp C i (p.bind f) Q X l W := by
  induction p generalizing l W with
  | ret a => exact hp W (.refl W)
  | raise e => exact hp
  | stmt writes next failed ihn ihf =>
    intro V hV hi
    obtain ⟨hn, hf⟩ := hp V hV hi
    exact ⟨fun inp hinp => ihn _ _ (hn inp hinp), fun e => ihf _ (hf e)⟩
  | commit next failed ihn ihf =>
    intro V hV hi
    obtain ⟨hn, hf⟩ := hp V hV hi
    exact ⟨fun ha => ⟨(hn ha).1, ihn (hn ha).2⟩, fun e => ihf _ (hf e)⟩
  | rollback next ih => exact fun V hV => ih (hp V hV)

theorem wlp_handle {p : Prog ι σ ω ε α} {h : ε → Prog ι σ ω ε α}
    {Q : α → Local σ ω → World n ι σ ω → Prop} {X : ε → Local σ ω → World n ι σ ω → Prop}
    {l : Local σ ω} {W : World n ι σ ω}
    (hp : wlp C i p Q (fun e l' V => wlp C i (h e) Q X l' V) l W) :
    wlp C i (p.handle h) Q X l W := by
  induction p generalizing l W with
  | ret a => exact hp
  | raise e => exact hp W (.refl W)
  | stmt writes next failed ihn ihf =>
    intro V hV hi
    obtain ⟨hn, hf⟩ := hp V hV hi
    exact ⟨fun inp hinp => ihn _ _ (hn inp hinp), fun e => ihf _ (hf e)⟩
  | commit next failed ihn ihf =>
    intro V hV hi
    obtain ⟨hn, hf⟩ := hp V hV hi
    exact ⟨fun ha => ⟨(hn ha).1, ihn (hn ha).2⟩, fun e => ihf _ (hf e)⟩
  | rollback next ih => exact fun V hV => ih (hp V hV)

/-- The rule of one statement: its precondition is stable, and from every world
where it holds the answer leads on. -/
theorem wlp_statement_bind {f : ι → σ → Except ε (List ω × α)} {k : α → Prog ι σ ω ε β}
    {Q : β → Local σ ω → World n ι σ ω → Prop} {X : ε → Local σ ω → World n ι σ ω → Prop}
    {l : Local σ ω} {W : World n ι σ ω} {A : World n ι σ ω → Prop}
    (hX : ∀ e l' V, X e l' V) (hA : Stable C i l.pending A) (hW : A W)
    (h : ∀ V inp ws a, A V → C.inv V → E.fresh V.past inp = true →
      f inp (E.view l.pending V.db) = .ok (ws, a) →
      wlp C i (k a) Q X ⟨l.pending ++ ws, V.db :: l.seen⟩ (V.consume inp)) :
    wlp C i ((Prog.statement f).bind k) Q X l W := by
  apply wlp_bind
  intro V hV hi
  refine ⟨?_, fun e U _ => hX e _ _⟩
  intro inp hinp
  dsimp only
  cases hf : f inp (E.view l.pending V.db) with
  | ok r =>
    obtain ⟨ws, a⟩ := r
    exact fun U hU => wlp_interference (h V inp ws a (hA W V hV hW) hi hinp hf) hU
  | error e => exact fun U _ => hX e _ _

/-- The rule of COMMIT: the pending writes meet the guarantee. -/
theorem wlp_commit_bind {k : Unit → Prog ι σ ω ε β}
    {Q : β → Local σ ω → World n ι σ ω → Prop} {X : ε → Local σ ω → World n ι σ ω → Prop}
    {l : Local σ ω} {W : World n ι σ ω} {A : World n ι σ ω → Prop}
    (hX : ∀ e l' V, X e l' V) (hA : Stable C i l.pending A) (hW : A W)
    (hG : ∀ V, A V → C.inv V → C.assume i V l.pending → C.guar i V l.pending)
    (h : ∀ V, A V → C.inv V → C.assume i V l.pending → C.guar i V l.pending →
      wlp C i (k ()) Q X ⟨[], V.db :: l.seen⟩ (V.commit E i l.pending)) :
    wlp C i (Prog.commitNow.bind k) Q X l W := by
  apply wlp_bind
  intro V hV hi
  have hAV := hA W V hV hW
  refine ⟨fun ha => ?_, fun e U _ => hX e _ _⟩
  have hg := hG V hAV hi ha
  exact ⟨hg, fun U hU => wlp_interference (h V hAV hi ha hg) hU⟩

/-- After ROLLBACK nothing is pending. -/
theorem wlp_rollback_bind {k : Unit → Prog ι σ ω ε β}
    {Q : β → Local σ ω → World n ι σ ω → Prop} {X : ε → Local σ ω → World n ι σ ω → Prop}
    {l : Local σ ω} {W : World n ι σ ω}
    (h : ∀ V, wlp C i (k ()) Q X ⟨[], l.seen⟩ V) :
    wlp C i (Prog.rollbackNow.bind k) Q X l W := by
  apply wlp_bind
  exact fun V _ U _ => h U

theorem wlp_raise {e : ε} {Q : α → Local σ ω → World n ι σ ω → Prop}
    {X : ε → Local σ ω → World n ι σ ω → Prop} {l : Local σ ω} {W : World n ι σ ω}
    (hX : ∀ e l' V, X e l' V) : wlp C i (.raise e) Q X l W :=
  fun V _ => hX e l V

end Wlp

/-- The program only reads, and its results satisfy `P`: no statement of it writes,
it does not commit, and a failed statement ends it. -/
def Prog.Reads (P : α → Prop) : Prog ι σ ω ε α → Prop
  | .ret a => P a
  | .raise _ => True
  | .stmt writes next failed => (∀ inp v, writes inp v = []) ∧
      (∀ inp v, (next inp v).Reads P) ∧ ∀ e, ∃ e', failed e = .raise e'
  | .commit _ _ => False
  | .rollback _ => False

namespace Prog

theorem Reads.bind {P : α → Prop} {R : β → Prop} {p : Prog ι σ ω ε α} {f : α → Prog ι σ ω ε β}
    (hp : p.Reads P) (hf : ∀ a, P a → (f a).Reads R) : (p.bind f).Reads R := by
  induction p with
  | ret a => exact hf a hp
  | raise e => trivial
  | stmt writes next failed ihn ihf =>
    refine ⟨hp.1, fun inp v => ihn _ _ (hp.2.1 inp v), fun e => ?_⟩
    obtain ⟨e', he⟩ := hp.2.2 e
    exact ⟨e', by simp [he]⟩
  | commit next failed ihn ihf => exact hp.elim
  | rollback next ih => exact hp.elim

theorem Reads.mono {P R : α → Prop} {p : Prog ι σ ω ε α} (hp : p.Reads P) (h : ∀ a, P a → R a) :
    p.Reads R := by
  induction p with
  | ret a => exact h a hp
  | raise e => trivial
  | stmt writes next failed ihn ihf =>
    exact ⟨hp.1, fun inp v => ihn _ _ (hp.2.1 inp v), hp.2.2⟩
  | commit next failed ihn ihf => exact hp.elim
  | rollback next ih => exact hp.elim

theorem Reads.statement {P : α → Prop} {f : ι → σ → Except ε (List ω × α)}
    (h : ∀ inp v ws a, f inp v = .ok (ws, a) → ws = [] ∧ P a) : (statement f).Reads P := by
  refine ⟨?_, ?_, fun e => ⟨e, rfl⟩⟩
  · intro inp v
    dsimp only
    cases hf : f inp v with
    | ok r => exact (h inp v r.1 r.2 hf).1
    | error e => rfl
  · intro inp v
    dsimp only
    cases hf : f inp v with
    | ok r => exact (h inp v r.1 r.2 hf).2
    | error e => trivial

end Prog

/-- A program that only reads keeps a stable assertion and its open transaction
as they are. -/
theorem wlp_reads {E : Engine ι σ ω} {C : Contract n E} {i : Fin n} {p : Prog ι σ ω ε α}
    {P : α → Prop} (hp : p.Reads P) {Q : α → Local σ ω → World n ι σ ω → Prop}
    {X : ε → Local σ ω → World n ι σ ω → Prop} {l : Local σ ω} {W : World n ι σ ω}
    {A : World n ι σ ω → Prop} (hX : ∀ e l' V, X e l' V)
    (hA : Stable C i l.pending A) (hW : A W)
    (h : ∀ a seen V, P a → l.seen <:+ seen → A V → Q a ⟨l.pending, seen⟩ V) :
    wlp C i p Q X l W := by
  induction p generalizing l W with
  | ret a => exact fun V hV => h a l.seen V hp (List.suffix_refl _) (hA W V hV hW)
  | raise e => exact fun V _ => hX e l V
  | stmt writes next failed ihn ihf =>
    intro V hV hi
    refine ⟨fun inp hinp => ?_, fun e => ?_⟩
    · rw [hp.1 inp _, List.append_nil]
      have hc : A (V.consume inp) :=
        hA W _ (.consume inp hV hi hinp) hW
      exact ihn inp _ (hp.2.1 inp _) hA hc
        (fun a seen U hPa hs hAU => h a seen U hPa ((List.suffix_cons _ _).trans hs) hAU)
    · obtain ⟨e', he⟩ := hp.2.2 e
      rw [he]
      exact fun U _ => hX e' _ U
  | commit next failed ihn ihf => exact hp.elim
  | rollback next ih => exact hp.elim

theorem wlp_reads_bind {E : Engine ι σ ω} {C : Contract n E} {i : Fin n} {p : Prog ι σ ω ε α}
    {P : α → Prop} (hp : p.Reads P) {f : α → Prog ι σ ω ε β}
    {Q : β → Local σ ω → World n ι σ ω → Prop} {X : ε → Local σ ω → World n ι σ ω → Prop}
    {l : Local σ ω} {W : World n ι σ ω} {A : World n ι σ ω → Prop} (hX : ∀ e l' V, X e l' V)
    (hA : Stable C i l.pending A) (hW : A W)
    (h : ∀ a seen V, P a → l.seen <:+ seen → A V → wlp C i (f a) Q X ⟨l.pending, seen⟩ V) :
    wlp C i (p.bind f) Q X l W :=
  wlp_bind (wlp_reads hp hX hA hW h)

/-- A program whose every write satisfies `P`, where such writes may be committed at
any time and nothing is asked of the result. -/
theorem wlp_comprises {E : Engine ι σ ω} {C : Contract n E} {i : Fin n} {p : Prog ι σ ω ε α}
    {P : ω → Prop} (hp : p.Comprises fun writes => ∀ inp v, ∀ w ∈ writes inp v, P w)
    {Q : α → Local σ ω → World n ι σ ω → Prop} {X : ε → Local σ ω → World n ι σ ω → Prop}
    {l : Local σ ω} {W : World n ι σ ω} (hQ : ∀ a l' V, Q a l' V) (hX : ∀ e l' V, X e l' V)
    (hG : ∀ V ws, C.inv V → C.assume i V ws → (∀ w ∈ ws, P w) → C.guar i V ws)
    (hl : ∀ w ∈ l.pending, P w) : wlp C i p Q X l W := by
  induction p generalizing l W with
  | ret a => exact fun V _ => hQ a l V
  | raise e => exact fun V _ => hX e l V
  | stmt writes next failed ihn ihf =>
    intro V hV hi
    refine ⟨fun inp hinp => ihn _ _ (hp.2.1 _ _) fun w hw => ?_,
      fun e => ihf e (hp.2.2 e) (by simp)⟩
    rcases List.mem_append.mp hw with hw | hw
    · exact hl w hw
    · exact hp.1 _ _ w hw
  | commit next failed ihn ihf =>
    intro V hV hi
    exact ⟨fun ha => ⟨hG V _ hi ha hl, ihn hp.1 (by simp)⟩, fun e => ihf e (hp.2 e) (by simp)⟩
  | rollback next ih => exact fun V hV => ih hp (by simp)

section Soundness
variable {E : Engine ι σ ω} (C : Contract n E) (progs : Fin n → Prog ι σ ω ε α)
  (Q : Fin n → α → List σ → World n ι σ ω → Prop)

/-- Every program meets its specification from every world of the invariant. -/
def Contract.Meets : Prop :=
  ∀ i W, C.inv W → wlp C i (progs i) (fun a l V => Q i a l.seen V) (fun _ _ _ => True) ⟨[], []⟩ W

/-- A result stays a result when the world moves on. -/
structure Lasting : Prop where
  consume : ∀ i a seen W inp, Q i a seen W → Q i a seen (W.consume inp)
  commit : ∀ i a seen W k ws, Q i a seen W → Q i a seen (W.commit E k ws)

/-- A call is untouched, or begun and in order. -/
def CallOk (i : Fin n) (c : Call ι σ ω ε α) (W : World n ι σ ω) : Prop :=
  c = Call.initial (progs i) ∨ c.started = true ∧
    match c.prog with
    | .ret a => Q i a c.seen W
    | .raise _ => True
    | p => wlp C i p (fun a l V => Q i a l.seen V) (fun _ _ _ => True) c.local W

/-- The invariant of the whole system. -/
structure Sys.Ok (s : Sys n ι σ ω ε α) : Prop where
  inv : C.inv s.world
  apart : ∀ i j, i ≠ j → E.Compatible (s.call i).pending (s.call j).pending
  call : ∀ i, CallOk C progs Q i (s.call i) s.world

/-- What a contract asks of the action a run takes next. -/
def Contract.Allows (s : Sys n ι σ ω ε α) (a : Action n ι ε) : Prop :=
  ∀ k ws, s.committing a = some (k, ws) →
    C.assume k s.world ws ∧ ∀ i, i ≠ k → s.InProgress i → C.quiet i k s.world ws

variable {C progs Q}

theorem Sys.Ok.initial {W : World n ι σ ω} (hW : C.inv W) :
    (Sys.initial W progs).Ok C progs Q :=
  ⟨hW, fun _ _ _ => by simp [Sys.initial, Call.initial], fun _ => Or.inl rfl⟩

/-- A call that has not left its program satisfies its `wlp`, begun or not. -/
theorem Sys.Ok.wlp_call (hm : C.Meets progs Q) {s : Sys n ι σ ω ε α} (h : s.Ok C progs Q)
    (i : Fin n) (hr : ∀ a, (s.call i).prog ≠ .ret a) (he : ∀ e, (s.call i).prog ≠ .raise e) :
    wlp C i (s.call i).prog (fun a l V => Q i a l.seen V) (fun _ _ _ => True)
      (s.call i).local s.world := by
  rcases h.call i with hi | ⟨-, hi⟩
  · rw [hi]
    exact hm i s.world h.inv
  · split at hi
    · rename_i a ha; exact absurd ha (hr a)
    · rename_i e ha; exact absurd ha (he e)
    · exact hi

/-- A begun program satisfying its `wlp` is a call in order. -/
theorem CallOk.of_wlp {i : Fin n} {c : Call ι σ ω ε α} {W : World n ι σ ω}
    (hc : c.started = true)
    (h : wlp C i c.prog (fun a l V => Q i a l.seen V) (fun _ _ _ => True) c.local W) :
    CallOk C progs Q i c W := by
  refine Or.inr ⟨hc, ?_⟩
  split
  · rename_i a ha
    rw [ha] at h
    exact h W (.refl W)
  · trivial
  · exact h

theorem CallOk.ret (hm : C.Meets progs Q) {i : Fin n} {c : Call ι σ ω ε α} {W : World n ι σ ω}
    (h : CallOk C progs Q i c W) (hW : C.inv W) {a : α} (ha : c.prog = .ret a) :
    Q i a c.seen W := by
  rcases h with hi | ⟨-, hi⟩
  · subst hi
    have hw := hm i W hW
    have hp : progs i = .ret a := ha
    rw [hp] at hw
    exact hw W (.refl W)
  · simpa only [ha] using hi

theorem CallOk.close {i : Fin n} {c : Call ι σ ω ε α} {W : World n ι σ ω}
    (h : CallOk C progs Q i c W) (hp : (∃ a, c.prog = .ret a) ∨ ∃ e, c.prog = .raise e) :
    CallOk C progs Q i c.close W := by
  rcases h with hi | ⟨hc, hi⟩
  · left
    subst hi
    rfl
  · refine Or.inr ⟨hc, ?_⟩
    rcases hp with ⟨a, ha⟩ | ⟨e, he⟩
    · simpa only [Call.close, ha] using hi
    · simp only [Call.close, he]

/-- A bystander of a step that moves the world by tolerated interference. -/
theorem CallOk.advance {i : Fin n} {c : Call ι σ ω ε α} {W V : World n ι σ ω}
    (h : CallOk C progs Q i c W) (hQ : ∀ a, Q i a c.seen W → Q i a c.seen V)
    (hi : c.started = true → (∀ a, c.prog ≠ .ret a) → (∀ e, c.prog ≠ .raise e) →
      Interference C i c.pending W V) : CallOk C progs Q i c V := by
  rcases h with hc | ⟨hc, hw⟩
  · exact Or.inl hc
  · refine Or.inr ⟨hc, ?_⟩
    split at hw
    · rename_i a ha
      simpa only [ha] using hQ _ hw
    · trivial
    · rename_i hr he
      exact wlp_interference hw (hi hc hr he)

/-- One caller moves to `c` and the world to `V`; the others look on. -/
theorem Sys.Ok.update {s : Sys n ι σ ω ε α} (h : s.Ok C progs Q) {i : Fin n}
    {c : Call ι σ ω ε α} {V : World n ι σ ω} (hV : C.inv V)
    (hp : ∀ j, j ≠ i → E.Compatible c.pending (s.call j).pending)
    (hc : CallOk C progs Q i c V)
    (hQ : ∀ j a, Q j a (s.call j).seen s.world → Q j a (s.call j).seen V)
    (hi : ∀ j, j ≠ i → s.InProgress j → Interference C j (s.call j).pending s.world V) :
    (({ s with world := V } : Sys n ι σ ω ε α).setCall i c).Ok C progs Q where
  inv := hV
  apart _ _ hjk := Sys.pairwise_setCall (R := fun a b => E.Compatible a.pending b.pending)
    (fun _ _ hab => hab.symm) hp h.apart hjk
  call := by
    refine Sys.forall_setCall (P := fun j c => CallOk C progs Q j c V) hc fun j hj => ?_
    refine (h.call j).advance (hQ j) (fun hs hr he => hi j hj ⟨hs, ?_⟩)
    split
    · rename_i a ha; exact hr a ha
    · rename_i e ha; exact he e ha
    · trivial

/-- A commit that the contract allows meets its guarantee. -/
theorem Sys.Ok.guar (hm : C.Meets progs Q) {s : Sys n ι σ ω ε α} (h : s.Ok C progs Q)
    {a : Action n ι ε} (ha : C.Allows s a) {k : Fin n} {ws : List ω}
    (hc : s.committing a = some (k, ws)) : C.guar k s.world ws := by
  have hassume := (ha k ws hc).1
  cases a with
  | fail i e => cases hc
  | run i inp =>
    cases hp : (s.call i).prog with
    | commit next failed =>
      simp only [Sys.committing, hp, Option.some.injEq, Prod.mk.injEq] at hc
      obtain ⟨rfl, rfl⟩ := hc
      have hw := h.wlp_call hm i (by simp [hp]) (by simp [hp])
      rw [hp] at hw
      exact ((hw s.world (.refl _) h.inv).1 hassume).1
    | ret a => simp [Sys.committing, hp] at hc
    | raise e => simp [Sys.committing, hp] at hc
    | stmt writes next failed => simp [Sys.committing, hp] at hc
    | rollback next => simp [Sys.committing, hp] at hc

/-- Every allowed step keeps the system in order. -/
theorem Sys.Ok.step (hm : C.Meets progs Q) (hQ : Lasting (E := E) Q) {s t : Sys n ι σ ω ε α}
    (h : s.Ok C progs Q) {a : Action n ι ε} (ha : C.Allows s a) (hs : s.step E a = some t) :
    t.Ok C progs Q := by
  cases Sys.step_cases hs with
  | closed i inp hp ht =>
    rw [ht]
    exact h.update h.inv (by simp [Call.close]) ((h.call i).close hp) (fun _ _ hq => hq)
      (fun _ _ _ => .refl _)
  | stmt i inp writes next failed hp fresh free ht =>
    have hw := h.wlp_call hm i (by simp [hp]) (by simp [hp])
    rw [hp] at hw
    rw [ht]
    refine h.update (C.inv_consume _ _ h.inv fresh) ?_
      (.of_wlp rfl ((hw s.world (.refl _) h.inv).1 inp fresh))
      (fun j a hq => hQ.consume j a _ _ _ hq)
      (fun j _ _ => .consume inp (.refl _) h.inv fresh)
    intro j hj
    exact Engine.compatible_append.mpr ⟨h.apart i j (Ne.symm hj), free j hj⟩
  | commit i inp next failed hp ht =>
    have hc : s.committing (.run i inp) = some (i, (s.call i).pending) := by
      simp [Sys.committing, hp]
    obtain ⟨hassume, hquiet⟩ := ha i _ hc
    have hg := h.guar hm ha hc
    have hw := h.wlp_call hm i (by simp [hp]) (by simp [hp])
    rw [hp] at hw
    rw [ht]
    refine h.update (C.inv_commit _ _ _ h.inv hassume hg) (by simp)
      (.of_wlp rfl ((hw s.world (.refl _) h.inv).1 hassume).2)
      (fun j a hq => hQ.commit j a _ _ _ _ hq) ?_
    intro j hj hprog
    exact .commit i _ (.refl _) h.inv hassume hg (hquiet j hj hprog) (h.apart i j (Ne.symm hj))
  | rollback i inp next hp ht =>
    have hw := h.wlp_call hm i (by simp [hp]) (by simp [hp])
    rw [hp] at hw
    rw [ht]
    exact h.update h.inv (by simp) (.of_wlp rfl (hw s.world (.refl _))) (fun _ _ hq => hq)
      (fun _ _ _ => .refl _)
  | failed i e failed hp ht =>
    rw [ht]
    refine h.update h.inv (by simp) (.of_wlp rfl ?_) (fun _ _ hq => hq) (fun _ _ _ => .refl _)
    rcases hp with ⟨writes, next, hp⟩ | ⟨next, hp⟩
    · have hw := h.wlp_call hm i (by simp [hp]) (by simp [hp])
      rw [hp] at hw
      exact (hw s.world (.refl _) h.inv).2 e
    · have hw := h.wlp_call hm i (by simp [hp]) (by simp [hp])
      rw [hp] at hw
      exact (hw s.world (.refl _) h.inv).2 e

/-- Every run whose actions the contract allows keeps the system in order. -/
theorem Sys.Ok.run (hm : C.Meets progs Q) (hQ : Lasting (E := E) Q) {s t : Sys n ι σ ω ε α}
    (h : s.Ok C progs Q) {as : List (Action n ι ε)} (ha : s.Each E C.Allows as)
    (hr : s.run E as = some t) : t.Ok C progs Q :=
  Sys.run_invariant (I := fun _ u => u.Ok C progs Q) hr h
    fun pre a u _ hpre hu hok hstep => hok.step hm hQ (ha pre a u hpre hu) hstep

end Soundness

/-- Every system keeps it; what is left are the results of the programs. -/
def Contract.free (n : ℕ) (E : Engine ι σ ω) : Contract n E where
  inv _ := True
  guar _ _ _ := True
  assume _ _ _ := True
  quiet _ _ _ _ := True
  inv_consume _ _ _ _ := trivial
  inv_commit _ _ _ _ _ _ := trivial

section Free
variable {E : Engine ι σ ω} {i : Fin n} {Q : α → Local σ ω → World n ι σ ω → Prop}
  {X : ε → Local σ ω → World n ι σ ω → Prop} {l : Local σ ω} {W : World n ι σ ω}

/-- The inputs that were supplied stay. -/
theorem Interference.past {C : Contract n E} {ws : List ω} {V : World n ι σ ω}
    (h : Interference C i ws W V) : W.past <:+ V.past := by
  induction h with
  | refl => exact List.suffix_refl _
  | consume inp _ hi hf ih => exact ih.trans (List.suffix_cons _ _)
  | commit k vs _ hi ha hg hq hc ih => exact ih

theorem wlp_free {p : Prog ι σ ω ε α} (hX : ∀ e l' V, X e l' V)
    (hQ : ∀ a l' V, W.past <:+ V.past → Q a l' V) : wlp (Contract.free n E) i p Q X l W := by
  induction p generalizing l W with
  | ret a => exact fun V hV => hQ a l V hV.past
  | raise e => exact fun V _ => hX e l V
  | stmt writes next failed ihn ihf =>
    intro V hV hi
    exact ⟨fun inp _ => ihn _ _ fun a l' U hU => hQ a l' U (hV.past.trans
      ((List.suffix_cons _ _).trans hU)),
      fun e => ihf e fun a l' U hU => hQ a l' U (hV.past.trans hU)⟩
  | commit next failed ihn ihf =>
    intro V hV hi
    exact ⟨fun _ => ⟨trivial, ihn fun a l' U hU => hQ a l' U (hV.past.trans hU)⟩,
      fun e => ihf e fun a l' U hU => hQ a l' U (hV.past.trans hU)⟩
  | rollback next ih => exact fun V hV => ih fun a l' U hU => hQ a l' U (hV.past.trans hU)

theorem wlp_free_bind {p : Prog ι σ ω ε β} {f : β → Prog ι σ ω ε α} (hX : ∀ e l' V, X e l' V)
    (hf : ∀ b l' V, W.past <:+ V.past → wlp (Contract.free n E) i (f b) Q X l' V) :
    wlp (Contract.free n E) i (p.bind f) Q X l W :=
  wlp_bind (wlp_free hX hf)

/-- In every run a program that has returned has returned what it may. -/
theorem Contract.free_run {progs : Fin n → Prog ι σ ω ε α}
    {R : Fin n → α → List σ → World n ι σ ω → Prop} (hm : (Contract.free n E).Meets progs R)
    (hR : Lasting (E := E) R) {t : Sys n ι σ ω ε α} {as : List (Action n ι ε)}
    (hr : (Sys.initial W progs).run E as = some t) {a : α} (ha : (t.call i).prog = .ret a) :
    R i a (t.call i).seen t.world := by
  have hok : t.Ok (Contract.free n E) progs R :=
    Sys.Ok.run hm hR (.initial trivial) (fun _ _ _ _ _ _ _ _ => ⟨trivial, fun _ _ _ => trivial⟩) hr
  exact (hok.call i).ret hm hok.inv ha

end Free

end EnvVault.Transactions
