import EnvVault.RelyGuarantee

/-!
# Writes and the callers they come from

A program is given a class of writes that it may make wherever the view is in order, and
being in order is kept by such writes. Then the committed store is in order in every state
of a run, and every write in the log is one that its caller may make. Nothing has to be
known of the schedule, and no assertion has to be stable. What is known of a run from
elsewhere may be assumed of the writes that a program has made so far. In the same way a
program is given a class of results that it may return.
-/
namespace EnvVault.Transactions

variable {n : ℕ} {ι σ ω ε α β : Type} {I : σ → Prop} {A J : ω → Prop} {B : α → Prop}
  {C : β → Prop}

/-- Wherever the view satisfies `I`, a statement of the program writes only what satisfies `J`;
the rest of the program counts on `A` of what it has written. Its result satisfies `B`. -/
def Prog.Writes (I : σ → Prop) (A J : ω → Prop) (B : α → Prop) : Prog ι σ ω ε α → Prop
  | .ret a => B a
  | .raise _ => True
  | .stmt writes next failed =>
      (∀ inp v, I v → (∀ w ∈ writes inp v, J w) ∧
        ((∀ w ∈ writes inp v, A w) → (next inp v).Writes I A J B)) ∧
          ∀ e, (failed e).Writes I A J B
  | .commit next failed => next.Writes I A J B ∧ ∀ e, (failed e).Writes I A J B
  | .rollback next => next.Writes I A J B

namespace Prog
variable {p : Prog ι σ ω ε α}

theorem Writes.mono {J' : ω → Prop} {B' : α → Prop} (hp : p.Writes I A J B)
    (h : ∀ w, J w → J' w) (hB : ∀ a, B a → B' a) : p.Writes I A J' B' := by
  induction p with
  | ret a => exact hB a hp
  | raise e => trivial
  | stmt writes next failed ihn ihf =>
    refine ⟨fun inp v hv => ?_, fun e => ihf e (hp.2 e)⟩
    obtain ⟨hw, hn⟩ := hp.1 inp v hv
    exact ⟨fun w hmem => h w (hw w hmem), fun hA => ihn inp v (hn hA)⟩
  | commit next failed ihn ihf => exact ⟨ihn hp.1, fun e => ihf e (hp.2 e)⟩
  | rollback next ih => exact ih hp

theorem Writes.bind {f : α → Prog ι σ ω ε β} (hp : p.Writes I A J B)
    (hf : ∀ a, B a → (f a).Writes I A J C) : (p.bind f).Writes I A J C := by
  induction p with
  | ret a => exact hf a hp
  | raise e => trivial
  | stmt writes next failed ihn ihf =>
    refine ⟨fun inp v hv => ?_, fun e => ihf e (hp.2 e)⟩
    obtain ⟨hw, hn⟩ := hp.1 inp v hv
    exact ⟨hw, fun hA => ihn inp v (hn hA)⟩
  | commit next failed ihn ihf => exact ⟨ihn hp.1, fun e => ihf e (hp.2 e)⟩
  | rollback next ih => exact ih hp

theorem Writes.handle {h : ε → Prog ι σ ω ε α} (hp : p.Writes I A J B)
    (hh : ∀ e, (h e).Writes I A J B) : (p.handle h).Writes I A J B := by
  induction p with
  | ret a => exact hp
  | raise e => exact hh e
  | stmt writes next failed ihn ihf =>
    refine ⟨fun inp v hv => ?_, fun e => ihf e (hp.2 e)⟩
    obtain ⟨hw, hn⟩ := hp.1 inp v hv
    exact ⟨hw, fun hA => ihn inp v (hn hA)⟩
  | commit next failed ihn ihf => exact ⟨ihn hp.1, fun e => ihf e (hp.2 e)⟩
  | rollback next ih => exact ih hp

/-- What a statement answers on a view in order is known to the rest of the program. -/
theorem writes_statement_bind {f : ι → σ → Except ε (List ω × α)} {k : α → Prog ι σ ω ε β}
    (h : ∀ inp v ws a, I v → f inp v = .ok (ws, a) →
      (∀ w ∈ ws, J w) ∧ ((∀ w ∈ ws, A w) → (k a).Writes I A J C)) :
    ((statement f).bind k).Writes I A J C := by
  refine ⟨fun inp v hv => ?_, fun _ => trivial⟩
  dsimp only
  cases hf : f inp v with
  | ok r => exact h inp v r.1 r.2 hv hf
  | error e => exact ⟨fun w hw => absurd hw List.not_mem_nil, fun _ => trivial⟩

/-- The queries before a write make none, and hand their result on. -/
theorem Reads.bind_writes {P : α → Prop} {f : α → Prog ι σ ω ε β} (hp : p.Reads P)
    (hf : ∀ a, P a → (f a).Writes I A J C) : (p.bind f).Writes I A J C := by
  induction p with
  | ret a => exact hf a hp
  | raise e => trivial
  | stmt writes next failed ihn ihf =>
    refine ⟨fun inp v _ => ⟨fun w hw => ?_, fun _ => ihn inp v (hp.2.1 inp v)⟩, fun e => ?_⟩
    · rw [hp.1 inp v] at hw
      exact absurd hw List.not_mem_nil
    · obtain ⟨e', he⟩ := hp.2.2 e
      show ((failed e).bind f).Writes I A J C
      rw [he]
      trivial
  | commit next failed ihn ihf => exact hp.elim
  | rollback next ih => exact hp.elim

theorem Reads.writes (hp : p.Reads B) : p.Writes I A J B := by
  have h : (p.bind ret).Writes I A J B := hp.bind_writes fun _ ha => ha
  rwa [bind_ret] at h

theorem Reads.writes_true {P : α → Prop} (hp : p.Reads P) : p.Writes I A J fun _ => True :=
  hp.writes.mono (fun _ hw => hw) fun _ _ => trivial

theorem writes_commitNow_bind {k : Unit → Prog ι σ ω ε β} (hk : (k ()).Writes I A J C) :
    (commitNow.bind k).Writes I A J C :=
  ⟨hk, fun _ => trivial⟩

end Prog

/-- The store is in order, and what stands in the log, in the open transactions and in the
programs is what each caller may write and return. -/
structure Sys.Attributed (I : σ → Prop) (A : ω → Prop) (J : Fin n → ω → Prop)
    (B : Fin n → α → Prop) (s : Sys n ι σ ω ε α) : Prop where
  db : I s.world.db
  log : ∀ e ∈ s.world.log, ∀ w ∈ e.2, J e.1 w ∧ A w
  pending : ∀ i, ∀ w ∈ (s.call i).pending, J i w ∧ A w
  progs : ∀ i, (s.call i).prog.Writes I A (J i) (B i)

namespace Sys.Attributed
variable {E : Engine ι σ ω} {J : Fin n → ω → Prop} {B : Fin n → α → Prop}
  {s t : Sys n ι σ ω ε α}

theorem initial {W : World n ι σ ω} {progs : Fin n → Prog ι σ ω ε α} (hdb : I W.db)
    (hlog : W.log = []) (hprogs : ∀ i, (progs i).Writes I A (J i) (B i)) :
    (Sys.initial W progs).Attributed I A J B where
  db := hdb
  log e he := by
    rw [Sys.initial, hlog] at he
    exact absurd he List.not_mem_nil
  pending i w hw := absurd hw List.not_mem_nil
  progs := hprogs

/-- The others keep what they had. -/
theorem update {W : World n ι σ ω} {i : Fin n} {c : Call ι σ ω ε α} (h : s.Attributed I A J B)
    (hdb : I W.db) (hlog : ∀ e ∈ W.log, ∀ w ∈ e.2, J e.1 w ∧ A w)
    (hpending : ∀ w ∈ c.pending, J i w ∧ A w) (hprog : c.prog.Writes I A (J i) (B i)) :
    (({ s with world := W } : Sys n ι σ ω ε α).setCall i c).Attributed I A J B where
  db := hdb
  log := hlog
  pending := Sys.forall_setCall (P := fun j c => ∀ w ∈ c.pending, J j w ∧ A w) hpending
    fun j _ => h.pending j
  progs := Sys.forall_setCall (P := fun j c => c.prog.Writes I A (J j) (B j)) hprog
    fun j _ => h.progs j

variable (hI : ∀ w db, A w → I db → I (E.apply w db))
include hI

theorem view_keeps {ws : List ω} {db : σ} (hws : ∀ w ∈ ws, A w) (hdb : I db) :
    I (E.view ws db) := by
  induction ws generalizing db with
  | nil => exact hdb
  | cons w ws ih =>
    exact ih (fun v hv => hws v (List.mem_cons_of_mem _ hv))
      (hI w db (hws w List.mem_cons_self) hdb)

theorem step (h : s.Attributed I A J B) {a : Action n ι ε} (hs : s.step E a = some t)
    (hA : ∀ i, ∀ w ∈ (t.call i).pending, J i w → A w) : t.Attributed I A J B := by
  cases Sys.step_cases hs with
  | closed i inp hp ht =>
    rw [ht]
    exact h.update h.db h.log (fun w hw => absurd hw List.not_mem_nil) (h.progs i)
  | stmt i inp writes next failed hp fresh free ht =>
    have hprog := h.progs i
    rw [hp] at hprog
    obtain ⟨hwrites, hnext⟩ :=
      hprog.1 inp _ (view_keeps hI (fun w hw => (h.pending i w hw).2) h.db)
    have hpending : (t.call i).pending = (s.call i).pending ++
        writes inp (E.view (s.call i).pending s.world.db) := by simp [ht]
    have hnew : ∀ w ∈ writes inp (E.view (s.call i).pending s.world.db), A w := fun w hw =>
      hA i w (hpending ▸ List.mem_append_right _ hw) (hwrites w hw)
    rw [ht]
    refine h.update h.db h.log (fun w hw => ?_) (hnext hnew)
    rcases List.mem_append.mp hw with hw | hw
    · exact h.pending i w hw
    · exact ⟨hwrites w hw, hnew w hw⟩
  | commit i inp next failed hp ht =>
    have hprog := h.progs i
    rw [hp] at hprog
    rw [ht]
    refine h.update (view_keeps hI (fun w hw => (h.pending i w hw).2) h.db) (fun e he => ?_)
      (fun w hw => absurd hw List.not_mem_nil) hprog.1
    rcases List.mem_append.mp he with he | he
    · exact h.log e he
    · obtain rfl := List.mem_singleton.mp he
      exact h.pending i
  | rollback i inp next hp ht =>
    have hprog := h.progs i
    rw [hp] at hprog
    rw [ht]
    exact h.update h.db h.log (fun w hw => absurd hw List.not_mem_nil) hprog
  | failed i e failed hp ht =>
    have hprog := h.progs i
    rw [ht]
    refine h.update h.db h.log (fun w hw => absurd hw List.not_mem_nil) ?_
    rcases hp with ⟨writes, next, hp⟩ | ⟨next, hp⟩
    · rw [hp] at hprog
      exact hprog.2 e
    · rw [hp] at hprog
      exact hprog.2 e

/-- In every state of a run the store is in order and the log says whose writes it holds,
where `A` is known of the writes that are open on the way. -/
theorem run (h : s.Attributed I A J B) {as : List (Action n ι ε)} (hr : s.run E as = some t)
    (hA : ∀ bs u, bs <+: as → s.run E bs = some u →
      ∀ i, ∀ w ∈ (u.call i).pending, J i w → A w) : t.Attributed I A J B := by
  refine Sys.run_invariant (I := fun _ u => u.Attributed I A J B) hr h ?_
  intro bs a u u' hbs hu hinv hstep
  exact hinv.step hI hstep (hA _ u' hbs (by rw [Sys.run_snoc, hu]; exact hstep))

/-- In particular where `J` says enough to keep the store in order. -/
theorem run_of_imp (h : s.Attributed I A J B) {as : List (Action n ι ε)}
    (hr : s.run E as = some t) (hA : ∀ i w, J i w → A w) : t.Attributed I A J B :=
  h.run hI hr fun _ _ _ _ i w _ hw => hA i w hw

end Sys.Attributed

end EnvVault.Transactions
