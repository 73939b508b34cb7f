import EnvVault.PhasedContracts

/-!
# Programs around calls

A caller that queries, runs the program of a call and queries again does nothing to the
store that the call alone would not do. Every run of such callers is matched by a run of
the bare calls, with the same commits in the same order.
-/
namespace EnvVault.Transactions

variable {n : ℕ} {ι σ ω ε α β γ : Type}

namespace Prog
variable {P : Prog ι σ ω ε β → Prop} {D : β → Prop} {Q : α → β → Prop}

/-- Queries that lead to a program with `P`, or to an exception. -/
inductive ReadsThen (P : Prog ι σ ω ε β → Prop) : Prog ι σ ω ε β → Prop
  | here (q : Prog ι σ ω ε β) (h : P q) : ReadsThen P q
  | raise (e : ε) : ReadsThen P (.raise e)
  | stmt (writes : ι → σ → List ω) (next : ι → σ → Prog ι σ ω ε β) (failed : ε → Prog ι σ ω ε β)
      (hw : ∀ inp v, writes inp v = []) (hn : ∀ inp v, ReadsThen P (next inp v))
      (hf : ∀ e, ∃ e', failed e = .raise e') : ReadsThen P (.stmt writes next failed)

theorem Reads.bind_readsThen {R : γ → Prop} {p : Prog ι σ ω ε γ} {k : γ → Prog ι σ ω ε β}
    (hp : p.Reads R) (hk : ∀ c, R c → (k c).ReadsThen P) : (p.bind k).ReadsThen P := by
  induction p with
  | ret c => exact hk c hp
  | raise e => exact .raise e
  | stmt writes next failed ihn ihf =>
    refine .stmt _ _ _ hp.1 (fun inp v => ihn inp v (hp.2.1 inp v)) fun e => ?_
    obtain ⟨e', he⟩ := hp.2.2 e
    exact ⟨e', by simp only [he, raise_bind]⟩
  | commit next failed ihn ihf => exact hp.elim
  | rollback next ih => exact hp.elim

theorem ReadsThen.mono {R : Prog ι σ ω ε β → Prop} {p : Prog ι σ ω ε β} (hp : p.ReadsThen P)
    (h : ∀ q, P q → R q) : p.ReadsThen R := by
  induction hp with
  | here q hq => exact .here q (h q hq)
  | raise e => exact .raise e
  | stmt writes next failed hw hn hf ih => exact .stmt writes next failed hw ih hf

/-- A result that `D` describes, or the call `p` and queries after it, whose result `Q`
relates to the result of the call. -/
def Calls (D : β → Prop) (Q : α → β → Prop) (p : Prog ι σ ω ε α) (q : Prog ι σ ω ε β) : Prop :=
  (∃ b, q = .ret b ∧ D b) ∨ ∃ f, q = p.bind f ∧ ∀ a, (f a).Reads (Q a)

/-- The program queries before it calls `p`, or does not call it. -/
def Wraps (D : β → Prop) (Q : α → β → Prop) (p : Prog ι σ ω ε α) (q : Prog ι σ ω ε β) : Prop :=
  q.ReadsThen (Calls D Q p)

theorem Wraps.mono {D' : β → Prop} {p : Prog ι σ ω ε α} {q : Prog ι σ ω ε β}
    (h : Wraps D Q p q) (hD : ∀ b, D b → D' b) : Wraps D' Q p q :=
  ReadsThen.mono h fun _ hq => hq.imp_left fun ⟨b, hb, hDb⟩ => ⟨b, hb, hD b hDb⟩

theorem wraps_bind {p : Prog ι σ ω ε α} {f : α → Prog ι σ ω ε β} (hf : ∀ a, (f a).Reads (Q a)) :
    Wraps D Q p (p.bind f) :=
  .here _ (Or.inr ⟨f, rfl, hf⟩)

end Prog

/-- A caller beside the call that it wraps: it has not come to the call or declined it, the
two are at the same point of the call, or the call has returned. -/
inductive Around (D : β → Prop) (Q : α → β → Prop) (p : Prog ι σ ω ε α) :
    Call ι σ ω ε β → Call ι σ ω ε α → Prop
  | gate (c : Call ι σ ω ε β) (writes : ι → σ → List ω) (next : ι → σ → Prog ι σ ω ε β)
      (failed : ε → Prog ι σ ω ε β) (hp : c.prog = .stmt writes next failed)
      (hw : ∀ inp v, writes inp v = []) (hn : ∀ inp v, Prog.Wraps D Q p (next inp v))
      (hf : ∀ e, ∃ e', failed e = .raise e') (hpending : c.pending = []) :
      Around D Q p c (Call.initial p)
  | declined (c : Call ι σ ω ε β) (b : β) (hp : c.prog = .ret b) (hb : D b)
      (hpending : c.pending = []) : Around D Q p c (Call.initial p)
  | stopped (c : Call ι σ ω ε β) (e : ε) (hp : c.prog = .raise e) (hpending : c.pending = []) :
      Around D Q p c (Call.initial p)
  | during (c : Call ι σ ω ε β) (d : Call ι σ ω ε α) (f : α → Prog ι σ ω ε β)
      (hp : c.prog = d.prog.bind f) (hf : ∀ a, (f a).Reads (Q a)) (hd : ∀ a, d.prog ≠ .ret a)
      (hpending : c.pending = d.pending) (hseen : d.seen.Sublist c.seen) : Around D Q p c d
  | after (c : Call ι σ ω ε β) (d : Call ι σ ω ε α) (a : α) (ha : d.prog = .ret a)
      (hp : c.prog.Reads (Q a)) (hpending : c.pending = d.pending)
      (hseen : d.seen.Sublist c.seen) : Around D Q p c d

namespace Around
variable {D : β → Prop} {Q : α → β → Prop} {p : Prog ι σ ω ε α} {c : Call ι σ ω ε β}
  {d : Call ι σ ω ε α}

theorem of_bind {f : α → Prog ι σ ω ε β} (hp : c.prog = d.prog.bind f)
    (hf : ∀ a, (f a).Reads (Q a)) (hpending : c.pending = d.pending)
    (hseen : d.seen.Sublist c.seen) : Around D Q p c d := by
  by_cases hd : ∃ a, d.prog = .ret a
  · obtain ⟨a, ha⟩ := hd
    refine .after c d a ha ?_ hpending hseen
    rw [hp, ha]
    exact hf a
  · exact .during c d f hp hf (fun a ha => hd ⟨a, ha⟩) hpending hseen

/-- Before the call has begun. -/
theorem of_wraps {q : Prog ι σ ω ε β} (hq : Prog.Wraps D Q p q) (hp : c.prog = q)
    (hpending : c.pending = []) : Around D Q p c (Call.initial p) := by
  cases hq with
  | here _ h =>
    rcases h with ⟨b, rfl, hb⟩ | ⟨f, rfl, hf⟩
    · exact .declined c b hp hb hpending
    · exact .of_bind hp hf hpending (List.nil_sublist _)
  | raise e => exact .stopped c e hp hpending
  | stmt writes next failed hw hn hf => exact .gate c writes next failed hp hw hn hf hpending

theorem pending_eq (h : Around D Q p c d) : c.pending = d.pending := by
  cases h with
  | gate writes next failed hp hw hn hf hpending => exact hpending
  | declined b hp hb hpending => exact hpending
  | stopped e hp hpending => exact hpending
  | during d f hp hf hd hpending hseen => exact hpending
  | after d a ha hp hpending hseen => exact hpending

theorem seen_sublist (h : Around D Q p c d) : d.seen.Sublist c.seen := by
  cases h with
  | gate writes next failed hp hw hn hf hpending => exact List.nil_sublist _
  | declined b hp hb hpending => exact List.nil_sublist _
  | stopped e hp hpending => exact List.nil_sublist _
  | during d f hp hf hd hpending hseen => exact hseen
  | after d a ha hp hpending hseen => exact hseen

/-- A caller that returned declined the call, or the call returned. -/
theorem of_ret (h : Around D Q p c d) {b : β} (hb : c.prog = .ret b) :
    (D b ∧ d = Call.initial p) ∨ ∃ a, d.prog = .ret a ∧ Q a b := by
  cases h with
  | gate writes next failed hp hw hn hf hpending => rw [hp] at hb; cases hb
  | declined b' hp hb' hpending =>
    obtain rfl := Prog.ret.inj (hp.symm.trans hb)
    exact Or.inl ⟨hb', rfl⟩
  | stopped e hp hpending => rw [hp] at hb; cases hb
  | during d f hp hf hd hpending hseen =>
    rw [hp] at hb
    cases hprog : d.prog with
    | ret a => exact absurd hprog (hd a)
    | raise e => rw [hprog] at hb; cases hb
    | stmt writes next failed => rw [hprog] at hb; cases hb
    | commit next failed => rw [hprog] at hb; cases hb
    | rollback next => rw [hprog] at hb; cases hb
  | after d a ha hp hpending hseen =>
    rw [hb] at hp
    exact Or.inr ⟨a, ha, hp⟩

/-- The exceptions of a call that has begun leave the caller. -/
theorem of_raise (h : Around D Q p c d) (hstarted : d.started = true) {e : ε}
    (he : d.prog = .raise e) : c.prog = .raise e := by
  cases h with
  | gate writes next failed hp hw hn hf hpending => cases hstarted
  | declined b hp hb hpending => cases hstarted
  | stopped e' hp hpending => cases hstarted
  | during d f hp hf hd hpending hseen => rw [hp, he, Prog.raise_bind]
  | after d a ha hp hpending hseen => rw [ha] at he; cases he

/-- A caller that raised did so before the call, with it, or after its return. -/
theorem of_raised (h : Around D Q p c d) {e : ε} (he : c.prog = .raise e) :
    d.started = false ∨ d.prog = .raise e ∨ ∃ a, d.prog = .ret a := by
  cases h with
  | gate writes next failed hp hw hn hf hpending => rw [hp] at he; cases he
  | declined b hp hb hpending => rw [hp] at he; cases he
  | stopped e' hp hpending => exact Or.inl rfl
  | during d f hp hf hd hpending hseen =>
    rw [hp] at he
    cases hprog : d.prog with
    | ret a => exact absurd hprog (hd a)
    | raise e' =>
      rw [hprog] at he
      exact Or.inr (Or.inl (congrArg _ (Prog.raise.inj he)))
    | stmt writes next failed => rw [hprog] at he; cases he
    | commit next failed => rw [hprog] at he; cases he
    | rollback next => rw [hprog] at he; cases he
  | after d a ha hp hpending hseen => exact Or.inr (Or.inr ⟨a, ha⟩)

end Around

/-- The two systems have made the same commits, and each caller stands around its call. -/
structure Sys.Matches (D : Fin n → β → Prop) (Q : Fin n → α → β → Prop)
    (p : Fin n → Prog ι σ ω ε α) (t : Sys n ι σ ω ε β) (s : Sys n ι σ ω ε α) : Prop where
  db : s.world.db = t.world.db
  log : s.world.log = t.world.log
  past : s.world.past.Sublist t.world.past
  calls : ∀ i, Around (D i) (Q i) (p i) (t.call i) (s.call i)

namespace Sys.Matches
variable {E : Engine ι σ ω} {D : Fin n → β → Prop} {Q : Fin n → α → β → Prop}
  {p : Fin n → Prog ι σ ω ε α} {t t' : Sys n ι σ ω ε β} {s : Sys n ι σ ω ε α}

theorem initial {W : World n ι σ ω} {q : Fin n → Prog ι σ ω ε β}
    (h : ∀ i, Prog.Wraps (D i) (Q i) (p i) (q i)) :
    (Sys.initial W q).Matches D Q p (Sys.initial W p) :=
  ⟨rfl, rfl, List.Sublist.refl _, fun i => .of_wraps (h i) rfl rfl⟩

/-- The caller moves and its call stays where it is. -/
theorem outer (h : t.Matches D Q p s) {W : World n ι σ ω} {i : Fin n} {c : Call ι σ ω ε β}
    (hdb : W.db = t.world.db) (hlog : W.log = t.world.log) (hpast : t.world.past.Sublist W.past)
    (hc : Around (D i) (Q i) (p i) c (s.call i)) :
    (({ t with world := W } : Sys n ι σ ω ε β).setCall i c).Matches D Q p s where
  db := h.db.trans hdb.symm
  log := h.log.trans hlog.symm
  past := h.past.trans hpast
  calls := Sys.forall_setCall (P := fun j c => Around (D j) (Q j) (p j) c (s.call j)) hc
    fun j _ => h.calls j

/-- Both move. -/
theorem both (h : t.Matches D Q p s) {W V : World n ι σ ω} {i : Fin n} {c : Call ι σ ω ε β}
    {d : Call ι σ ω ε α} (hdb : V.db = W.db) (hlog : V.log = W.log)
    (hpast : V.past.Sublist W.past) (hc : Around (D i) (Q i) (p i) c d) :
    (({ t with world := W } : Sys n ι σ ω ε β).setCall i c).Matches D Q p
      (({ s with world := V } : Sys n ι σ ω ε α).setCall i d) where
  db := hdb
  log := hlog
  past := hpast
  calls j := by
    by_cases hj : j = i
    · subst hj
      rw [Sys.setCall_self, Sys.setCall_self]
      exact hc
    · rw [Sys.setCall_other _ hj, Sys.setCall_other _ hj]
      exact h.calls j

/-- The locks are the same. -/
theorem free (h : t.Matches D Q p s) {i : Fin n} {ws : List ω} (hfree : t.Free E i ws) :
    s.Free E i ws := by
  intro j hj
  rw [← (h.calls j).pending_eq]
  exact hfree j hj

end Sys.Matches

namespace Sys
variable {E : Engine ι σ ω} {s s' : Sys n ι σ ω ε α} {i : Fin n}

theorem run_single {a : Action n ι ε} (h : s.step E a = some s') : s.run E [a] = some s' := by
  rw [run_cons, h]
  rfl

theorem step_ended (inp : ι)
    (hp : (∃ a, (s.call i).prog = .ret a) ∨ ∃ e, (s.call i).prog = .raise e) :
    s.step E (.run i inp) = some (s.setCall i (s.call i).close) := by
  rcases hp with ⟨a, hp⟩ | ⟨e, hp⟩ <;> simp only [step, hp]

theorem step_stmt {inp : ι} {writes : ι → σ → List ω} {next : ι → σ → Prog ι σ ω ε α}
    {failed : ε → Prog ι σ ω ε α} (hp : (s.call i).prog = .stmt writes next failed)
    (hfresh : E.fresh s.world.past inp = true)
    (hfree : s.Free E i (writes inp (E.view (s.call i).pending s.world.db))) :
    s.step E (.run i inp) = some ({ s with world := s.world.consume inp }.setCall i
      ⟨next inp (E.view (s.call i).pending s.world.db),
        (s.call i).pending ++ writes inp (E.view (s.call i).pending s.world.db),
        s.world.db :: (s.call i).seen, true⟩) := by
  simp only [step, hp]
  rw [if_pos ⟨hfresh, hfree⟩]

theorem step_commit {inp : ι} {next : Prog ι σ ω ε α} {failed : ε → Prog ι σ ω ε α}
    (hp : (s.call i).prog = .commit next failed) : s.step E (.run i inp) =
      some ({ s with world := s.world.commit E i (s.call i).pending }.setCall i
        ⟨next, [], s.world.db :: (s.call i).seen, true⟩) := by
  simp only [step, hp]

theorem step_rollback {inp : ι} {next : Prog ι σ ω ε α} (hp : (s.call i).prog = .rollback next) :
    s.step E (.run i inp) = some (s.setCall i ⟨next, [], (s.call i).seen, true⟩) := by
  simp only [step, hp]

theorem step_failed {e : ε} {failed : ε → Prog ι σ ω ε α}
    (hp : (∃ writes next, (s.call i).prog = .stmt writes next failed) ∨
      ∃ next, (s.call i).prog = .commit next failed) :
    s.step E (.fail i e) = some (s.setCall i ⟨failed e, [], (s.call i).seen, true⟩) := by
  rcases hp with ⟨writes, next, hp⟩ | ⟨next, hp⟩ <;> simp only [step, hp]

end Sys

namespace Sys.Matches
variable {E : Engine ι σ ω} {D : Fin n → β → Prop} {Q : Fin n → α → β → Prop}
  {p : Fin n → Prog ι σ ω ε α} {t t' : Sys n ι σ ω ε β} {s : Sys n ι σ ω ε α}

variable (hfresh : ∀ past past' inp, past'.Sublist past → E.fresh past inp = true →
  E.fresh past' inp = true)
include hfresh

/-- The caller is inside the call. -/
theorem step_during (h : t.Matches D Q p s) {a : Action n ι ε} (hs : Stepped E t t' a)
    {i : Fin n} (hi : a.caller = i) {f : α → Prog ι σ ω ε β}
    (hp : (t.call i).prog = (s.call i).prog.bind f) (hf : ∀ a, (f a).Reads (Q i a))
    (hd : ∀ a, (s.call i).prog ≠ .ret a) (hpending : (t.call i).pending = (s.call i).pending)
    (hseen : (s.call i).seen.Sublist (t.call i).seen) :
    ∃ s', s.step E a = some s' ∧ t'.Matches D Q p s' := by
  cases hs with
  | closed j inp hended ht =>
    obtain rfl : j = i := hi
    obtain ⟨e, he⟩ : ∃ e, (s.call j).prog = .raise e := by
      cases hprog : (s.call j).prog with
      | ret a => exact absurd hprog (hd a)
      | raise e => exact ⟨e, rfl⟩
      | _ => simp [hp, hprog, Prog.bind] at hended
    refine ⟨_, step_ended inp (Or.inr ⟨e, he⟩), ht ▸ ?_⟩
    exact h.both (W := t.world) (V := s.world) h.db h.log h.past (.of_bind hp hf rfl hseen)
  | stmt j inp writes next failed hq fresh free ht =>
    obtain rfl : j = i := hi
    cases hprog : (s.call j).prog with
    | ret a => exact absurd hprog (hd a)
    | stmt writes' next' failed' =>
      rw [hp, hprog] at hq
      cases hq
      rw [hpending, ← h.db] at free
      refine ⟨_, step_stmt hprog (hfresh _ _ _ h.past fresh) (h.free free), ht ▸ ?_⟩
      refine h.both h.db h.log (h.past.cons_cons inp) (.of_bind ?_ hf ?_ ?_)
      · simp only [hpending, h.db]
      · simp only [hpending, h.db]
      · simp only [h.db]
        exact hseen.cons_cons _
    | _ => simp [hp, hprog, Prog.bind] at hq
  | commit j inp next failed hq ht =>
    obtain rfl : j = i := hi
    cases hprog : (s.call j).prog with
    | ret a => exact absurd hprog (hd a)
    | commit next' failed' =>
      rw [hp, hprog] at hq
      cases hq
      refine ⟨_, step_commit hprog, ht ▸ ?_⟩
      refine h.both ?_ ?_ h.past (.of_bind rfl hf rfl ?_)
      · simp only [World.commit_db, hpending, h.db]
      · simp only [World.commit_log, hpending, h.log]
      · simp only [h.db]
        exact hseen.cons_cons _
    | _ => simp [hp, hprog, Prog.bind] at hq
  | rollback j inp next hq ht =>
    obtain rfl : j = i := hi
    cases hprog : (s.call j).prog with
    | ret a => exact absurd hprog (hd a)
    | rollback next' =>
      rw [hp, hprog] at hq
      cases hq
      refine ⟨_, step_rollback hprog, ht ▸ ?_⟩
      exact h.both (W := t.world) (V := s.world) h.db h.log h.past (.of_bind rfl hf rfl hseen)
    | _ => simp [hp, hprog, Prog.bind] at hq
  | failed j e failed hq ht =>
    obtain rfl : j = i := hi
    obtain ⟨failed', hq', hfailed⟩ : ∃ failed' : ε → Prog ι σ ω ε α,
        ((∃ writes next, (s.call j).prog = .stmt writes next failed') ∨
          ∃ next, (s.call j).prog = .commit next failed') ∧ failed e = (failed' e).bind f := by
      cases hprog : (s.call j).prog with
      | ret a => exact absurd hprog (hd a)
      | stmt writes' next' failed' =>
        rcases hq with ⟨writes, next, hq⟩ | ⟨next, hq⟩ <;> rw [hp, hprog] at hq <;> cases hq
        exact ⟨failed', Or.inl ⟨_, _, rfl⟩, rfl⟩
      | commit next' failed' =>
        rcases hq with ⟨writes, next, hq⟩ | ⟨next, hq⟩ <;> rw [hp, hprog] at hq <;> cases hq
        exact ⟨failed', Or.inr ⟨_, rfl⟩, rfl⟩
      | _ => simp [hp, hprog, Prog.bind] at hq
    refine ⟨_, step_failed hq', ht ▸ ?_⟩
    exact h.both (W := t.world) (V := s.world) h.db h.log h.past (.of_bind hfailed hf rfl hseen)

omit hfresh in
/-- The caller queries before the call. -/
theorem step_gate (h : t.Matches D Q p s) {a : Action n ι ε} (hs : Stepped E t t' a) {i : Fin n}
    (hi : a.caller = i) (hs₀ : s.call i = Call.initial (p i))
    {writes : ι → σ → List ω} {next : ι → σ → Prog ι σ ω ε β} {failed : ε → Prog ι σ ω ε β}
    (hp : (t.call i).prog = .stmt writes next failed) (hw : ∀ inp v, writes inp v = [])
    (hn : ∀ inp v, Prog.Wraps (D i) (Q i) (p i) (next inp v))
    (hf : ∀ e, ∃ e', failed e = .raise e') (hpending : (t.call i).pending = []) :
    t'.Matches D Q p s := by
  cases hs with
  | closed j inp hended ht =>
    obtain rfl : j = i := hi
    simp [hp] at hended
  | stmt j inp writes' next' failed' hq fresh free ht =>
    obtain rfl : j = i := hi
    rw [hp] at hq
    cases hq
    refine ht ▸ h.outer rfl rfl (List.sublist_cons_self _ _) ?_
    rw [hs₀]
    refine .of_wraps (hn _ _) rfl ?_
    simp only [hpending, hw, List.append_nil]
  | commit j inp next' failed' hq ht =>
    obtain rfl : j = i := hi
    rw [hp] at hq
    cases hq
  | rollback j inp next' hq ht =>
    obtain rfl : j = i := hi
    rw [hp] at hq
    cases hq
  | failed j e failed' hq ht =>
    obtain rfl : j = i := hi
    obtain rfl : failed = failed' := by
      rcases hq with ⟨_, _, hq⟩ | ⟨_, hq⟩ <;> rw [hp] at hq <;> cases hq
      rfl
    obtain ⟨e', he⟩ := hf e
    refine ht ▸ h.outer (W := t.world) rfl rfl (List.Sublist.refl _) ?_
    rw [hs₀]
    exact .stopped _ e' he rfl

omit hfresh in
/-- The caller has ended without the call. -/
theorem step_without (h : t.Matches D Q p s) {a : Action n ι ε} (hs : Stepped E t t' a) {i : Fin n}
    (hi : a.caller = i) (hs₀ : s.call i = Call.initial (p i))
    (hp : (∃ b, (t.call i).prog = .ret b ∧ D i b) ∨ ∃ e, (t.call i).prog = .raise e) :
    t'.Matches D Q p s := by
  cases hs with
  | closed j inp hended ht =>
    obtain rfl : j = i := hi
    refine ht ▸ h.outer (W := t.world) rfl rfl (List.Sublist.refl _) ?_
    rw [hs₀]
    rcases hp with ⟨b, hp, hb⟩ | ⟨e, hp⟩
    · exact .declined _ b hp hb rfl
    · exact .stopped _ e hp rfl
  | stmt j inp writes next failed hq fresh free ht =>
    obtain rfl : j = i := hi
    simp [hq] at hp
  | commit j inp next failed hq ht =>
    obtain rfl : j = i := hi
    simp [hq] at hp
  | rollback j inp next hq ht =>
    obtain rfl : j = i := hi
    simp [hq] at hp
  | failed j e failed hq ht =>
    obtain rfl : j = i := hi
    rcases hq with ⟨_, _, hq⟩ | ⟨_, hq⟩ <;> simp [hq] at hp

omit hfresh in
/-- The call has returned. When a query after it fails, the transaction of the call, which
may still be open, ends as well. -/
theorem step_after (inp₀ : ι) (h : t.Matches D Q p s) {a : Action n ι ε} (hs : Stepped E t t' a)
    {i : Fin n} (hi : a.caller = i) {x : α}
    (hx : (s.call i).prog = .ret x) (hp : (t.call i).prog.Reads (Q i x))
    (hpending : (t.call i).pending = (s.call i).pending)
    (hseen : (s.call i).seen.Sublist (t.call i).seen) :
    ∃ bs s', s.run E bs = some s' ∧ t'.Matches D Q p s' := by
  have hclose : s.run E [.run i inp₀] = some (s.setCall i (s.call i).close) :=
    run_single (step_ended inp₀ (Or.inl ⟨x, hx⟩))
  cases hs with
  | closed j inp hended ht =>
    obtain rfl : j = i := hi
    refine ⟨_, _, hclose, ht ▸ ?_⟩
    exact h.both (W := t.world) (V := s.world) h.db h.log h.past (.after _ _ x hx hp rfl hseen)
  | stmt j inp writes next failed hq fresh free ht =>
    obtain rfl : j = i := hi
    rw [hq] at hp
    refine ⟨[], s, rfl, ht ▸ h.outer rfl rfl (List.sublist_cons_self _ _) ?_⟩
    refine .after _ _ x hx (hp.2.1 _ _) ?_ (hseen.trans (List.sublist_cons_self _ _))
    rw [hp.1, List.append_nil, hpending]
  | commit j inp next failed hq ht =>
    obtain rfl : j = i := hi
    rw [hq] at hp
    exact hp.elim
  | rollback j inp next hq ht =>
    obtain rfl : j = i := hi
    rw [hq] at hp
    exact hp.elim
  | failed j e failed hq ht =>
    obtain rfl : j = i := hi
    rcases hq with ⟨writes, next, hq⟩ | ⟨next, hq⟩
    · rw [hq] at hp
      obtain ⟨e', he⟩ := hp.2.2 e
      refine ⟨_, _, hclose, ht ▸ ?_⟩
      refine h.both (W := t.world) (V := s.world) h.db h.log h.past (.after _ _ x hx ?_ rfl hseen)
      rw [he]
      trivial
    · rw [hq] at hp
      exact hp.elim

/-- Every step of the callers is matched by at most one step of the calls. -/
theorem step (inp₀ : ι) (h : t.Matches D Q p s) {a : Action n ι ε} (hs : t.step E a = some t') :
    ∃ bs s', s.run E bs = some s' ∧ t'.Matches D Q p s' := by
  have hstepped := step_cases hs
  generalize hi : a.caller = i
  generalize hd : s.call i = d
  have hcall := h.calls i
  rw [hd] at hcall
  cases hcall with
  | gate writes next failed hp hw hn hf hpending =>
    exact ⟨[], s, rfl, h.step_gate hstepped hi hd hp hw hn hf hpending⟩
  | declined b hp hb hpending =>
    exact ⟨[], s, rfl, h.step_without hstepped hi hd (Or.inl ⟨b, hp, hb⟩)⟩
  | stopped e hp hpending =>
    exact ⟨[], s, rfl, h.step_without hstepped hi hd (Or.inr ⟨e, hp⟩)⟩
  | during d f hp hf hnot hpending hseen =>
    subst hd
    obtain ⟨s', hs', hm⟩ := h.step_during hfresh hstepped hi hp hf hnot hpending hseen
    exact ⟨_, s', run_single hs', hm⟩
  | after d x hx hp hpending hseen =>
    subst hd
    exact h.step_after inp₀ hstepped hi hx hp hpending hseen

/-- Every run of the callers is matched by a run of the calls. -/
theorem run (inp₀ : ι) (h : t.Matches D Q p s) {as : List (Action n ι ε)}
    (hr : t.run E as = some t') : ∃ bs s', s.run E bs = some s' ∧ t'.Matches D Q p s' := by
  refine Sys.run_invariant (I := fun _ u => ∃ bs s', s.run E bs = some s' ∧ u.Matches D Q p s')
    hr ⟨[], s, rfl, h⟩ fun _ _ u u' _ _ hu hstep => ?_
  obtain ⟨bs, s₁, hbs, hm⟩ := hu
  obtain ⟨cs, s₂, hcs, hm'⟩ := hm.step hfresh inp₀ hstep
  refine ⟨bs ++ cs, s₂, ?_, hm'⟩
  rw [run_append, hbs]
  exact hcs

end Sys.Matches

end EnvVault.Transactions
