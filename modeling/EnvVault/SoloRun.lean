import EnvVault.RelyGuarantee

/-!
# A program running alone

`exec` runs one program to its end with no other transaction open, taking the
environment's inputs from a stream. It is the machine of `Transactions` under
the schedule that runs this caller only, and a program that satisfies its `wlp`
keeps the invariant of its contract when run alone.
-/
namespace EnvVault.Transactions

variable {n : ℕ} {ι σ ω ε α β : Type}

/-- The position in the input stream, the writes of the open transaction and the
committed store. -/
structure Solo (σ ω : Type) where
  next : ℕ
  pending : List ω
  db : σ

def Prog.exec (E : Engine ι σ ω) (inputs : ℕ → ι) :
    Prog ι σ ω ε α → Solo σ ω → Except ε α × Solo σ ω
  | .ret a, s => (.ok a, s)
  | .raise e, s => (.error e, s)
  | .stmt writes next _, s =>
      (next (inputs s.next) (E.view s.pending s.db)).exec E inputs
        ⟨s.next + 1, s.pending ++ writes (inputs s.next) (E.view s.pending s.db), s.db⟩
  | .commit next _, s => next.exec E inputs ⟨s.next, [], E.view s.pending s.db⟩
  | .rollback next, s => next.exec E inputs ⟨s.next, [], s.db⟩

namespace Prog
variable (E : Engine ι σ ω) (inputs : ℕ → ι)

@[simp] theorem exec_ret (a : α) (s : Solo σ ω) :
    (ret a : Prog ι σ ω ε α).exec E inputs s = (.ok a, s) := rfl

@[simp] theorem exec_raise (e : ε) (s : Solo σ ω) :
    (raise e : Prog ι σ ω ε α).exec E inputs s = (.error e, s) := rfl

theorem exec_bind (p : Prog ι σ ω ε α) (f : α → Prog ι σ ω ε β) (s : Solo σ ω) :
    (p.bind f).exec E inputs s = match p.exec E inputs s with
      | (.ok a, t) => (f a).exec E inputs t
      | (.error e, t) => (.error e, t) := by
  induction p generalizing s with
  | ret a => rfl
  | raise e => rfl
  | stmt writes next failed ihn ihf => exact ihn _ _ _
  | commit next failed ihn ihf => exact ihn _
  | rollback next ih => exact ih _

theorem exec_handle (p : Prog ι σ ω ε α) (h : ε → Prog ι σ ω ε α) (s : Solo σ ω) :
    (p.handle h).exec E inputs s = match p.exec E inputs s with
      | (.ok a, t) => (.ok a, t)
      | (.error e, t) => (h e).exec E inputs t := by
  induction p generalizing s with
  | ret a => rfl
  | raise e => rfl
  | stmt writes next failed ihn ihf => exact ihn _ _ _
  | commit next failed ihn ihf => exact ihn _
  | rollback next ih => exact ih _

theorem exec_map (f : α → β) (p : Prog ι σ ω ε α) (s : Solo σ ω) :
    (f <$> p).exec E inputs s = ((p.exec E inputs s).1.map f, (p.exec E inputs s).2) := by
  rw [map_eq, exec_bind]
  cases hexec : p.exec E inputs s with
  | mk result t => cases result <;> rfl

theorem exec_statement (f : ι → σ → Except ε (List ω × α)) (s : Solo σ ω) :
    (statement f).exec E inputs s = match f (inputs s.next) (E.view s.pending s.db) with
      | .ok (ws, a) => (.ok a, ⟨s.next + 1, s.pending ++ ws, s.db⟩)
      | .error e => (.error e, ⟨s.next + 1, s.pending, s.db⟩) := by
  simp only [statement, exec]
  cases hf : f (inputs s.next) (E.view s.pending s.db) with
  | ok r => simp [answerNext, answerWrites]
  | error e => simp [answerNext, answerWrites]

@[simp] theorem exec_commitNow (s : Solo σ ω) :
    (commitNow : Prog ι σ ω ε Unit).exec E inputs s =
      (.ok (), ⟨s.next, [], E.view s.pending s.db⟩) := rfl

@[simp] theorem exec_rollbackNow (s : Solo σ ω) :
    (rollbackNow : Prog ι σ ω ε Unit).exec E inputs s = (.ok (), ⟨s.next, [], s.db⟩) := rfl

/-- A program takes its inputs in order. -/
theorem exec_next_le (p : Prog ι σ ω ε α) (s : Solo σ ω) :
    s.next ≤ (p.exec E inputs s).2.next := by
  induction p generalizing s with
  | ret a => exact le_rfl
  | raise e => exact le_rfl
  | stmt writes next failed ihn ihf =>
    have h := ihn (inputs s.next) (E.view s.pending s.db)
      ⟨s.next + 1, s.pending ++ writes (inputs s.next) (E.view s.pending s.db), s.db⟩
    rw [exec]
    exact (Nat.le_succ _).trans h
  | commit next failed ihn ihf =>
    have h := ihn ⟨s.next, [], E.view s.pending s.db⟩
    rw [exec]
    exact h
  | rollback next ih =>
    have h := ih ⟨s.next, [], s.db⟩
    rw [exec]
    exact h

/-- Alone, over this store and these open writes, the program returns this result and
writes nothing. -/
def Answers (p : Prog ι σ ω ε α) (ws : List ω) (db : σ) (a : α) : Prop :=
  ∀ k, ∃ k', p.exec E inputs ⟨k, ws, db⟩ = (.ok a, ⟨k', ws, db⟩)

/-- Alone it raises this exception and writes nothing. -/
def Refuses (p : Prog ι σ ω ε α) (ws : List ω) (db : σ) (e : ε) : Prop :=
  ∀ k, ∃ k', p.exec E inputs ⟨k, ws, db⟩ = (.error e, ⟨k', ws, db⟩)

/-- Alone, from wherever the inputs stand, the program ends in this way. -/
def Ends (p : Prog ι σ ω ε α) (ws : List ω) (db : σ) (post : Except ε α → Solo σ ω → Prop) :
    Prop :=
  ∀ k, post (p.exec E inputs ⟨k, ws, db⟩).1 (p.exec E inputs ⟨k, ws, db⟩).2

section
variable {E inputs} {p : Prog ι σ ω ε α} {f : α → Prog ι σ ω ε β} {ws : List ω} {db : σ} {a : α}
  {b : β} {e : ε} {post : Except ε β → Solo σ ω → Prop}

theorem answers_ret : (ret a : Prog ι σ ω ε α).Answers E inputs ws db a := fun k => ⟨k, rfl⟩

theorem refuses_raise : (raise e : Prog ι σ ω ε α).Refuses E inputs ws db e := fun k => ⟨k, rfl⟩

theorem answers_statement {g : ι → σ → Except ε (List ω × α)}
    (h : ∀ inp, g inp (E.view ws db) = .ok ([], a)) : (statement g).Answers E inputs ws db a :=
  fun k => ⟨k + 1, by simp [exec_statement, h]⟩

theorem refuses_statement {g : ι → σ → Except ε (List ω × α)}
    (h : ∀ inp, g inp (E.view ws db) = .error e) : (statement g).Refuses E inputs ws db e :=
  fun k => ⟨k + 1, by simp [exec_statement, h]⟩

theorem Answers.bind (hp : p.Answers E inputs ws db a) (hf : (f a).Answers E inputs ws db b) :
    (p.bind f).Answers E inputs ws db b := by
  intro k
  obtain ⟨k', hk'⟩ := hp k
  obtain ⟨k₂, hk₂⟩ := hf k'
  exact ⟨k₂, by rw [exec_bind, hk', ← hk₂]⟩

theorem Answers.refuses (hp : p.Answers E inputs ws db a) (hf : (f a).Refuses E inputs ws db e) :
    (p.bind f).Refuses E inputs ws db e := by
  intro k
  obtain ⟨k', hk'⟩ := hp k
  obtain ⟨k₂, hk₂⟩ := hf k'
  exact ⟨k₂, by rw [exec_bind, hk', ← hk₂]⟩

theorem Refuses.bind (hp : p.Refuses E inputs ws db e) : (p.bind f).Refuses E inputs ws db e := by
  intro k
  obtain ⟨k', hk'⟩ := hp k
  exact ⟨k', by rw [exec_bind, hk']⟩

theorem Answers.ends (hp : p.Answers E inputs ws db a) (hf : (f a).Ends E inputs ws db post) :
    (p.bind f).Ends E inputs ws db post := by
  intro k
  obtain ⟨k', hk'⟩ := hp k
  rw [exec_bind, hk']
  exact hf k'

theorem Answers.ends_ret {post : Except ε α → Solo σ ω → Prop} (hp : p.Answers E inputs ws db a)
    (h : ∀ k, post (.ok a) ⟨k, ws, db⟩) : p.Ends E inputs ws db post := by
  intro k
  obtain ⟨k', hk'⟩ := hp k
  rw [hk']
  exact h k'

theorem Refuses.ends {post : Except ε α → Solo σ ω → Prop} (hp : p.Refuses E inputs ws db e)
    (h : ∀ k, post (.error e) ⟨k, ws, db⟩) : p.Ends E inputs ws db post := by
  intro k
  obtain ⟨k', hk'⟩ := hp k
  rw [hk']
  exact h k'

/-- A statement that succeeds whatever the input adds its writes. -/
theorem ends_statement_bind {g : ι → σ → Except ε (List ω × α)}
    (h : ∀ k, ∃ vs a, g (inputs k) (E.view ws db) = .ok (vs, a) ∧
      (f a).Ends E inputs (ws ++ vs) db post) :
    ((statement g).bind f).Ends E inputs ws db post := by
  intro k
  obtain ⟨vs, a, hg, hf⟩ := h k
  rw [exec_bind, exec_statement, hg]
  exact hf (k + 1)

theorem ends_commit_bind {f : Unit → Prog ι σ ω ε β}
    (h : (f ()).Ends E inputs [] (E.view ws db) post) :
    (commitNow.bind f).Ends E inputs ws db post := by
  intro k
  rw [exec_bind, exec_commitNow]
  exact h k

end

end Prog

/-- The inputs `inputs 0, …, inputs (k - 1)`, newest first. -/
def consumed (inputs : ℕ → ι) : ℕ → List ι
  | 0 => []
  | k + 1 => inputs k :: consumed inputs k

theorem mem_consumed {inputs : ℕ → ι} {i k : ℕ} (h : i < k) : inputs i ∈ consumed inputs k := by
  induction k with
  | zero => omega
  | succ k ih =>
    by_cases hik : i = k
    · subst hik
      exact List.mem_cons_self
    · exact List.mem_cons_of_mem _ (ih (by omega))

/-- A stream whose every input is admissible after those before it and `past`. -/
def FreshStream (E : Engine ι σ ω) (inputs : ℕ → ι) (past : List ι) : Prop :=
  ∀ k, E.fresh (consumed inputs k ++ past) (inputs k) = true

/-- The program that is over with this outcome. -/
def Prog.ofResult : Except ε α → Prog ι σ ω ε α
  | .ok a => .ret a
  | .error e => .raise e

/-- Caller `i` stands at this program as `exec` would from `so`, and no other
transaction is open. -/
structure StandsAlone (inputs : ℕ → ι) (past : List ι) (i : Fin n) (p : Prog ι σ ω ε α)
    (so : Solo σ ω) (s : Sys n ι σ ω ε α) : Prop where
  idle : ∀ j, j ≠ i → (s.call j).pending = []
  prog : (s.call i).prog = p
  pending : (s.call i).pending = so.pending
  db : s.world.db = so.db
  past : s.world.past = consumed inputs so.next ++ past

namespace StandsAlone
variable {E : Engine ι σ ω} {inputs : ℕ → ι} {past : List ι} {i : Fin n} {so : Solo σ ω}
  {s : Sys n ι σ ω ε α}

theorem stmt {writes : ι → σ → List ω} {next : ι → σ → Prog ι σ ω ε α}
    {failed : ε → Prog ι σ ω ε α} (hf : FreshStream E inputs past)
    (h : StandsAlone inputs past i (.stmt writes next failed) so s) :
    ∃ t, s.step E (.run i (inputs so.next)) = some t ∧
      StandsAlone inputs past i (next (inputs so.next) (E.view so.pending so.db))
        ⟨so.next + 1, so.pending ++ writes (inputs so.next) (E.view so.pending so.db), so.db⟩ t ∧
      ∀ j, j ≠ i → t.call j = s.call j := by
  have hfresh : E.fresh s.world.past (inputs so.next) = true := by
    rw [h.past]
    exact hf so.next
  have hfree : s.Free E i (writes (inputs so.next) (E.view (s.call i).pending s.world.db)) := by
    intro j hj
    simp [h.idle j hj]
  refine ⟨Sys.setCall { s with world := s.world.consume (inputs so.next) } i
    ⟨next (inputs so.next) (E.view so.pending so.db),
      so.pending ++ writes (inputs so.next) (E.view so.pending so.db),
      s.world.db :: (s.call i).seen, true⟩, ?_,
    ⟨fun j hj => ?_, by simp, by simp, h.db, by simp [h.past, consumed]⟩,
    fun j hj => Sys.setCall_other _ hj _⟩
  · simp only [Sys.step, h.prog, hfresh, hfree, and_self, if_true]
    simp only [h.pending, h.db]
  · simpa [Sys.setCall_other _ hj] using h.idle j hj

theorem commit {next : Prog ι σ ω ε α} {failed : ε → Prog ι σ ω ε α}
    (h : StandsAlone inputs past i (.commit next failed) so s) :
    ∃ t, s.step E (.run i (inputs 0)) = some t ∧
      StandsAlone inputs past i next ⟨so.next, [], E.view so.pending so.db⟩ t ∧
      ∀ j, j ≠ i → t.call j = s.call j := by
  refine ⟨Sys.setCall { s with world := s.world.commit E i so.pending } i
    ⟨next, [], s.world.db :: (s.call i).seen, true⟩, ?_,
    ⟨fun j hj => ?_, by simp, by simp, by simp [h.db], by simp [h.past]⟩,
    fun j hj => Sys.setCall_other _ hj _⟩
  · simp only [Sys.step, h.prog, h.pending]
  · simpa [Sys.setCall_other _ hj] using h.idle j hj

theorem rollback {next : Prog ι σ ω ε α} (h : StandsAlone inputs past i (.rollback next) so s) :
    ∃ t, s.step E (.run i (inputs 0)) = some t ∧
      StandsAlone inputs past i next ⟨so.next, [], so.db⟩ t ∧
      ∀ j, j ≠ i → t.call j = s.call j := by
  refine ⟨s.setCall i ⟨next, [], (s.call i).seen, true⟩, ?_,
    ⟨fun j hj => ?_, by simp, by simp, h.db, h.past⟩, fun j hj => Sys.setCall_other _ hj _⟩
  · simp only [Sys.step, h.prog]
  · simpa [Sys.setCall_other _ hj] using h.idle j hj

/-- A step of the caller made to fail. -/
theorem fail {p : Prog ι σ ω ε α} {failed : ε → Prog ι σ ω ε α} {e : ε}
    (hp : (∃ writes next, p = .stmt writes next failed) ∨ ∃ next, p = .commit next failed)
    (h : StandsAlone inputs past i p so s) :
    ∃ t, s.step E (.fail i e) = some t ∧
      StandsAlone inputs past i (failed e) ⟨so.next, [], so.db⟩ t ∧
      ∀ j, j ≠ i → t.call j = s.call j := by
  refine ⟨s.setCall i ⟨failed e, [], (s.call i).seen, true⟩, ?_,
    ⟨fun j hj => ?_, by simp, by simp, h.db, h.past⟩, fun j hj => Sys.setCall_other _ hj _⟩
  · rcases hp with ⟨writes, next, rfl⟩ | ⟨next, rfl⟩ <;> simp only [Sys.step, h.prog]
  · simpa [Sys.setCall_other _ hj] using h.idle j hj

end StandsAlone

/-- Some run of caller `i` ends its program with this outcome, these open writes and this
store, and leaves the other callers alone. -/
def RunsTo (E : Engine ι σ ω) (i : Fin n) (s : Sys n ι σ ω ε α)
    (out : Except ε α × Solo σ ω) : Prop :=
  ∃ as t, s.run E as = some t ∧ (t.call i).prog = .ofResult out.1 ∧
    (t.call i).pending = out.2.pending ∧ t.world.db = out.2.db ∧ ∀ j, j ≠ i → t.call j = s.call j

theorem StandsAlone.over {E : Engine ι σ ω} {inputs : ℕ → ι} {past : List ι} {i : Fin n}
    {r : Except ε α} {so : Solo σ ω} {s : Sys n ι σ ω ε α}
    (h : StandsAlone inputs past i (.ofResult r) so s) : RunsTo E i s (r, so) :=
  ⟨[], s, rfl, h.prog, h.pending, h.db, fun _ _ => rfl⟩

theorem RunsTo.of_step {E : Engine ι σ ω} {i : Fin n} {s t : Sys n ι σ ω ε α} {a : Action n ι ε}
    {out : Except ε α × Solo σ ω} (hs : s.step E a = some t)
    (hsame : ∀ j, j ≠ i → t.call j = s.call j) (h : RunsTo E i t out) : RunsTo E i s out := by
  obtain ⟨as, u, hrun, hp, hpe, hd, ho⟩ := h
  refine ⟨a :: as, u, ?_, hp, hpe, hd, fun j hj => (ho j hj).trans (hsame j hj)⟩
  rw [Sys.run_cons, hs]
  exact hrun

/-- `exec` is the machine when only this caller is scheduled, in any state in which no other
transaction is open. -/
theorem StandsAlone.runsTo {E : Engine ι σ ω} {inputs : ℕ → ι} {past : List ι} {i : Fin n}
    {p : Prog ι σ ω ε α} {so : Solo σ ω} {s : Sys n ι σ ω ε α} (hf : FreshStream E inputs past)
    (h : StandsAlone inputs past i p so s) : RunsTo E i s (p.exec E inputs so) := by
  induction p generalizing so s with
  | ret a => exact h.over (r := .ok a)
  | raise e => exact h.over (r := .error e)
  | stmt writes next failed ihn ihf =>
    obtain ⟨t, hs, ht, hsame⟩ := h.stmt hf
    exact .of_step hs hsame (ihn _ _ ht)
  | commit next failed ihn ihf =>
    obtain ⟨t, hs, ht, hsame⟩ := h.commit (E := E)
    exact .of_step hs hsame (ihn ht)
  | rollback next ih =>
    obtain ⟨t, hs, ht, hsame⟩ := h.rollback (E := E)
    exact .of_step hs hsame (ih ht)

end EnvVault.Transactions
