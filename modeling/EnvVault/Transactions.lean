import Mathlib.Logic.Function.Basic
import Mathlib.Data.Fin.Basic
import Mathlib.Data.Fintype.Basic
import Mathlib.Data.List.Basic
import EnvVault.Runs

/-!
# Transaction programs and their interleavings at READ COMMITTED

A program is a resumption: a statement reads the current view and an input of
its environment (a generated key, a clock reading, random bytes), records row
writes, and decides how the program goes on. Nothing here fixes what a store or
a row write is. A system runs one program for each caller against a committed
store; a statement sees the store committed at that moment with the
transaction's own writes on top, and waits while one of its writes conflicts
with a pending write of another transaction.
-/
namespace EnvVault.Transactions

/-- `failed` is where the program goes on when the environment makes the
statement (or the COMMIT) fail. -/
inductive Prog (ι σ ω ε α : Type) : Type
  | ret (a : α)
  | raise (e : ε)
  | stmt (writes : ι → σ → List ω) (next : ι → σ → Prog ι σ ω ε α)
      (failed : ε → Prog ι σ ω ε α)
  | commit (next : Prog ι σ ω ε α) (failed : ε → Prog ι σ ω ε α)
  | rollback (next : Prog ι σ ω ε α)

namespace Prog
variable {ι σ ω ε α β γ : Type}

def bind (f : α → Prog ι σ ω ε β) : Prog ι σ ω ε α → Prog ι σ ω ε β
  | ret a => f a
  | raise e => raise e
  | stmt writes next failed =>
      stmt writes (fun i v => (next i v).bind f) (fun e => (failed e).bind f)
  | commit next failed => commit (next.bind f) (fun e => (failed e).bind f)
  | rollback next => rollback (next.bind f)

/-- Exceptions of the program and failures of its statements alike reach the
handler; the handler itself is not protected. -/
def handle (h : ε → Prog ι σ ω ε α) : Prog ι σ ω ε α → Prog ι σ ω ε α
  | ret a => ret a
  | raise e => h e
  | stmt writes next failed =>
      stmt writes (fun i v => (next i v).handle h) (fun e => (failed e).handle h)
  | commit next failed => commit (next.handle h) (fun e => (failed e).handle h)
  | rollback next => rollback (next.handle h)

instance : Monad (Prog ι σ ω ε) where
  pure := ret
  bind p f := p.bind f

instance : MonadExceptOf ε (Prog ι σ ω ε) where
  throw := raise
  tryCatch p h := p.handle h

@[simp] theorem pure_eq (a : α) : (pure a : Prog ι σ ω ε α) = ret a := rfl

@[simp] theorem bind_eq (p : Prog ι σ ω ε α) (f : α → Prog ι σ ω ε β) :
    p >>= f = p.bind f := rfl

@[simp] theorem map_eq (p : Prog ι σ ω ε α) (f : α → β) :
    f <$> p = p.bind (fun a => ret (f a)) := rfl

@[simp] theorem throw_eq (e : ε) : (throw e : Prog ι σ ω ε α) = raise e := rfl

@[simp] theorem tryCatch_eq (p : Prog ι σ ω ε α) (h : ε → Prog ι σ ω ε α) :
    tryCatch p h = p.handle h := rfl

@[simp] theorem ret_bind (a : α) (f : α → Prog ι σ ω ε β) : (ret a).bind f = f a := rfl

@[simp] theorem raise_bind (e : ε) (f : α → Prog ι σ ω ε β) : (raise e).bind f = raise e := rfl

theorem bind_assoc (p : Prog ι σ ω ε α) (f : α → Prog ι σ ω ε β) (g : β → Prog ι σ ω ε γ) :
    (p.bind f).bind g = p.bind (fun a => (f a).bind g) := by
  induction p with
  | ret a => rfl
  | raise e => rfl
  | stmt writes next failed ihn ihf => simp only [bind, ihn, ihf]
  | commit next failed ihn ihf => simp only [bind, ihn, ihf]
  | rollback next ih => simp only [bind, ih]

theorem bind_ret (p : Prog ι σ ω ε α) : p.bind ret = p := by
  induction p with
  | ret a => rfl
  | raise e => rfl
  | stmt writes next failed ihn ihf => simp only [bind, ihn, ihf]
  | commit next failed ihn ihf => simp only [bind, ihn, ihf]
  | rollback next ih => simp only [bind, ih]

def answerWrites : Except ε (List ω × α) → List ω
  | .ok r => r.1
  | .error _ => []

def answerNext : Except ε (List ω × α) → Prog ι σ ω ε α
  | .ok r => ret r.2
  | .error e => raise e

@[simp] theorem answerWrites_ok (ws : List ω) (a : α) :
    answerWrites (.ok (ws, a) : Except ε (List ω × α)) = ws := rfl
@[simp] theorem answerWrites_error (e : ε) :
    answerWrites (.error e : Except ε (List ω × α)) = [] := rfl
@[simp] theorem answerNext_ok (ws : List ω) (a : α) :
    (answerNext (.ok (ws, a)) : Prog ι σ ω ε α) = ret a := rfl
@[simp] theorem answerNext_error (e : ε) :
    (answerNext (.error e : Except ε (List ω × α)) : Prog ι σ ω ε α) = raise e := rfl

/-- One SQL statement: from the input and the view it either raises or answers
and records its row writes. -/
def statement (f : ι → σ → Except ε (List ω × α)) : Prog ι σ ω ε α :=
  stmt (fun i v => answerWrites (f i v)) (fun i v => answerNext (f i v)) raise

/-- Every statement of the program, on whatever path, satisfies `P`. -/
def Comprises (P : (ι → σ → List ω) → Prop) : Prog ι σ ω ε α → Prop
  | ret _ => True
  | raise _ => True
  | stmt writes next failed => P writes ∧ (∀ inp v, (next inp v).Comprises P) ∧
      ∀ e, (failed e).Comprises P
  | commit next failed => next.Comprises P ∧ ∀ e, (failed e).Comprises P
  | rollback next => next.Comprises P

theorem Comprises.mono {P Q : (ι → σ → List ω) → Prop} (hPQ : ∀ w, P w → Q w)
    {p : Prog ι σ ω ε α} (hp : p.Comprises P) : p.Comprises Q := by
  induction p with
  | ret a => trivial
  | raise e => trivial
  | stmt writes next failed ihn ihf =>
    exact ⟨hPQ _ hp.1, fun inp v => ihn _ _ (hp.2.1 inp v), fun e => ihf e (hp.2.2 e)⟩
  | commit next failed ihn ihf => exact ⟨ihn hp.1, fun e => ihf e (hp.2 e)⟩
  | rollback next ih => exact ih hp

theorem Comprises.bind {P : (ι → σ → List ω) → Prop} {p : Prog ι σ ω ε α}
    {f : α → Prog ι σ ω ε β} (hp : p.Comprises P) (hf : ∀ a, (f a).Comprises P) :
    (p.bind f).Comprises P := by
  induction p with
  | ret a => exact hf a
  | raise e => trivial
  | stmt writes next failed ihn ihf =>
    exact ⟨hp.1, fun inp v => ihn _ _ (hp.2.1 inp v), fun e => ihf e (hp.2.2 e)⟩
  | commit next failed ihn ihf => exact ⟨ihn hp.1, fun e => ihf e (hp.2 e)⟩
  | rollback next ih => exact ih hp

theorem Comprises.handle {P : (ι → σ → List ω) → Prop} {p : Prog ι σ ω ε α}
    {h : ε → Prog ι σ ω ε α} (hp : p.Comprises P) (hh : ∀ e, (h e).Comprises P) :
    (p.handle h).Comprises P := by
  induction p with
  | ret a => trivial
  | raise e => exact hh e
  | stmt writes next failed ihn ihf =>
    exact ⟨hp.1, fun inp v => ihn _ _ (hp.2.1 inp v), fun e => ihf e (hp.2.2 e)⟩
  | commit next failed ihn ihf => exact ⟨ihn hp.1, fun e => ihf e (hp.2 e)⟩
  | rollback next ih => exact ih hp

theorem Comprises.statement {P : (ι → σ → List ω) → Prop}
    {f : ι → σ → Except ε (List ω × α)} (h : P fun inp v => answerWrites (f inp v)) :
    (statement f).Comprises P := by
  refine ⟨h, fun inp v => ?_, fun _ => trivial⟩
  dsimp only
  cases f inp v <;> trivial

/-- COMMIT, with nothing left to do afterwards. -/
def commitNow : Prog ι σ ω ε Unit := commit (ret ()) raise

def rollbackNow : Prog ι σ ω ε Unit := rollback (ret ())

end Prog

/-- What the machine needs to know of a store: how a row write acts on it, which
writes of two open transactions exclude each other, and which inputs the
environment may still produce after those already consumed. -/
structure Engine (ι σ ω : Type) where
  apply : ω → σ → σ
  conflict : ω → ω → Bool
  fresh : List ι → ι → Bool
  conflict_symm : ∀ w w', conflict w w' = conflict w' w

namespace Engine
variable {ι σ ω : Type}

/-- The store under a list of row writes, oldest first. -/
def view (E : Engine ι σ ω) (ws : List ω) (db : σ) : σ :=
  ws.foldl (fun s w => E.apply w s) db

@[simp] theorem view_nil (E : Engine ι σ ω) (db : σ) : E.view [] db = db := rfl

@[simp] theorem view_cons (E : Engine ι σ ω) (w : ω) (ws : List ω) (db : σ) :
    E.view (w :: ws) db = E.view ws (E.apply w db) := rfl

@[simp] theorem view_append (E : Engine ι σ ω) (ws vs : List ω) (db : σ) :
    E.view (ws ++ vs) db = E.view vs (E.view ws db) := List.foldl_append

/-- No write of the first list excludes a write of the second. -/
def Compatible (E : Engine ι σ ω) (ws vs : List ω) : Prop :=
  ∀ w ∈ ws, ∀ v ∈ vs, E.conflict w v = false

instance (E : Engine ι σ ω) (ws vs : List ω) : Decidable (E.Compatible ws vs) := by
  unfold Compatible; infer_instance

theorem Compatible.symm {E : Engine ι σ ω} {ws vs : List ω} (h : E.Compatible ws vs) :
    E.Compatible vs ws := by
  intro v hv w hw
  rw [E.conflict_symm]
  exact h w hw v hv

@[simp] theorem compatible_nil (E : Engine ι σ ω) (ws : List ω) : E.Compatible ws [] := by
  simp [Compatible]

@[simp] theorem nil_compatible (E : Engine ι σ ω) (ws : List ω) : E.Compatible [] ws := by
  simp [Compatible]

theorem compatible_append {E : Engine ι σ ω} {ws vs us : List ω} :
    E.Compatible (ws ++ vs) us ↔ E.Compatible ws us ∧ E.Compatible vs us := by
  simp only [Compatible, List.mem_append]
  constructor
  · exact fun h => ⟨fun w hw => h w (Or.inl hw), fun w hw => h w (Or.inr hw)⟩
  · rintro ⟨hl, hr⟩ w (hw | hw)
    exacts [hl w hw, hr w hw]

end Engine

/-- The part of a system that every caller sees: the committed store, the
commits in order with their caller, and the inputs consumed so far, newest
first. -/
structure World (n : ℕ) (ι σ ω : Type) where
  db : σ
  log : List (Fin n × List ω)
  past : List ι

namespace World
variable {n : ℕ} {ι σ ω : Type}

def consume (W : World n ι σ ω) (inp : ι) : World n ι σ ω :=
  { W with past := inp :: W.past }

def commit (E : Engine ι σ ω) (W : World n ι σ ω) (i : Fin n) (ws : List ω) : World n ι σ ω :=
  { W with db := E.view ws W.db, log := W.log ++ [(i, ws)] }

@[simp] theorem consume_db (W : World n ι σ ω) (inp : ι) : (W.consume inp).db = W.db := rfl
@[simp] theorem consume_log (W : World n ι σ ω) (inp : ι) : (W.consume inp).log = W.log := rfl
@[simp] theorem consume_past (W : World n ι σ ω) (inp : ι) :
    (W.consume inp).past = inp :: W.past := rfl
@[simp] theorem commit_db (E : Engine ι σ ω) (W : World n ι σ ω) (i : Fin n) (ws : List ω) :
    (W.commit E i ws).db = E.view ws W.db := rfl
@[simp] theorem commit_log (E : Engine ι σ ω) (W : World n ι σ ω) (i : Fin n) (ws : List ω) :
    (W.commit E i ws).log = W.log ++ [(i, ws)] := rfl
@[simp] theorem commit_past (E : Engine ι σ ω) (W : World n ι σ ω) (i : Fin n) (ws : List ω) :
    (W.commit E i ws).past = W.past := rfl

end World

/-- One caller: what is left of its program, the row writes of its open
transaction, the committed stores its statements have met (newest first), and
whether it has begun. The last two are history that no statement reads. -/
structure Call (ι σ ω ε α : Type) where
  prog : Prog ι σ ω ε α
  pending : List ω
  seen : List σ
  started : Bool

/-- A caller that has not run any statement. -/
def Call.initial {ι σ ω ε α : Type} (p : Prog ι σ ω ε α) : Call ι σ ω ε α := ⟨p, [], [], false⟩

/-- Leaving the unit of work rolls back whatever is still open. -/
def Call.close {ι σ ω ε α : Type} (c : Call ι σ ω ε α) : Call ι σ ω ε α :=
  ⟨c.prog, [], c.seen, c.started⟩

structure Sys (n : ℕ) (ι σ ω ε α : Type) where
  world : World n ι σ ω
  call : Fin n → Call ι σ ω ε α

/-- The scheduler lets a caller do its next step, or makes that step fail. -/
inductive Action (n : ℕ) (ι ε : Type) : Type
  | run (i : Fin n) (inp : ι)
  | fail (i : Fin n) (e : ε)

namespace Sys
variable {n : ℕ} {ι σ ω ε α : Type}

def initial (W : World n ι σ ω) (progs : Fin n → Prog ι σ ω ε α) : Sys n ι σ ω ε α :=
  ⟨W, fun i => Call.initial (progs i)⟩

def setCall (s : Sys n ι σ ω ε α) (i : Fin n) (c : Call ι σ ω ε α) : Sys n ι σ ω ε α :=
  { s with call := Function.update s.call i c }

@[simp] theorem setCall_world (s : Sys n ι σ ω ε α) (i : Fin n) (c : Call ι σ ω ε α) :
    (s.setCall i c).world = s.world := rfl

@[simp] theorem setCall_self (s : Sys n ι σ ω ε α) (i : Fin n) (c : Call ι σ ω ε α) :
    (s.setCall i c).call i = c := by simp [setCall]

theorem setCall_other (s : Sys n ι σ ω ε α) {i j : Fin n} (h : j ≠ i) (c : Call ι σ ω ε α) :
    (s.setCall i c).call j = s.call j := by simp [setCall, h]

/-- What holds of the new call and of the others holds of every call. -/
theorem forall_setCall {P : Fin n → Call ι σ ω ε α → Prop} {s : Sys n ι σ ω ε α} {i : Fin n}
    {c : Call ι σ ω ε α} (hc : P i c) (h : ∀ j, j ≠ i → P j (s.call j)) (j : Fin n) :
    P j ((s.setCall i c).call j) := by
  by_cases hj : j = i
  · subst hj
    rwa [setCall_self]
  · rw [setCall_other _ hj]
    exact h j hj

/-- Likewise of what holds between two calls. -/
theorem pairwise_setCall {R : Call ι σ ω ε α → Call ι σ ω ε α → Prop}
    (hsymm : ∀ a b, R a b → R b a) {s : Sys n ι σ ω ε α} {i : Fin n} {c : Call ι σ ω ε α}
    (hc : ∀ j, j ≠ i → R c (s.call j)) (h : ∀ j k, j ≠ k → R (s.call j) (s.call k))
    {j k : Fin n} (hjk : j ≠ k) : R ((s.setCall i c).call j) ((s.setCall i c).call k) := by
  by_cases hj : j = i
  · subst hj
    rw [setCall_self, setCall_other _ (Ne.symm hjk)]
    exact hc k (Ne.symm hjk)
  · by_cases hk : k = i
    · subst hk
      rw [setCall_self, setCall_other _ hj]
      exact hsymm _ _ (hc j hj)
    · rw [setCall_other _ hj, setCall_other _ hk]
      exact h j k hjk

/-- No other open transaction holds a write that the given writes exclude. -/
def Free (E : Engine ι σ ω) (s : Sys n ι σ ω ε α) (i : Fin n) (ws : List ω) : Prop :=
  ∀ j, j ≠ i → E.Compatible ws (s.call j).pending

instance (E : Engine ι σ ω) (s : Sys n ι σ ω ε α) (i : Fin n) (ws : List ω) :
    Decidable (s.Free E i ws) := by unfold Free; infer_instance

/-- One scheduled step. A statement that has to wait is not enabled. Leaving the
program, by a result or an exception, ends the open transaction without
committing it; so does a failed statement or a failed COMMIT. -/
def step (E : Engine ι σ ω) (s : Sys n ι σ ω ε α) : Action n ι ε → Option (Sys n ι σ ω ε α)
  | .run i inp =>
    let c := s.call i
    match c.prog with
    | .ret _ => some (s.setCall i c.close)
    | .raise _ => some (s.setCall i c.close)
    | .stmt writes next _ =>
      let v := E.view c.pending s.world.db
      if E.fresh s.world.past inp = true ∧ s.Free E i (writes inp v) then
        some ({ s with world := s.world.consume inp }.setCall i
          ⟨next inp v, c.pending ++ writes inp v, s.world.db :: c.seen, true⟩)
      else none
    | .commit next _ =>
      some ({ s with world := s.world.commit E i c.pending }.setCall i
        ⟨next, [], s.world.db :: c.seen, true⟩)
    | .rollback next => some (s.setCall i ⟨next, [], c.seen, true⟩)
  | .fail i e =>
    let c := s.call i
    match c.prog with
    | .stmt _ _ failed => some (s.setCall i ⟨failed e, [], c.seen, true⟩)
    | .commit _ failed => some (s.setCall i ⟨failed e, [], c.seen, true⟩)
    | _ => none

def run (E : Engine ι σ ω) (s : Sys n ι σ ω ε α) (as : List (Action n ι ε)) :
    Option (Sys n ι σ ω ε α) :=
  as.foldlM (fun s a => s.step E a) s

@[simp] theorem run_nil (E : Engine ι σ ω) (s : Sys n ι σ ω ε α) : s.run E [] = some s := rfl

theorem run_cons (E : Engine ι σ ω) (s : Sys n ι σ ω ε α) (a : Action n ι ε)
    (as : List (Action n ι ε)) : s.run E (a :: as) = (s.step E a).bind (fun t => t.run E as) := by
  simp [run, List.foldlM_cons]

theorem run_append (E : Engine ι σ ω) (s : Sys n ι σ ω ε α) (as bs : List (Action n ι ε)) :
    s.run E (as ++ bs) = (s.run E as).bind (fun t => t.run E bs) := by
  simp [run, List.foldlM_append]

theorem run_snoc (E : Engine ι σ ω) (s : Sys n ι σ ω ε α) (as : List (Action n ι ε))
    (a : Action n ι ε) : s.run E (as ++ [a]) = (s.run E as).bind (fun t => t.step E a) :=
  Runs.foldlM_snoc as a

theorem run_invariant {E : Engine ι σ ω} {s t : Sys n ι σ ω ε α} {as : List (Action n ι ε)}
    {I : List (Action n ι ε) → Sys n ι σ ω ε α → Prop} (hr : s.run E as = some t) (hs : I [] s)
    (hstep : ∀ pre a u u', pre ++ [a] <+: as → s.run E pre = some u → I pre u →
      u.step E a = some u' → I (pre ++ [a]) u') : I as t :=
  Runs.invariant hr hs hstep

theorem run_kept {E : Engine ι σ ω} {s t : Sys n ι σ ω ε α} {as : List (Action n ι ε)}
    {I : Sys n ι σ ω ε α → Prop} {P : Action n ι ε → Prop} (hr : s.run E as = some t) (hs : I s)
    (ha : ∀ a ∈ as, P a) (hstep : ∀ a u u', P a → I u → u.step E a = some u' → I u') : I t :=
  Runs.kept hr hs ha hstep

/-- The commit an action performs, if it performs one: its caller and the writes
that become durable. -/
def committing (s : Sys n ι σ ω ε α) : Action n ι ε → Option (Fin n × List ω)
  | .run i _ =>
    match (s.call i).prog with
    | .commit _ _ => some (i, (s.call i).pending)
    | _ => none
  | .fail _ _ => none

/-- A caller that has begun and has not left its program. -/
def InProgress (s : Sys n ι σ ω ε α) (i : Fin n) : Prop :=
  (s.call i).started = true ∧
    match (s.call i).prog with
    | .ret _ => False
    | .raise _ => False
    | _ => True

/-- `P` holds of every action of a run and the state it is taken in. -/
def Each (E : Engine ι σ ω) (P : Sys n ι σ ω ε α → Action n ι ε → Prop)
    (s : Sys n ι σ ω ε α) (as : List (Action n ι ε)) : Prop :=
  ∀ pre a t, pre ++ [a] <+: as → s.run E pre = some t → P t a

/-- `ok` checked along a run. -/
def checks (E : Engine ι σ ω) (ok : Sys n ι σ ω ε α → Action n ι ε → Bool) :
    Sys n ι σ ω ε α → List (Action n ι ε) → Bool
  | _, [] => true
  | s, a :: as => ok s a && (s.step E a).all fun t => checks E ok t as

theorem Each.of_checks {E : Engine ι σ ω} {P : Sys n ι σ ω ε α → Action n ι ε → Prop}
    (ok : Sys n ι σ ω ε α → Action n ι ε → Bool) (hok : ∀ t a, ok t a = true → P t a)
    {s : Sys n ι σ ω ε α} {as : List (Action n ι ε)} (h : checks E ok s as = true) :
    s.Each E P as := by
  induction as generalizing s with
  | nil =>
    intro pre a t hpre
    have hlen := hpre.length_le
    simp at hlen
  | cons b as ih =>
    simp only [checks, Bool.and_eq_true] at h
    intro pre a t hpre ht
    cases pre with
    | nil =>
      obtain ⟨rest, hrest⟩ := hpre
      simp only [List.nil_append, List.singleton_append, List.cons.injEq] at hrest
      obtain rfl : s = t := by simpa using ht
      exact hrest.1 ▸ hok s b h.1
    | cons c pre =>
      rw [List.cons_append, List.cons_prefix_cons] at hpre
      obtain ⟨rfl, hpre⟩ := hpre
      rw [run_cons, Option.bind_eq_some_iff] at ht
      obtain ⟨u, hu, ht⟩ := ht
      exact ih (by simpa [hu] using h.2) pre a t hpre ht

/-- What one step can do, one case for each kind of program head. -/
inductive Stepped (E : Engine ι σ ω) (s t : Sys n ι σ ω ε α) : Action n ι ε → Prop
  | closed (i : Fin n) (inp : ι)
      (hp : (∃ a, (s.call i).prog = .ret a) ∨ ∃ e, (s.call i).prog = .raise e)
      (ht : t = s.setCall i (s.call i).close) : Stepped E s t (.run i inp)
  | stmt (i : Fin n) (inp : ι) (writes : ι → σ → List ω) (next : ι → σ → Prog ι σ ω ε α)
      (failed : ε → Prog ι σ ω ε α) (hp : (s.call i).prog = .stmt writes next failed)
      (fresh : E.fresh s.world.past inp = true)
      (free : s.Free E i (writes inp (E.view (s.call i).pending s.world.db)))
      (ht : t = { s with world := s.world.consume inp }.setCall i
        ⟨next inp (E.view (s.call i).pending s.world.db),
          (s.call i).pending ++ writes inp (E.view (s.call i).pending s.world.db),
          s.world.db :: (s.call i).seen, true⟩) : Stepped E s t (.run i inp)
  | commit (i : Fin n) (inp : ι) (next : Prog ι σ ω ε α) (failed : ε → Prog ι σ ω ε α)
      (hp : (s.call i).prog = .commit next failed)
      (ht : t = { s with world := s.world.commit E i (s.call i).pending }.setCall i
        ⟨next, [], s.world.db :: (s.call i).seen, true⟩) : Stepped E s t (.run i inp)
  | rollback (i : Fin n) (inp : ι) (next : Prog ι σ ω ε α)
      (hp : (s.call i).prog = .rollback next)
      (ht : t = s.setCall i ⟨next, [], (s.call i).seen, true⟩) : Stepped E s t (.run i inp)
  | failed (i : Fin n) (e : ε) (failed : ε → Prog ι σ ω ε α)
      (hp : (∃ writes next, (s.call i).prog = .stmt writes next failed) ∨
        ∃ next, (s.call i).prog = .commit next failed)
      (ht : t = s.setCall i ⟨failed e, [], (s.call i).seen, true⟩) : Stepped E s t (.fail i e)

theorem step_cases {E : Engine ι σ ω} {s t : Sys n ι σ ω ε α} {a : Action n ι ε}
    (h : s.step E a = some t) : Stepped E s t a := by
  cases a with
  | run i inp =>
    cases hp : (s.call i).prog with
    | ret a => simp only [step, hp, Option.some.injEq] at h
               exact .closed i inp (Or.inl ⟨a, hp⟩) h.symm
    | raise e => simp only [step, hp, Option.some.injEq] at h
                 exact .closed i inp (Or.inr ⟨e, hp⟩) h.symm
    | stmt writes next failed =>
      simp only [step, hp] at h
      split at h
      · rename_i hc
        exact .stmt i inp writes next failed hp hc.1 hc.2 (Option.some.inj h).symm
      · cases h
    | commit next failed =>
      simp only [step, hp, Option.some.injEq] at h
      exact .commit i inp next failed hp h.symm
    | rollback next =>
      simp only [step, hp, Option.some.injEq] at h
      exact .rollback i inp next hp h.symm
  | fail i e =>
    cases hp : (s.call i).prog with
    | stmt writes next failed =>
      simp only [step, hp, Option.some.injEq] at h
      exact .failed i e failed (Or.inl ⟨writes, next, hp⟩) h.symm
    | commit next failed =>
      simp only [step, hp, Option.some.injEq] at h
      exact .failed i e failed (Or.inr ⟨next, hp⟩) h.symm
    | ret a => simp [step, hp] at h
    | raise e => simp [step, hp] at h
    | rollback next => simp [step, hp] at h

/-- The committed store changes only by a commit, and then by its writes. -/
theorem step_db {E : Engine ι σ ω} {s t : Sys n ι σ ω ε α} {a : Action n ι ε}
    (h : s.step E a = some t) :
    t.world.db = match s.committing a with
      | some (_, ws) => E.view ws s.world.db
      | none => s.world.db := by
  cases step_cases h with
  | closed i inp hp ht =>
    rcases hp with ⟨a, hp⟩ | ⟨e, hp⟩ <;> simp [ht, committing, hp]
  | stmt i inp writes next failed hp fresh free ht => simp [ht, committing, hp]
  | commit i inp next failed hp ht => simp [ht, committing, hp]
  | rollback i inp next hp ht => simp [ht, committing, hp]
  | failed i e failed hp ht => simp [ht, committing]

end Sys

end EnvVault.Transactions
