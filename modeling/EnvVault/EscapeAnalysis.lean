import EnvVault.SoloRun

/-!
# The exceptions a program may end with

`Escapes` reads off a program which exceptions can leave it when the environment
makes none of its statements fail. It composes along `bind` and `handle`, and a
program that runs alone ends with no other exception.
-/
namespace EnvVault.Transactions

variable {ι σ ω ε α β : Type}

namespace Prog

/-- Every exception that the program raises of its own satisfies `P`. -/
def Escapes (P : ε → Prop) : Prog ι σ ω ε α → Prop
  | ret _ => True
  | raise e => P e
  | stmt _ next _ => ∀ inp v, (next inp v).Escapes P
  | commit next _ => next.Escapes P
  | rollback next => next.Escapes P

section
variable {P Q : ε → Prop} {p : Prog ι σ ω ε α}

theorem Escapes.mono (hPQ : ∀ e, P e → Q e) (hp : p.Escapes P) : p.Escapes Q := by
  induction p with
  | ret a => trivial
  | raise e => exact hPQ e hp
  | stmt writes next failed ihn ihf => exact fun inp v => ihn inp v (hp inp v)
  | commit next failed ihn ihf => exact ihn hp
  | rollback next ih => exact ih hp

theorem Escapes.bind {f : α → Prog ι σ ω ε β} (hp : p.Escapes P) (hf : ∀ a, (f a).Escapes P) :
    (p.bind f).Escapes P := by
  induction p with
  | ret a => exact hf a
  | raise e => exact hp
  | stmt writes next failed ihn ihf => exact fun inp v => ihn inp v (hp inp v)
  | commit next failed ihn ihf => exact ihn hp
  | rollback next ih => exact ih hp

/-- What the handled program raises is what the handler is given. -/
theorem Escapes.handle {h : ε → Prog ι σ ω ε α} (hp : p.Escapes Q)
    (hh : ∀ e, Q e → (h e).Escapes P) : (p.handle h).Escapes P := by
  induction p with
  | ret a => trivial
  | raise e => exact hh e hp
  | stmt writes next failed ihn ihf => exact fun inp v => ihn inp v (hp inp v)
  | commit next failed ihn ihf => exact ihn hp
  | rollback next ih => exact ih hp

theorem Escapes.statement {g : ι → σ → Except ε (List ω × α)}
    (h : ∀ inp v e, g inp v = .error e → P e) : (statement g).Escapes P := by
  intro inp v
  dsimp only
  cases hg : g inp v with
  | ok r => trivial
  | error e => exact h inp v e hg

/-- Alone the program ends with no other exception. -/
theorem Escapes.exec {E : Engine ι σ ω} {inputs : ℕ → ι} (hp : p.Escapes P) (s : Solo σ ω) {e : ε}
    (he : (p.exec E inputs s).1 = .error e) : P e := by
  induction p generalizing s with
  | ret a => cases he
  | raise e' => exact Except.error.inj he ▸ hp
  | stmt writes next failed ihn ihf => exact ihn _ _ (hp _ _) _ he
  | commit next failed ihn ihf => exact ihn hp _ he
  | rollback next ih => exact ih hp _ he

end

/-- Alone, over this store and these open writes, an exception of the program satisfies
`P`. -/
def Fails (E : Engine ι σ ω) (inputs : ℕ → ι) (p : Prog ι σ ω ε α) (ws : List ω) (db : σ)
    (P : ε → Prop) : Prop :=
  p.Ends E inputs ws db fun result _ => ∀ e, result = .error e → P e

section
variable {E : Engine ι σ ω} {inputs : ℕ → ι} {ws : List ω} {db : σ} {P : ε → Prop}
  {p : Prog ι σ ω ε α} {f : α → Prog ι σ ω ε β} {a : α} {e : ε}

theorem Escapes.fails (hp : p.Escapes P) : p.Fails E inputs ws db P := fun k _ he =>
  hp.exec ⟨k, ws, db⟩ he

theorem Fails.bind (hp : p.Fails E inputs ws db P) (hf : ∀ a, (f a).Escapes P) :
    (p.bind f).Fails E inputs ws db P := by
  intro k e he
  have hfirst := hp k
  rw [exec_bind] at he
  cases hexec : p.exec E inputs ⟨k, ws, db⟩ with
  | mk result so =>
    rw [hexec] at he hfirst
    cases result with
    | ok a => exact (hf a).exec so he
    | error e' => exact Except.error.inj he ▸ hfirst e' rfl

theorem Answers.fails (hp : p.Answers E inputs ws db a) (hf : (f a).Fails E inputs ws db P) :
    (p.bind f).Fails E inputs ws db P :=
  hp.ends hf

theorem Refuses.fails (hp : p.Refuses E inputs ws db e) (he : P e) : p.Fails E inputs ws db P :=
  Refuses.ends hp fun _ _ h => Except.error.inj h ▸ he

end

end Prog

end EnvVault.Transactions
