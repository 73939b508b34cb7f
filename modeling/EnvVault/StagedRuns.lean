import EnvVault.CommitOnce

/-!
# Runs without a failing statement

Where every program commits at most once, as the last thing but for its result, a run
without failures settles every caller: whoever has returned has committed once, and
whoever has raised has committed nothing.
-/
namespace EnvVault.Transactions

variable {n : ℕ} {ι σ ω ε α : Type}

namespace Sys
variable {E : Engine ι σ ω} {s t : Sys n ι σ ω ε α}

theorem step_log {a : Action n ι ε} (h : s.step E a = some t) :
    t.world.log = s.world.log ++ (s.committing a).toList := by
  cases step_cases h with
  | closed i inp hp ht => rcases hp with ⟨a, hp⟩ | ⟨e, hp⟩ <;> simp [ht, committing, hp]
  | stmt i inp writes next failed hp fresh free ht => simp [ht, committing, hp]
  | commit i inp next failed hp ht => simp [ht, committing, hp]
  | rollback i inp next hp ht => simp [ht, committing, hp]
  | failed i e failed hp ht => simp [ht, committing]

/-- Commits are only added. -/
theorem run_log_prefix {as : List (Action n ι ε)} (h : s.run E as = some t) :
    s.world.log <+: t.world.log := by
  refine run_invariant (I := fun _ u => s.world.log <+: u.world.log) h (List.prefix_refl _) ?_
  intro pre a u u' _ _ hu hstep
  rw [step_log hstep]
  exact hu.trans (List.prefix_append _ _)

theorem step_started {a : Action n ι ε} (h : s.step E a = some t)
    (hs : ∀ c ∈ s.world.log, (s.call c.1).started = true) :
    ∀ c ∈ t.world.log, (t.call c.1).started = true := by
  have hkeep : ∀ (i : Fin n) (V : World n ι σ ω) (c : Call ι σ ω ε α) (j : Fin n),
      ((s.call i).started = true → c.started = true) → (s.call j).started = true →
      ((({ s with world := V } : Sys n ι σ ω ε α).setCall i c).call j).started = true := by
    intro i V c j hc hj
    by_cases hji : j = i
    · subst hji
      rw [setCall_self]
      exact hc hj
    · rw [setCall_other _ hji]
      exact hj
  cases step_cases h with
  | closed i inp hp ht =>
    rw [ht]
    exact fun c hc => hkeep i s.world _ c.1 id (hs c hc)
  | stmt i inp writes next failed hp fresh free ht =>
    rw [ht]
    exact fun c hc => hkeep i _ _ c.1 (fun _ => rfl) (hs c hc)
  | commit i inp next failed hp ht =>
    rw [ht]
    intro c hc
    rcases List.mem_append.mp hc with hc | hc
    · exact hkeep i _ _ c.1 (fun _ => rfl) (hs c hc)
    · obtain rfl := List.mem_singleton.mp hc
      simp
  | rollback i inp next hp ht =>
    rw [ht]
    exact fun c hc => hkeep i s.world _ c.1 (fun _ => rfl) (hs c hc)
  | failed i e failed hp ht =>
    rw [ht]
    exact fun c hc => hkeep i s.world _ c.1 (fun _ => rfl) (hs c hc)

/-- Whoever has committed has begun. -/
theorem run_started {as : List (Action n ι ε)} (h : s.run E as = some t)
    (hs : ∀ c ∈ s.world.log, (s.call c.1).started = true) :
    ∀ c ∈ t.world.log, (t.call c.1).started = true :=
  run_invariant (I := fun _ u => ∀ c ∈ u.world.log, (u.call c.1).started = true) h hs
    fun _ _ _ _ _ _ hu hstep => step_started hstep hu

/-- In one step a caller meets the committed store, or it meets nothing new. -/
theorem step_seen {a : Action n ι ε} (h : s.step E a = some t) (j : Fin n) :
    ((t.call j).seen = (s.call j).seen ∧
      ((t.call j).started = false → (s.call j).started = false)) ∨
    ((t.call j).seen = s.world.db :: (s.call j).seen ∧ (t.call j).started = true) := by
  have hmove : ∀ (i : Fin n) (V : World n ι σ ω) (c : Call ι σ ω ε α),
      (c.seen = (s.call i).seen ∧ (c.started = false → (s.call i).started = false)) ∨
        (c.seen = s.world.db :: (s.call i).seen ∧ c.started = true) →
      t = ({ s with world := V } : Sys n ι σ ω ε α).setCall i c →
      ((t.call j).seen = (s.call j).seen ∧
        ((t.call j).started = false → (s.call j).started = false)) ∨
      ((t.call j).seen = s.world.db :: (s.call j).seen ∧ (t.call j).started = true) := by
    rintro i V c hc rfl
    by_cases hj : j = i
    · subst hj
      rw [setCall_self]
      exact hc
    · rw [setCall_other _ hj]
      exact Or.inl ⟨rfl, id⟩
  cases step_cases h with
  | closed i inp hp ht => exact hmove i s.world (s.call i).close (Or.inl ⟨rfl, id⟩) ht
  | stmt i inp writes next failed hp fresh free ht => exact hmove i _ _ (Or.inr ⟨rfl, rfl⟩) ht
  | commit i inp next failed hp ht => exact hmove i _ _ (Or.inr ⟨rfl, rfl⟩) ht
  | rollback i inp next hp ht =>
    exact hmove i s.world ⟨next, [], (s.call i).seen, true⟩ (Or.inl ⟨rfl, nofun⟩) ht
  | failed i e failed hp ht =>
    exact hmove i s.world ⟨failed e, [], (s.call i).seen, true⟩ (Or.inl ⟨rfl, nofun⟩) ht

/-- A caller only adds to the stores it has met; before it begins it has met none. -/
theorem run_seen {as : List (Action n ι ε)} (h : s.run E as = some t) (j : Fin n) :
    (s.call j).seen <:+ (t.call j).seen ∧
      (((s.call j).started = false → (s.call j).seen = []) →
        (t.call j).started = false → (t.call j).seen = []) := by
  refine run_invariant (I := fun _ u => (s.call j).seen <:+ (u.call j).seen ∧
    (((s.call j).started = false → (s.call j).seen = []) →
      (u.call j).started = false → (u.call j).seen = [])) h ⟨List.suffix_refl _, id⟩ ?_
  rintro pre a u u' _ _ ⟨hsuffix, hnone⟩ hstep
  rcases step_seen hstep j with ⟨hseen, hstart⟩ | ⟨hseen, hstart⟩
  · rw [hseen]
    exact ⟨hsuffix, fun hs hu' => hnone hs (hstart hu')⟩
  · rw [hseen]
    refine ⟨hsuffix.trans (List.suffix_cons _ _), fun _ hu' => ?_⟩
    rw [hstart] at hu'
    cases hu'

/-- A commit leaves the other callers where they are. -/
theorem committing_other {a : Action n ι ε} (h : s.step E a = some t) {k : Fin n} {ws : List ω}
    (hc : s.committing a = some (k, ws)) {j : Fin n} (hj : j ≠ k) : t.call j = s.call j := by
  cases step_cases h with
  | closed i inp hp ht =>
    rcases hp with ⟨a, hp⟩ | ⟨e, hp⟩ <;> simp [committing, hp] at hc
  | stmt i inp writes next failed hp fresh free ht => simp [committing, hp] at hc
  | commit i inp next failed hp ht =>
    simp only [committing, hp, Option.some.injEq, Prod.mk.injEq] at hc
    rw [ht, setCall_other _ (hc.1 ▸ hj)]
  | rollback i inp next hp ht => simp [committing, hp] at hc
  | failed i e failed hp ht => simp [committing] at hc

end Sys

/-- The action lets a caller do its next step. -/
def Action.Proceeds {ε : Type} : Action n ι ε → Prop
  | .run _ _ => True
  | .fail _ _ => False

/-- Where a caller stands in a run without failures: it has committed nothing, or it has
committed once and has only its result to prepare. -/
inductive Stage (A : ε → Prop) (B : α → Prop) (W : World n ι σ ω) (i : Fin n)
    (p : Prog ι σ ω ε α) : Prop
  | before (hlog : ∀ e ∈ W.log, e.1 ≠ i) (hp : p.CommitsLast A B)
  | after (ws : List ω) (hlog : W.log.filter (fun e => e.1 = i) = [(i, ws)]) (hp : p.Settled A)

namespace Stage
variable {A : ε → Prop} {B : α → Prop} {W : World n ι σ ω} {i k : Fin n} {p : Prog ι σ ω ε α}

theorem congr {W' : World n ι σ ω} (h : Stage A B W i p) (hlog : W'.log = W.log) :
    Stage A B W' i p := by
  cases h with
  | before hl hp => exact .before (hlog ▸ hl) hp
  | after ws hl hp => exact .after ws (hlog ▸ hl) hp

/-- The commit of another caller. -/
theorem other {E : Engine ι σ ω} {ws : List ω} (h : Stage A B W i p) (hk : k ≠ i) :
    Stage A B (W.commit E k ws) i p := by
  cases h with
  | before hl hp =>
    refine .before (fun e he => ?_) hp
    rcases List.mem_append.mp he with he | he
    · exact hl e he
    · obtain rfl := List.mem_singleton.mp he
      exact hk
  | after vs hl hp =>
    refine .after vs ?_ hp
    simp [List.filter_append, hl, hk]

theorem raise {e : ε} (h : Stage A B W i (.raise e)) : A e ∨ ∀ c ∈ W.log, c.1 ≠ i := by
  cases h with
  | before hl hp => exact Or.inr hl
  | after ws hl hp => exact Or.inl hp

theorem ret {a : α} (h : Stage A B W i (.ret a)) :
    B a ∨ ∃ ws, W.log.filter (fun e => e.1 = i) = [(i, ws)] := by
  cases h with
  | before hl hp => exact Or.inl hp
  | after ws hl hp => exact Or.inr ⟨ws, hl⟩

/-- A caller commits once at most. -/
theorem filter_length_le (h : Stage A B W i p) :
    (W.log.filter fun e => e.1 = i).length ≤ 1 := by
  cases h with
  | before hl hp =>
    have hnil : W.log.filter (fun e => e.1 = i) = [] :=
      List.filter_eq_nil_iff.mpr fun e he => by simpa using hl e he
    simp [hnil]
  | after ws hl hp => simp [hl]

end Stage

section Staged
variable {E : Engine ι σ ω} {A : Fin n → ε → Prop} {B : Fin n → α → Prop} {s t : Sys n ι σ ω ε α}

/-- Every caller stands somewhere on its way to its one COMMIT. -/
def Sys.Staged (A : Fin n → ε → Prop) (B : Fin n → α → Prop) (s : Sys n ι σ ω ε α) : Prop :=
  ∀ i, Stage (A i) (B i) s.world i (s.call i).prog

theorem Sys.Staged.initial {W : World n ι σ ω} {progs : Fin n → Prog ι σ ω ε α}
    (hlog : W.log = []) (hp : ∀ i, (progs i).CommitsLast (A i) (B i)) :
    (Sys.initial W progs).Staged A B :=
  fun i => .before (fun e he => by simp [Sys.initial, hlog] at he) (hp i)

/-- One caller moves on, and the world to `V`. -/
theorem Sys.Staged.update {i : Fin n} {c : Call ι σ ω ε α} {V : World n ι σ ω}
    (hc : Stage (A i) (B i) V i c.prog)
    (hother : ∀ j, j ≠ i → Stage (A j) (B j) V j (s.call j).prog) :
    (({ s with world := V } : Sys n ι σ ω ε α).setCall i c).Staged A B :=
  Sys.forall_setCall (P := fun j c => Stage (A j) (B j) V j c.prog) hc hother

theorem Sys.Staged.step (h : s.Staged A B) {a : Action n ι ε} (ha : a.Proceeds)
    (hs : s.step E a = some t) : t.Staged A B := by
  cases Sys.step_cases hs with
  | closed i inp hp ht =>
    rw [ht]
    exact Sys.Staged.update (h i) fun j _ => h j
  | stmt i inp writes next failed hp fresh free ht =>
    rw [ht]
    refine Sys.Staged.update ?_ fun j _ => (h j).congr rfl
    have hi := h i
    rw [hp] at hi
    cases hi with
    | before hl hp => exact .before hl (hp.1 _ _)
    | after ws hl hp => exact .after ws hl (hp.1 _ _)
  | commit i inp next failed hp ht =>
    rw [ht]
    refine Sys.Staged.update ?_ fun j hj => (h j).other (Ne.symm hj)
    have hi := h i
    rw [hp] at hi
    cases hi with
    | before hl hp =>
      refine .after (s.call i).pending ?_ hp.1
      have hnil : s.world.log.filter (fun e => e.1 = i) = [] :=
        List.filter_eq_nil_iff.mpr fun e he => by simpa using hl e he
      simp [List.filter_append, hnil]
    | after ws hl hp => exact hp.elim
  | rollback i inp next hp ht =>
    rw [ht]
    refine Sys.Staged.update ?_ fun j _ => h j
    have hi := h i
    rw [hp] at hi
    cases hi with
    | before hl hp => exact .before hl hp.commitsLast
    | after ws hl hp => exact hp.elim
  | failed i e failed hp ht => exact ha.elim

/-- In a run without failures every caller commits once at most; one that has returned
has committed, or returned what needs no COMMIT, and one that has raised has not. -/
theorem Sys.Staged.run (h : s.Staged A B) {as : List (Action n ι ε)}
    (ha : ∀ a ∈ as, a.Proceeds) (hr : s.run E as = some t) : t.Staged A B :=
  Sys.run_kept hr h ha fun _ _ _ hproceeds hu hstep => hu.step hproceeds hstep

/-- No caller is twice in the log. -/
theorem Sys.Staged.nodup (h : s.Staged A B) : (s.world.log.map Prod.fst).Nodup := by
  refine List.nodup_iff_count_le_one.mpr fun i => ?_
  have hcount : (s.world.log.map Prod.fst).count i =
      (s.world.log.filter fun e => e.1 = i).length := by
    rw [List.count_eq_countP, List.countP_map, List.countP_eq_length_filter]
    rfl
  rw [hcount]
  exact (h i).filter_length_le

end Staged

end EnvVault.Transactions
