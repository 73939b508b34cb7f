import EnvVault.Constraints

/-!
# Runs of lawful programs

A program is lawful when each of its statements introduces only keys that its
own input supplies and leaves a valid view valid. If the inputs of a run never
supply a key twice, every commit of a system of lawful programs introduces keys
that were never used before and leaves the committed store valid.
-/
namespace EnvVault.Relational
open EnvVault.Transactions

variable {T : Type} [DecidableEq T] {Row : T → Type} {Id : Type} [DecidableEq Id]
variable {n : ℕ} {ι ε α β : Type}

namespace Schema
variable (S : Schema Row Id) (ids : ι → List Id)

/-- What a statement may do to the view it was computed from. -/
structure LawfulWrites (inp : ι) (v : Store Row) (ws : List (Write Row Id)) : Prop where
  supplied : ∀ p ∈ S.inserted ws, p.2 ∈ ids inp
  once : (S.inserted ws).Nodup
  valid : S.Valid v → S.NewKeys ws v → S.Valid (S.view ws v)

/-- Every statement of the program is lawful for any input and any view. -/
def Lawful (p : Prog ι (Store Row) (Write Row Id) ε α) : Prop :=
  p.Comprises fun writes => ∀ inp v, S.LawfulWrites ids inp v (writes inp v)

variable {S ids}

theorem lawfulWrites_nil (inp : ι) (v : Store Row) : S.LawfulWrites ids inp v [] :=
  ⟨by simp, by simp, fun h _ => h⟩

variable (S ids)

/-- The keys used so far: those of the first store and those any commit introduced. -/
def Ever (base : T × Id → Prop) (W : World n ι (Store Row) (Write Row Id)) (p : T × Id) : Prop :=
  base p ∨ ∃ e ∈ W.log, p ∈ S.inserted e.2

def Issued (W : World n ι (Store Row) (Write Row Id)) (x : Id) : Prop := ∃ inp ∈ W.past, x ∈ ids inp

/-- The commit introduces keys never used before, from a valid store to a valid store. -/
structure LawfulCommit (base : T × Id → Prop) (W : World n ι (Store Row) (Write Row Id))
    (ws : List (Write Row Id)) : Prop where
  once : (S.inserted ws).Nodup
  unused : ∀ p ∈ S.inserted ws, ¬ S.Ever base W p
  before : S.Valid W.db
  after : S.Valid (S.view ws W.db)

/-- The invariant of a system of lawful programs. -/
structure Sound (base : T × Id → Prop)
    (s : Sys n ι (Store Row) (Write Row Id) ε α) : Prop where
  valid : S.Valid s.world.db
  used : ∀ t, ∀ r ∈ s.world.db t, S.Ever base s.world (t, S.id t r)
  issued : ∀ p, S.Ever base s.world p → Issued ids s.world p.2
  apart : ∀ i j, i ≠ j → S.Apart (s.call i).pending (s.call j).pending
  lawful : ∀ i, S.Lawful ids (s.call i).prog
  once : ∀ i, (S.inserted (s.call i).pending).Nodup
  unused : ∀ i, ∀ p ∈ S.inserted (s.call i).pending,
    ¬ S.Ever base s.world p ∧ Issued ids s.world p.2
  view : ∀ i, S.Valid (S.view (s.call i).pending s.world.db)

variable {S ids}

omit [DecidableEq T] [DecidableEq Id] in
theorem newKeys_of_unused {base : T × Id → Prop} {W : World n ι (Store Row) (Write Row Id)}
    {ws : List (Write Row Id)} (hu : ∀ t, ∀ r ∈ W.db t, S.Ever base W (t, S.id t r))
    (ho : (S.inserted ws).Nodup) (hn : ∀ p ∈ S.inserted ws, ¬ S.Ever base W p) :
    S.NewKeys ws W.db := by
  refine ⟨ho, fun t x hx hmem => ?_⟩
  obtain ⟨r, hr, rfl⟩ := List.mem_map.mp hmem
  exact hn _ hx (hu t r hr)

theorem ever_commit {fresh : List ι → ι → Bool} {base : T × Id → Prop}
    {W : World n ι (Store Row) (Write Row Id)} {i : Fin n} {ws : List (Write Row Id)}
    {p : T × Id} :
    S.Ever base (W.commit (S.engine fresh) i ws) p ↔ S.Ever base W p ∨ p ∈ S.inserted ws := by
  simp [Ever, or_assoc, or_and_right, exists_or]

/-- A commit introduces what it inserts, and keeps nothing that was not there. -/
theorem used_commit {fresh : List ι → ι → Bool} {base : T × Id → Prop}
    {W : World n ι (Store Row) (Write Row Id)} (h : ∀ t, ∀ r ∈ W.db t, S.Ever base W (t, S.id t r))
    (i : Fin n) (ws : List (Write Row Id)) :
    ∀ t, ∀ r ∈ (W.commit (S.engine fresh) i ws).db t,
      S.Ever base (W.commit (S.engine fresh) i ws) (t, S.id t r) := by
  intro t r hr
  rw [ever_commit]
  rcases S.id_mem_view (List.mem_map_of_mem hr) with hold | hins
  · obtain ⟨r', hr', he⟩ := List.mem_map.mp hold
    exact Or.inl (he ▸ h t r' hr')
  · exact Or.inr hins

/-- The state of the other callers after one of them moved to `c` and the world to `W`. -/
theorem Sound.update {base : T × Id → Prop} {s : Sys n ι (Store Row) (Write Row Id) ε α}
    (h : S.Sound ids base s) {i : Fin n} {c : Call ι (Store Row) (Write Row Id) ε α}
    {W : World n ι (Store Row) (Write Row Id)} (hvalid : S.Valid W.db)
    (hused : ∀ t, ∀ r ∈ W.db t, S.Ever base W (t, S.id t r))
    (hissued : ∀ p, S.Ever base W p → Issued ids W p.2)
    (hlaw : S.Lawful ids c.prog) (honce : (S.inserted c.pending).Nodup)
    (hunused : ∀ p ∈ S.inserted c.pending, ¬ S.Ever base W p ∧ Issued ids W p.2)
    (hview : S.Valid (S.view c.pending W.db))
    (happ : ∀ j, j ≠ i → S.Apart c.pending (s.call j).pending)
    (hothers : ∀ j, j ≠ i → (∀ p ∈ S.inserted (s.call j).pending, ¬ S.Ever base W p ∧
      Issued ids W p.2) ∧ S.Valid (S.view (s.call j).pending W.db)) :
    S.Sound ids base (({ s with world := W } : Sys n ι (Store Row) (Write Row Id) ε α).setCall i c)
    where
  valid := hvalid
  used := hused
  issued := hissued
  apart _ _ hjk := Sys.pairwise_setCall (R := fun a b => S.Apart a.pending b.pending)
    (fun _ _ hab => hab.symm) happ h.apart hjk
  lawful := Sys.forall_setCall (P := fun _ c => S.Lawful ids c.prog) hlaw fun j _ => h.lawful j
  once := Sys.forall_setCall (P := fun _ c => (S.inserted c.pending).Nodup) honce
    fun j _ => h.once j
  unused := Sys.forall_setCall (P := fun _ c => ∀ p ∈ S.inserted c.pending,
    ¬ S.Ever base W p ∧ Issued ids W p.2) hunused fun j hj => (hothers j hj).1
  view := Sys.forall_setCall (P := fun _ c => S.Valid (S.view c.pending W.db)) hview
    fun j hj => (hothers j hj).2

/-- The open transaction of one caller is dropped and its program goes on. -/
theorem Sound.drop {base : T × Id → Prop} {s : Sys n ι (Store Row) (Write Row Id) ε α}
    (h : S.Sound ids base s) {i : Fin n} {c : Call ι (Store Row) (Write Row Id) ε α}
    (hlaw : S.Lawful ids c.prog) (hc : c.pending = []) : S.Sound ids base (s.setCall i c) := by
  refine h.update h.valid h.used h.issued hlaw (by simp [hc]) (by simp [hc])
    (by simpa [hc] using h.valid) (fun j _ => by simp [Apart, hc])
    (fun j _ => ⟨h.unused j, h.view j⟩)

omit [DecidableEq T] [DecidableEq Id] in
theorem Issued.consume {W : World n ι (Store Row) (Write Row Id)} {x : Id}
    (h : Issued ids W x) (inp : ι) : Issued ids (W.consume inp) x := by
  obtain ⟨q, hq, hx⟩ := h
  exact ⟨q, List.mem_cons_of_mem _ hq, hx⟩

theorem LawfulCommit.newKeys {base : T × Id → Prop} {W : World n ι (Store Row) (Write Row Id)}
    {ws : List (Write Row Id)} (h : S.LawfulCommit base W ws)
    (hu : ∀ t, ∀ r ∈ W.db t, S.Ever base W (t, S.id t r)) : S.NewKeys ws W.db :=
  newKeys_of_unused hu h.once h.unused

/-- What a caller has pending is a lawful commit at any moment. -/
theorem Sound.lawfulCommit {base : T × Id → Prop} {s : Sys n ι (Store Row) (Write Row Id) ε α}
    (h : S.Sound ids base s) (i : Fin n) : S.LawfulCommit base s.world (s.call i).pending :=
  ⟨h.once i, fun p hp => (h.unused i p hp).1, h.valid, h.view i⟩

section Fresh
variable {fresh : List ι → ι → Bool}
  (hfresh : ∀ past inp, fresh past inp = true → ∀ x ∈ ids inp, ∀ q ∈ past, x ∉ ids q)

include hfresh in
/-- A statement of one caller: its keys are new to everybody. -/
theorem Sound.stmt {base : T × Id → Prop} {s : Sys n ι (Store Row) (Write Row Id) ε α}
    (h : S.Sound ids base s) {i : Fin n} {inp : ι}
    {writes : ι → Store Row → List (Write Row Id)}
    {next : ι → Store Row → Prog ι (Store Row) (Write Row Id) ε α}
    {failed : ε → Prog ι (Store Row) (Write Row Id) ε α}
    (hp : (s.call i).prog = .stmt writes next failed) (hin : fresh s.world.past inp = true)
    {v : Store Row} (hv : v = S.view (s.call i).pending s.world.db)
    (hfree : ∀ j, j ≠ i → S.Apart (writes inp v) (s.call j).pending) (seen : List (Store Row)) :
    S.Sound ids base (({ s with world := s.world.consume inp } :
      Sys n ι (Store Row) (Write Row Id) ε α).setCall i
        ⟨next inp v, (s.call i).pending ++ writes inp v, seen, true⟩) := by
  have hlaw := h.lawful i
  rw [hp] at hlaw
  have hws : S.LawfulWrites ids inp v (writes inp v) := hlaw.1 inp v
  -- keys of this input are nowhere in use and in no open transaction
  have hout : ∀ x, Issued ids s.world x → x ∉ ids inp := by
    rintro x ⟨q, hq, hx⟩ hxi
    exact hfresh _ _ hin x hxi q hq hx
  have hnew : ∀ p ∈ S.inserted (writes inp v), ¬ S.Ever base s.world p :=
    fun p hpi he => hout _ (h.issued p he) (hws.supplied p hpi)
  have hpend : ∀ p ∈ S.inserted (writes inp v), p ∉ S.inserted (s.call i).pending :=
    fun p hpi he => hout _ (h.unused i p he).2 (hws.supplied p hpi)
  have hkeys : S.NewKeys (writes inp v) v := by
    refine ⟨hws.once, fun t x hx hmem => ?_⟩
    rw [hv] at hmem
    rcases S.id_mem_view hmem with hold | hins
    · obtain ⟨r, hr, rfl⟩ := List.mem_map.mp hold
      exact hnew _ hx (h.used t r hr)
    · exact hpend _ hx hins
  refine h.update (W := s.world.consume inp) h.valid h.used
    (fun p he => (h.issued p he).consume inp) (hlaw.2.1 inp v) ?_ ?_ ?_ ?_ ?_
  · rw [inserted_append, List.nodup_append']
    exact ⟨h.once i, hws.once, fun p hpi hpw => hpend p hpw hpi⟩
  · intro p hpi
    rw [inserted_append, List.mem_append] at hpi
    rcases hpi with hpi | hpi
    · exact ⟨(h.unused i p hpi).1, (h.unused i p hpi).2.consume inp⟩
    · exact ⟨hnew p hpi, inp, List.mem_cons_self, hws.supplied p hpi⟩
  · rw [view_append]
    exact hv ▸ hws.valid (hv ▸ h.view i) hkeys
  · intro j hj w hw
    rcases List.mem_append.mp hw with hw | hw
    · exact h.apart i j (Ne.symm hj) w hw
    · exact hfree j hj w hw
  · exact fun j _ => ⟨fun p hpj => ⟨(h.unused j p hpj).1, (h.unused j p hpj).2.consume inp⟩,
      h.view j⟩

/-- A commit of one caller: its writes and those of every other caller merge. -/
theorem Sound.commit {base : T × Id → Prop} {s : Sys n ι (Store Row) (Write Row Id) ε α}
    (h : S.Sound ids base s) {i : Fin n} {next : Prog ι (Store Row) (Write Row Id) ε α}
    {failed : ε → Prog ι (Store Row) (Write Row Id) ε α}
    (hp : (s.call i).prog = .commit next failed) (seen : List (Store Row)) :
    S.Sound ids base (({ s with world := s.world.commit (S.engine fresh) i (s.call i).pending } :
      Sys n ι (Store Row) (Write Row Id) ε α).setCall i ⟨next, [], seen, true⟩) := by
  have hlaw := h.lawful i
  rw [hp] at hlaw
  refine h.update (h.view i) (used_commit h.used i _) ?_ hlaw.1 (by simp) (by simp)
    (by simpa using h.view i) (fun j _ => by simp [Apart]) ?_
  · intro p he
    rw [ever_commit] at he
    rcases he with he | hins
    · exact h.issued p he
    · exact (h.unused i p hins).2
  · intro j hj
    have hnotins : ∀ p ∈ S.inserted (s.call j).pending, p ∉ S.inserted (s.call i).pending := by
      intro p hpj hpi
      obtain ⟨w, hw, hwp⟩ := S.inserted_target hpj
      obtain ⟨v, hv, hvp⟩ := S.inserted_target hpi
      exact not_touches_of_apart (h.apart j i hj) ⟨w, hw, hwp⟩ ⟨v, hv, hvp⟩
    refine ⟨fun p hpj => ⟨?_, (h.unused j p hpj).2⟩, ?_⟩
    · rw [ever_commit]
      rintro (he | hins)
      · exact (h.unused j p hpj).1 he
      · exact hnotins p hpj hins
    · have hi := (h.lawfulCommit i).newKeys h.used
      refine (h.view j).merge (h.view i) (h.apart j i hj) hi ⟨h.once j, fun t x hx hmem => ?_⟩
      rcases S.id_mem_view hmem with hold | hins
      · obtain ⟨r, hr, rfl⟩ := List.mem_map.mp hold
        exact (h.unused j _ hx).1 (h.used t r hr)
      · exact hnotins _ hx hins

include hfresh in
/-- Every step of a system of lawful programs keeps the invariant. -/
theorem Sound.step {base : T × Id → Prop} {s t : Sys n ι (Store Row) (Write Row Id) ε α}
    (h : S.Sound ids base s) {a : Action n ι ε} (hs : s.step (S.engine fresh) a = some t) :
    S.Sound ids base t := by
  cases Sys.step_cases hs with
  | closed i inp hp ht =>
    rw [ht]
    exact h.drop (h.lawful i) rfl
  | stmt i inp writes next failed hp hin hfree ht =>
    rw [ht]
    exact h.stmt hfresh hp hin rfl hfree _
  | commit i inp next failed hp ht =>
    rw [ht]
    exact h.commit hp _
  | rollback i inp next hp ht =>
    have hlaw := h.lawful i
    rw [hp] at hlaw
    rw [ht]
    exact h.drop hlaw rfl
  | failed i e failed hp ht =>
    have hlaw := h.lawful i
    rw [ht]
    refine h.drop ?_ rfl
    rcases hp with ⟨writes, next, hp⟩ | ⟨next, hp⟩
    · rw [hp] at hlaw
      exact hlaw.2.2 e
    · rw [hp] at hlaw
      exact hlaw.2 e

include hfresh in
theorem Sound.run {base : T × Id → Prop} {s t : Sys n ι (Store Row) (Write Row Id) ε α}
    (h : S.Sound ids base s) {as : List (Action n ι ε)}
    (hr : s.run (S.engine fresh) as = some t) : S.Sound ids base t :=
  Sys.run_invariant (I := fun _ u => S.Sound ids base u) hr h
    fun _ _ _ _ _ _ hu hstep => hu.step hfresh hstep

end Fresh

theorem Sound.initial {W : World n ι (Store Row) (Write Row Id)}
    {progs : Fin n → Prog ι (Store Row) (Write Row Id) ε α} (hW : S.Valid W.db)
    (hlog : W.log = []) (hids : ∀ t, ∀ r ∈ W.db t, Issued ids W (S.id t r))
    (hlaw : ∀ i, S.Lawful ids (progs i)) :
    S.Sound ids (fun p => p.2 ∈ (W.db p.1).map (S.id p.1)) (Sys.initial W progs) where
  valid := hW
  used t r hr := Or.inl (List.mem_map_of_mem hr)
  issued p he := by
    rcases he with hb | ⟨e, he, -⟩
    · obtain ⟨r, hr, hre⟩ := List.mem_map.mp hb
      exact hre ▸ hids _ r hr
    · rw [Sys.initial, hlog] at he
      cases he
  apart i j _ := by simp [Apart, Sys.initial, Call.initial]
  lawful := hlaw
  once i := by simp [Sys.initial, Call.initial]
  unused i := by simp [Sys.initial, Call.initial]
  view i := hW

/-- The commit that an action performs is lawful. -/
theorem Sound.committing {base : T × Id → Prop} {s : Sys n ι (Store Row) (Write Row Id) ε α}
    (h : S.Sound ids base s) {a : Action n ι ε} {k : Fin n} {ws : List (Write Row Id)}
    (hc : s.committing a = some (k, ws)) : S.LawfulCommit base s.world ws := by
  cases a with
  | fail i e => cases hc
  | run i inp =>
    simp only [Sys.committing] at hc
    split at hc
    · simp only [Option.some.injEq, Prod.mk.injEq] at hc
      obtain ⟨rfl, rfl⟩ := hc
      exact h.lawfulCommit i
    · cases hc

end Schema

end EnvVault.Relational
