import EnvVault.AttributedWrites
import EnvVault.LawfulRuns

/-!
# What is registered of a key

A registry says for every key what the settled columns of its row are. Where each key is
introduced once and no update touches the settled columns, one registry fits a whole run:
every row that is committed or open in any of its states is as registered. So rows with the
same key, at whatever times they are looked at, agree on those columns.
-/
namespace EnvVault.Relational
open EnvVault.Transactions

variable {T : Type} {Row : T → Type} {Id : Type}

/-- A predicate of the rows of every table. -/
abbrev RowPredicate (Row : T → Type) : Type := (t : T) → Row t → Prop

/-- Every row of the store satisfies the predicate. -/
def Stored (K : RowPredicate Row) (s : Store Row) : Prop := ∀ t, ∀ r ∈ s t, K t r

/-- A write that puts down a row with the predicate, or none. -/
def RowPredicate.Admits (K : RowPredicate Row) : Write Row Id → Prop
  | .insert t r => K t r
  | .update t r => K t r
  | .delete _ _ => True

theorem RowPredicate.Admits.mono {K K' : RowPredicate Row} {w : Write Row Id} (h : K.Admits w)
    (hK : ∀ t r, K t r → K' t r) : K'.Admits w := by
  cases w with
  | insert t r => exact hK t r h
  | update t r => exact hK t r h
  | delete t id => trivial

section
variable [DecidableEq T] [DecidableEq Id] (S : Schema Row Id)

theorem Stored.apply {K : RowPredicate Row} {s : Store Row} {w : Write Row Id} (h : Stored K s)
    (hw : K.Admits w) : Stored K (S.apply w s) := by
  intro t r hr
  cases w.about t with
  | insert r₀ =>
    rw [Schema.apply_insert_self] at hr
    rcases List.mem_append.mp hr with hr | hr
    · exact h t r hr
    · rw [List.mem_singleton.mp hr]
      exact hw
  | update r₀ =>
    rw [Schema.apply_update_self] at hr
    obtain ⟨x, hx, rfl⟩ := List.mem_map.mp hr
    split
    · exact hw
    · exact h t x hx
  | delete id =>
    rw [Schema.apply_delete_self] at hr
    exact h t r (List.mem_of_mem_filter hr)
  | other ht =>
    rw [S.apply_other ht] at hr
    exact h t r hr

end

end EnvVault.Relational

namespace EnvVault.Transactions
open EnvVault.Relational

/-- The program finds rows with `K`, counts on them in what it has written, writes `J` and
returns `B`. -/
abbrev Prog.WritesOn {T : Type} {Row : T → Type} {Id ι ε α : Type} (K : RowPredicate Row)
    (J : Write Row Id → Prop) (B : α → Prop) (p : Prog ι (Store Row) (Write Row Id) ε α) : Prop :=
  p.Writes (Stored K) K.Admits J B

end EnvVault.Transactions

namespace EnvVault.Relational
open EnvVault.Transactions

variable {T : Type} {Row : T → Type} {Id : Type} {F : T → Type}

/-- What is registered of the keys of each table. -/
abbrev Registry (F : T → Type) (Id : Type) : Type := (t : T) → Id → Option (F t)

namespace Registry

/-- Later registrations are added and none is changed. -/
def Extends (R R' : Registry F Id) : Prop := ∀ t x f, R t x = some f → R' t x = some f

theorem Extends.refl (R : Registry F Id) : R.Extends R := fun _ _ _ h => h

theorem Extends.trans {R R' R'' : Registry F Id} (h : R.Extends R') (h' : R'.Extends R'') :
    R.Extends R'' :=
  fun t x f hx => h' t x f (h t x f hx)

variable (S : Schema Row Id) (settled : (t : T) → Row t → F t)

/-- The settled columns of the row are the registered ones. -/
def Fits (R : Registry F Id) : RowPredicate Row := fun t r => R t (S.id t r) = some (settled t r)

/-- An update stores a row that fits; what is inserted is free. -/
def Keeps (R : Registry F Id) : Write Row Id → Prop
  | .insert _ _ => True
  | .update t r => R.Fits S settled t r
  | .delete _ _ => True

variable {S settled}

theorem Fits.mono {R R' : Registry F Id} (h : R.Extends R') {t : T} {r : Row t}
    (hr : R.Fits S settled t r) : R'.Fits S settled t r :=
  h t _ _ hr

section
variable [DecidableEq T] [DecidableEq Id] (S settled)

/-- The registry with the rows that are inserted. -/
def register : List (Write Row Id) → Registry F Id → Registry F Id
  | [], R => R
  | .insert t r :: ws, R =>
    register ws (Function.update R t (Function.update (R t) (S.id t r) (some (settled t r))))
  | .update _ _ :: ws, R => register ws R
  | .delete _ _ :: ws, R => register ws R

variable {S settled}

theorem register_other {ws : List (Write Row Id)} {R : Registry F Id} {t : T} {x : Id}
    (h : (t, x) ∉ S.inserted ws) : register S settled ws R t x = R t x := by
  induction ws generalizing R with
  | nil => rfl
  | cons w ws ih =>
    cases w with
    | insert t₀ r =>
      rw [Schema.inserted_insert, List.mem_cons, not_or] at h
      rw [register, ih h.2]
      by_cases ht : t = t₀
      · subst ht
        have hx : x ≠ S.id t r := fun hx => h.1 (by rw [hx])
        rw [Function.update_self, Function.update_of_ne hx]
      · rw [Function.update_of_ne ht]
    | update t₀ r =>
      rw [Schema.inserted_update] at h
      exact ih h
    | delete t₀ id =>
      rw [Schema.inserted_delete] at h
      exact ih h

theorem fits_register {ws : List (Write Row Id)} {R : Registry F Id}
    (honce : (S.inserted ws).Nodup) {t : T} {r : Row t} (hr : .insert t r ∈ ws) :
    (register S settled ws R).Fits S settled t r := by
  induction ws generalizing R with
  | nil => cases hr
  | cons w ws ih =>
    cases w with
    | insert t₀ r₀ =>
      rw [Schema.inserted_insert, List.nodup_cons] at honce
      rcases List.mem_cons.mp hr with heq | hr
      · cases heq
        rw [Fits, register, register_other honce.1, Function.update_self, Function.update_self]
      · exact ih honce.2 hr
    | update t₀ r₀ =>
      rw [Schema.inserted_update] at honce
      exact ih honce (by simpa using hr)
    | delete t₀ id =>
      rw [Schema.inserted_delete] at honce
      exact ih honce (by simpa using hr)

theorem extends_register {ws : List (Write Row Id)} {R : Registry F Id}
    (h : ∀ p ∈ S.inserted ws, R p.1 p.2 = none) : R.Extends (register S settled ws R) := by
  intro t x f hx
  rw [register_other]
  · exact hx
  · intro hmem
    rw [h (t, x) hmem] at hx
    cases hx

/-- The rows of a store in order, registered. -/
def ofStore (S : Schema Row Id) (settled : (t : T) → Row t → F t) (s : Store Row) :
    Registry F Id :=
  fun t x => ((s t).find? fun r => decide (S.id t r = x)).map (settled t)

omit [DecidableEq T] in
theorem fits_ofStore {s : Store Row} (hs : ∀ t, ((s t).map (S.id t)).Nodup) :
    Stored ((ofStore S settled s).Fits S settled) s := by
  intro t r hr
  unfold Fits ofStore
  cases hfind : (s t).find? fun x => decide (S.id t x = S.id t r) with
  | none =>
    have hne := List.find?_eq_none.mp hfind r hr
    simp at hne
  | some r' =>
    have hid : S.id t r' = S.id t r := by simpa using List.find?_some hfind
    rw [List.inj_on_of_nodup_map (hs t) (List.mem_of_find?_eq_some hfind) hr hid]
    rfl

omit [DecidableEq T] in
theorem ofStore_mem {s : Store Row} {t : T} {x : Id} {f : F t}
    (h : ofStore S settled s t x = some f) : ∃ r ∈ s t, S.id t r = x := by
  obtain ⟨r, hr, -⟩ := Option.map_eq_some_iff.mp h
  exact ⟨r, List.mem_of_find?_eq_some hr, by simpa using List.find?_some hr⟩

end

end Registry

section
variable {n : ℕ} {ι ε α : Type} (S : Schema Row Id) (settled : (t : T) → Row t → F t)

/-- Whatever is registered, on stores that fit the program stores updates that fit. -/
def KeepsSettled (p : Prog ι (Store Row) (Write Row Id) ε α) : Prop :=
  ∀ R : Registry F Id, p.WritesOn (R.Fits S settled) (R.Keeps S settled) fun _ => True

/-- What is committed and what is open is as registered. -/
structure Registry.Covers (R : Registry F Id)
    (s : Sys n ι (Store Row) (Write Row Id) ε α) : Prop where
  db : Stored (R.Fits S settled) s.world.db
  pending : ∀ i, ∀ w ∈ (s.call i).pending, (R.Fits S settled).Admits w

/-- Only issued keys are registered, and the programs will keep what is. -/
structure Registry.Invariant (ids : ι → List Id) (R : Registry F Id)
    (s : Sys n ι (Store Row) (Write Row Id) ε α) : Prop extends R.Covers S settled s where
  issued : ∀ t x f, R t x = some f → Schema.Issued ids s.world x
  progs : ∀ i, ∀ R' : Registry F Id, R.Extends R' →
    (s.call i).prog.WritesOn (R'.Fits S settled) (R'.Keeps S settled) fun _ => True

namespace Registry
variable {S settled} {ids : ι → List Id} {R R' : Registry F Id}
  {s t : Sys n ι (Store Row) (Write Row Id) ε α}

theorem Covers.mono (h : R.Covers S settled s) (hR : R.Extends R') : R'.Covers S settled s where
  db t r hr := (h.db t r hr).mono hR
  pending i w hw := (h.pending i w hw).mono fun _ _ hr => hr.mono hR

/-- One caller has moved to `c`, the world to `W`, and the registry may have grown. -/
theorem Invariant.update {W : World n ι (Store Row) (Write Row Id)} {i : Fin n}
    {c : Call ι (Store Row) (Write Row Id) ε α} (h : R.Invariant S settled ids s)
    (hR : R.Extends R') (hdb : Stored (R'.Fits S settled) W.db)
    (hissued : ∀ t x f, R' t x = some f → Schema.Issued ids W x)
    (hpending : ∀ w ∈ c.pending, (R'.Fits S settled).Admits w)
    (hprog : ∀ R'' : Registry F Id, R'.Extends R'' →
      c.prog.WritesOn (R''.Fits S settled) (R''.Keeps S settled) fun _ => True) :
    R'.Invariant S settled ids (({ s with world := W } :
      Sys n ι (Store Row) (Write Row Id) ε α).setCall i c) where
  db := hdb
  pending := Sys.forall_setCall (P := fun _ c => ∀ w ∈ c.pending, (R'.Fits S settled).Admits w)
    hpending fun j _ w hw => (h.pending j w hw).mono fun _ _ hr => hr.mono hR
  issued := hissued
  progs := Sys.forall_setCall (P := fun _ c => ∀ R'' : Registry F Id, R'.Extends R'' →
    c.prog.WritesOn (R''.Fits S settled) (R''.Keeps S settled) fun _ => True) hprog
      fun j _ R'' hR'' => h.progs j R'' (hR.trans hR'')

section
variable [DecidableEq T] [DecidableEq Id] {fresh : List ι → ι → Bool}
  {base : T × Id → Prop}

omit [DecidableEq Id] [DecidableEq T] in
/-- One caller drops its open transaction. -/
theorem Invariant.drop {i : Fin n} {c : Call ι (Store Row) (Write Row Id) ε α}
    (h : R.Invariant S settled ids s) (hc : c.pending = [])
    (hprog : ∀ R' : Registry F Id, R.Extends R' →
      c.prog.WritesOn (R'.Fits S settled) (R'.Keeps S settled) fun _ => True) :
    R.Invariant S settled ids (s.setCall i c) :=
  h.update (.refl R) h.db h.issued (by simp [hc]) hprog

theorem stored_view {ws : List (Write Row Id)} {db : Store Row}
    (hdb : Stored (R.Fits S settled) db) (hws : ∀ w ∈ ws, (R.Fits S settled).Admits w) :
    Stored (R.Fits S settled) (S.view ws db) := by
  induction ws generalizing db with
  | nil => exact hdb
  | cons w ws ih =>
    exact ih (hdb.apply S (hws w List.mem_cons_self)) fun v hv => hws v (List.mem_cons_of_mem _ hv)

/-- A statement registers what it inserts. -/
theorem Invariant.stmt (hfresh : ∀ past inp, fresh past inp = true → ∀ x ∈ ids inp, ∀ q ∈ past,
      x ∉ ids q) (hs : S.Sound ids base s) (h : R.Invariant S settled ids s) {i : Fin n} {inp : ι}
    {writes : ι → Store Row → List (Write Row Id)}
    {next : ι → Store Row → Prog ι (Store Row) (Write Row Id) ε α}
    {failed : ε → Prog ι (Store Row) (Write Row Id) ε α}
    (hp : (s.call i).prog = .stmt writes next failed) (hin : fresh s.world.past inp = true)
    {v : Store Row} (hv : v = S.view (s.call i).pending s.world.db) (seen : List (Store Row)) :
    ∃ R' : Registry F Id, R.Extends R' ∧ R'.Invariant S settled ids
      (({ s with world := s.world.consume inp } :
        Sys n ι (Store Row) (Write Row Id) ε α).setCall i
          ⟨next inp v, (s.call i).pending ++ writes inp v, seen, true⟩) := by
  have hlaw := hs.lawful i
  rw [hp] at hlaw
  have hws : S.LawfulWrites ids inp v (writes inp v) := hlaw.1 inp v
  have hview : Stored (R.Fits S settled) v := hv ▸ stored_view h.db (h.pending i)
  have hprog := h.progs i
  rw [hp] at hprog
  -- the keys of this input are not registered yet
  have hR : R.Extends (register S settled (writes inp v) R) := by
    refine extends_register fun p hpi => ?_
    cases hreg : R p.1 p.2 with
    | none => rfl
    | some f =>
      obtain ⟨q, hq, hx⟩ := h.issued p.1 p.2 f hreg
      exact absurd hx (hfresh _ _ hin p.2 (hws.supplied p hpi) q hq)
  have hnew : ∀ w ∈ writes inp v,
      ((register S settled (writes inp v) R).Fits S settled).Admits w := by
    have hkeeps := ((hprog _ hR).1 inp v fun t r hr => (hview t r hr).mono hR).1
    intro w hw
    cases w with
    | insert t r => exact fits_register hws.once hw
    | update t r => exact hkeeps _ hw
    | delete t id => trivial
  refine ⟨_, hR, h.update hR (fun t r hr => (h.db t r hr).mono hR) ?_ ?_ ?_⟩
  · intro t x f hx
    by_cases hins : (t, x) ∈ S.inserted (writes inp v)
    · exact ⟨inp, List.mem_cons_self, hws.supplied _ hins⟩
    · rw [register_other hins] at hx
      exact (h.issued t x f hx).consume inp
  · intro w hw
    rcases List.mem_append.mp hw with hw | hw
    · exact (h.pending i w hw).mono fun _ _ hr => hr.mono hR
    · exact hnew w hw
  · intro R'' hR''
    exact ((hprog R'' (hR.trans hR'')).1 inp v fun t r hr => ((hview t r hr).mono hR).mono hR'').2
      fun w hw => (hnew w hw).mono fun _ _ hr => hr.mono hR''

theorem Invariant.step (hfresh : ∀ past inp, fresh past inp = true → ∀ x ∈ ids inp, ∀ q ∈ past,
      x ∉ ids q) (hs : S.Sound ids base s) (h : R.Invariant S settled ids s)
    {a : Action n ι ε} (hstep : s.step (S.engine fresh) a = some t) :
    ∃ R' : Registry F Id, R.Extends R' ∧ R'.Invariant S settled ids t := by
  cases Sys.step_cases hstep with
  | closed i inp hp ht =>
    rw [ht]
    exact ⟨R, .refl R, h.drop rfl (h.progs i)⟩
  | stmt i inp writes next failed hp hin hfree ht =>
    rw [ht]
    exact h.stmt hfresh hs hp hin rfl _
  | commit i inp next failed hp ht =>
    have hprog := h.progs i
    rw [hp] at hprog
    rw [ht]
    exact ⟨R, .refl R, h.update (.refl R) (stored_view h.db (h.pending i)) h.issued
      (fun w hw => absurd hw List.not_mem_nil) fun R' hR => (hprog R' hR).1⟩
  | rollback i inp next hp ht =>
    have hprog := h.progs i
    rw [hp] at hprog
    rw [ht]
    exact ⟨R, .refl R, h.drop rfl hprog⟩
  | failed i e failed hp ht =>
    have hprog := h.progs i
    rw [ht]
    refine ⟨R, .refl R, h.drop rfl fun R' hR => ?_⟩
    rcases hp with ⟨writes, next, hp⟩ | ⟨next, hp⟩
    · rw [hp] at hprog
      exact (hprog R' hR).2 e
    · rw [hp] at hprog
      exact (hprog R' hR).2 e

/-- One registry covers every state of a run. -/
theorem Invariant.run (hfresh : ∀ past inp, fresh past inp = true → ∀ x ∈ ids inp, ∀ q ∈ past,
      x ∉ ids q) (hs : S.Sound ids base s) (h : R.Invariant S settled ids s)
    {as : List (Action n ι ε)} (hr : s.run (S.engine fresh) as = some t) :
    ∃ R' : Registry F Id, R.Extends R' ∧ ∀ bs u, bs <+: as →
      s.run (S.engine fresh) bs = some u → R'.Covers S settled u := by
  induction as generalizing s R with
  | nil =>
    refine ⟨R, .refl R, fun bs u hbs hu => ?_⟩
    obtain rfl := List.prefix_nil.mp hbs
    obtain rfl : s = u := Option.some.inj hu
    exact h.toCovers
  | cons a as ih =>
    rw [Sys.run_cons, Option.bind_eq_some_iff] at hr
    obtain ⟨v, hv, hr⟩ := hr
    obtain ⟨R₁, hR₁, h₁⟩ := h.step hfresh hs hv
    obtain ⟨R₂, hR₂, hall⟩ := ih (hs.step hfresh hv) h₁ hr
    refine ⟨R₂, hR₁.trans hR₂, fun bs u hbs hu => ?_⟩
    cases bs with
    | nil =>
      obtain rfl : s = u := Option.some.inj hu
      exact h.toCovers.mono (hR₁.trans hR₂)
    | cons b bs =>
      obtain ⟨rfl, hrest⟩ := List.cons_prefix_cons.mp hbs
      rw [Sys.run_cons, hv, Option.bind_some] at hu
      exact hall bs u hrest hu

omit [DecidableEq T] in
theorem Invariant.initial {W : World n ι (Store Row) (Write Row Id)}
    {progs : Fin n → Prog ι (Store Row) (Write Row Id) ε α} (hW : S.Valid W.db)
    (hids : ∀ t, ∀ r ∈ W.db t, Schema.Issued ids W (S.id t r))
    (hprogs : ∀ i, KeepsSettled S settled (progs i)) :
    (ofStore S settled W.db).Invariant S settled ids (Sys.initial W progs) where
  db := fits_ofStore hW.keys
  pending i w hw := absurd hw List.not_mem_nil
  issued t x f hx := by
    obtain ⟨r, hr, rfl⟩ := ofStore_mem hx
    exact hids t r hr
  progs i R' _ := hprogs i R'

end

/-- Rows with one key agree on the settled columns. -/
theorem Covers.settled_eq (hs : R.Covers S settled s) (ht : R.Covers S settled t) {τ : T}
    {r r' : Row τ} (hr : r ∈ s.world.db τ) (hr' : r' ∈ t.world.db τ)
    (hid : S.id τ r = S.id τ r') : settled τ r = settled τ r' := by
  have h := hs.db τ r hr
  have h' := ht.db τ r' hr'
  rw [Fits, hid] at h
  exact Option.some.inj (h.symm.trans h')

end Registry

end

end EnvVault.Relational
