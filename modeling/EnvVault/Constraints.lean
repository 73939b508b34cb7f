import EnvVault.Relational

/-!
# Declared constraints under concurrent commits

Primary keys, uniqueness constraints and immediate foreign keys are checked by
a statement against its own view. Row locks, the wait on a clashing key and the
lock a foreign-key check takes on the parent row make these local checks enough:
two sets of writes that exclude each other nowhere, each in order over the store
it was computed from, are in order together.
-/
namespace EnvVault.Relational
open EnvVault.Transactions

variable {T : Type} {Row : T → Type} {Id : Type}

namespace Schema
variable (S : Schema Row Id)

/-- A store that satisfies the declared constraints. -/
structure Valid (s : Store Row) : Prop where
  keys : ∀ t, ((s t).map (S.id t)).Nodup
  unique : ∀ t, ∀ u ∈ S.unique t, ∀ a ∈ s t, ∀ b ∈ s t, S.id t a ≠ S.id t b → u a b = false
  references : ∀ fk ∈ S.foreignKeys, fk.deferred = false → ∀ a ∈ s fk.child, ∀ x,
    fk.column a = some x → ∃ p ∈ s fk.parent, S.id fk.parent p = x

/-- Two rows of a table in order with the same key are one row. -/
theorem Valid.eq_of_id {S : Schema Row Id} {s : Store Row} (h : S.Valid s) {t : T} {a b : Row t}
    (ha : a ∈ s t) (hb : b ∈ s t) (hab : S.id t a = S.id t b) : a = b :=
  List.inj_on_of_nodup_map (h.keys t) ha hb hab

/-- Some write of the list is about this key. -/
def Touches (ws : List (Write Row Id)) (t : T) (x : Id) : Prop :=
  ∃ w ∈ ws, S.target w = (t, x)

/-- The two stores hold the same rows under this key. -/
def Agree (s s' : Store Row) (t : T) (x : Id) : Prop :=
  ∀ r, S.id t r = x → (r ∈ s t ↔ r ∈ s' t)

theorem agree_refl (s : Store Row) (t : T) (x : Id) : S.Agree s s t x := fun _ _ => Iff.rfl

variable {S} [DecidableEq T] [DecidableEq Id]

theorem mem_apply_update {t : T} {r r' : Row t} {s : Store Row} :
    r' ∈ S.apply (.update t r) s t ↔
      (r' = r ∧ ∃ y ∈ s t, S.id t y = S.id t r) ∨ (r' ∈ s t ∧ S.id t r' ≠ S.id t r) := by
  rw [apply_update_self, List.mem_map]
  constructor
  · rintro ⟨y, hy, hyr⟩
    by_cases hid : S.id t y = S.id t r
    · rw [if_pos hid] at hyr
      exact Or.inl ⟨hyr.symm, y, hy, hid⟩
    · rw [if_neg hid] at hyr
      subst hyr
      exact Or.inr ⟨hy, hid⟩
  · rintro (⟨rfl, y, hy, hid⟩ | ⟨hr, hid⟩)
    · exact ⟨y, hy, if_pos hid⟩
    · exact ⟨r', hr, if_neg hid⟩

theorem mem_apply_delete {t : T} {id : Id} {r : Row t} {s : Store Row} :
    r ∈ S.apply (.delete t id) s t ↔ r ∈ s t ∧ S.id t r ≠ id := by
  simp

theorem agree_apply {s s' : Store Row} {t : T} {x : Id} (w : Write Row Id)
    (h : S.Agree s s' t x) : S.Agree (S.apply w s) (S.apply w s') t x := by
  intro r hr
  cases w.about t with
  | insert r₀ => simp only [apply_insert_self, List.mem_append, h r hr]
  | update r₀ =>
    simp only [mem_apply_update, h r hr]
    refine or_congr (and_congr_right fun hrr => ?_) Iff.rfl
    subst hrr
    constructor
    · rintro ⟨y, hy, hid⟩
      exact ⟨y, (h y (hid.trans hr)).mp hy, hid⟩
    · rintro ⟨y, hy, hid⟩
      exact ⟨y, (h y (hid.trans hr)).mpr hy, hid⟩
  | delete id => simp only [mem_apply_delete, h r hr]
  | other ht =>
    rw [S.apply_other ht, S.apply_other ht]
    exact h r hr

/-- What a list of writes makes of a key depends on the rows under that key. -/
theorem agree_view {s s' : Store Row} {t : T} {x : Id} (ws : List (Write Row Id))
    (h : S.Agree s s' t x) : S.Agree (S.view ws s) (S.view ws s') t x := by
  induction ws generalizing s s' with
  | nil => exact h
  | cons w ws ih => exact ih (agree_apply w h)

theorem agree_apply_of_ne {w : Write Row Id} {t : T} {x : Id} (h : S.target w ≠ (t, x))
    (s : Store Row) : S.Agree (S.apply w s) s t x := by
  intro r hr
  subst hr
  cases w.about t with
  | insert r₀ =>
    simp only [apply_insert_self, List.mem_append, List.mem_singleton]
    refine or_iff_left ?_
    rintro rfl
    exact h rfl
  | update r₀ =>
    have hne : S.id t r ≠ S.id t r₀ := fun he => h (by rw [he]; rfl)
    rw [mem_apply_update]
    constructor
    · rintro (⟨rfl, -⟩ | ⟨hm, -⟩)
      · exact absurd rfl hne
      · exact hm
    · exact fun hm => Or.inr ⟨hm, hne⟩
  | delete id =>
    rw [mem_apply_delete]
    refine and_iff_left ?_
    rintro rfl
    exact h rfl
  | other ht => rw [S.apply_other ht]

/-- Writes about other keys leave the rows under this one. -/
theorem agree_of_untouched {ws : List (Write Row Id)} {t : T} {x : Id}
    (h : ¬ S.Touches ws t x) (s : Store Row) : S.Agree (S.view ws s) s t x := by
  induction ws generalizing s with
  | nil => exact S.agree_refl s t x
  | cons w ws ih =>
    intro r hr
    have hw : S.target w ≠ (t, x) := fun he => h ⟨w, List.mem_cons_self, he⟩
    have hws : ¬ S.Touches ws t x := fun ⟨v, hv, he⟩ => h ⟨v, List.mem_cons_of_mem _ hv, he⟩
    exact (ih hws _ r hr).trans (agree_apply_of_ne hw s r hr)

/-- A row under a list of writes is an untouched old row or a version stored by
one of the writes. -/
theorem mem_view_cases {ws : List (Write Row Id)} {s : Store Row} (hn : S.NewKeys ws s) {t : T}
    {r : Row t} (h : r ∈ S.view ws s t) :
    (r ∈ s t ∧ ¬ S.Touches ws t (S.id t r)) ∨ ∃ w ∈ ws, w.row? t = some r := by
  by_cases ht : S.Touches ws t (S.id t r)
  · right
    induction ws generalizing s with
    | nil => obtain ⟨w, hw, -⟩ := ht; cases hw
    | cons w ws ih =>
      rw [view_cons] at h
      by_cases hws : S.Touches ws t (S.id t r)
      · obtain ⟨v, hv, he⟩ := ih hn.tail h hws
        exact ⟨v, List.mem_cons_of_mem _ hv, he⟩
      · have hm : r ∈ S.apply w s t := (agree_of_untouched hws _ r rfl).mp h
        have hw : S.target w = (t, S.id t r) := by
          obtain ⟨v, hv, he⟩ := ht
          rcases List.mem_cons.mp hv with rfl | hv
          · exact he
          · exact absurd ⟨v, hv, he⟩ hws
        refine ⟨w, List.mem_cons_self, ?_⟩
        have hid : (S.target w).2 = S.id t r := congrArg Prod.snd hw
        cases w.about t with
        | insert r₀ =>
          rw [apply_insert_self, List.mem_append, List.mem_singleton] at hm
          rcases hm with hm | rfl
          · have hr : S.id t r ∈ (s t).map (S.id t) := List.mem_map_of_mem hm
            exact absurd (show S.id t r₀ = S.id t r from hid) (fun he => hn.head (he ▸ hr))
          · exact Write.row?_insert _ _
        | update r₀ =>
          rcases mem_apply_update.mp hm with ⟨rfl, -⟩ | ⟨-, hne⟩
          · exact Write.row?_update _ _
          · exact absurd hid.symm hne
        | delete id => exact absurd hid.symm (mem_apply_delete.mp hm).2
        | other hw' =>
          refine absurd ?_ hw'
          have := congrArg Prod.fst hw
          cases w <;> exact this
  · exact Or.inl ⟨(agree_of_untouched ht s r rfl).mp h, ht⟩

omit [DecidableEq Id] in
theorem row?_table {w : Write Row Id} {t : T} {r : Row t} (h : w.row? t = some r) :
    w.table = t := by
  cases w with
  | insert t' r' =>
    by_contra hne
    simp [Write.row?, show t' ≠ t from hne] at h
  | update t' r' =>
    by_contra hne
    simp [Write.row?, show t' ≠ t from hne] at h
  | delete t' id => cases h

/-- A row under a list of writes is an old row or one that a write stores. -/
theorem mem_view_or_stored {ws : List (Write Row Id)} {s : Store Row} {t : T} {r : Row t}
    (h : r ∈ S.view ws s t) : r ∈ s t ∨ ∃ w ∈ ws, w.row? t = some r := by
  induction ws generalizing s with
  | nil => exact Or.inl h
  | cons w ws ih =>
    rw [view_cons] at h
    rcases ih h with hm | ⟨v, hv, hrow⟩
    · cases w.about t with
      | insert r₀ =>
        rw [apply_insert_self, List.mem_append, List.mem_singleton] at hm
        rcases hm with hm | rfl
        · exact Or.inl hm
        · exact Or.inr ⟨_, List.mem_cons_self, Write.row?_insert _ _⟩
      | update r₀ =>
        rcases mem_apply_update.mp hm with ⟨rfl, -⟩ | ⟨hm, -⟩
        · exact Or.inr ⟨_, List.mem_cons_self, Write.row?_update _ _⟩
        · exact Or.inl hm
      | delete id => exact Or.inl (mem_apply_delete.mp hm).1
      | other hw =>
        rw [S.apply_other hw] at hm
        exact Or.inl hm
    · exact Or.inr ⟨v, List.mem_cons_of_mem _ hv, hrow⟩

/-- A row that is neither updated nor deleted stays. -/
theorem mem_view_of_kept {ws : List (Write Row Id)} {s : Store Row} {t : T} {r : Row t}
    (hr : r ∈ s t) (hu : ∀ r', Write.update t r' ∉ ws) (hd : Write.delete t (S.id t r) ∉ ws) :
    r ∈ S.view ws s t := by
  induction ws generalizing s with
  | nil => exact hr
  | cons w ws ih =>
    rw [view_cons]
    refine ih ?_ (fun r' hw => hu r' (List.mem_cons_of_mem _ hw))
      (fun hw => hd (List.mem_cons_of_mem _ hw))
    cases w.about t with
    | insert r' =>
      rw [apply_insert_self]
      exact List.mem_append_left _ hr
    | update r' => exact absurd List.mem_cons_self (hu r')
    | delete x =>
      refine mem_apply_delete.mpr ⟨hr, ?_⟩
      rintro rfl
      exact hd List.mem_cons_self
    | other ht => rwa [S.apply_other ht]

/-- So does a row that the writes insert. -/
theorem mem_view_of_insert {ws : List (Write Row Id)} {s : Store Row} {t : T} {r : Row t}
    (hins : Write.insert t r ∈ ws) (hu : ∀ r', Write.update t r' ∉ ws)
    (hd : Write.delete t (S.id t r) ∉ ws) : r ∈ S.view ws s t := by
  induction ws generalizing s with
  | nil => cases hins
  | cons w ws ih =>
    have hu' : ∀ r', Write.update t r' ∉ ws := fun r' hw => hu r' (List.mem_cons_of_mem _ hw)
    have hd' : Write.delete t (S.id t r) ∉ ws := fun hw => hd (List.mem_cons_of_mem _ hw)
    rw [view_cons]
    rcases List.mem_cons.mp hins with rfl | hins
    · exact mem_view_of_kept (by simp) hu' hd'
    · exact ih hins hu' hd'

/-- In a table without updates a row was there before, or it is inserted. -/
theorem mem_view_origin {ws : List (Write Row Id)} {s : Store Row} (hn : S.NewKeys ws s) {t : T}
    {r : Row t} (h : r ∈ S.view ws s t) (hu : ∀ r', Write.update t r' ∉ ws) :
    r ∈ s t ∨ Write.insert t r ∈ ws := by
  rcases mem_view_cases hn h with ⟨hr, -⟩ | ⟨w, hw, hrow⟩
  · exact Or.inl hr
  · right
    cases w.about t with
    | insert r' =>
      obtain rfl : r' = r := by simpa using hrow
      exact hw
    | update r' => exact absurd hw (hu r')
    | delete x => cases hrow
    | other ht => exact absurd (row?_table hrow) ht

/-- No write of the one list excludes a write of the other. -/
def Apart (ws vs : List (Write Row Id)) : Prop :=
  ∀ w ∈ ws, ∀ v ∈ vs, S.conflict w v = false

theorem not_touches_of_apart {ws vs : List (Write Row Id)} (h : S.Apart ws vs) {t : T} {x : Id}
    (hw : S.Touches ws t x) : ¬ S.Touches vs t x := by
  obtain ⟨w, hw, hwx⟩ := hw
  rintro ⟨v, hv, hvx⟩
  have := h w hw v hv
  simp [conflict, hwx, hvx] at this

/-- Over a store that the other list changed first, a key of this list ends as if
the other list had not been there. -/
theorem agree_of_touches {ws vs : List (Write Row Id)} (h : S.Apart ws vs) {t : T} {x : Id}
    (hw : S.Touches ws t x) (s : Store Row) :
    S.Agree (S.view ws (S.view vs s)) (S.view ws s) t x :=
  agree_view ws (agree_of_untouched (not_touches_of_apart h hw) s)

omit [DecidableEq Id] in
theorem clash_of_rows {w v : Write Row Id} {t : T} {a b : Row t} (hw : w.row? t = some a)
    (hv : v.row? t = some b) {u : Row t → Row t → Bool} (hu : u ∈ S.unique t)
    (hab : u a b = true) : S.clash w v = true := by
  have hany : (S.unique t).any (fun u => u a b) = true := List.any_eq_true.mpr ⟨u, hu, hab⟩
  cases w.about t with
  | insert r =>
    obtain rfl : r = a := by simpa using hw
    simp only [clash, hv, Option.any_some, hany]
  | update r =>
    obtain rfl : r = a := by simpa using hw
    simp only [clash, hv, Option.any_some, hany]
  | delete id => cases hw
  | other ht =>
    cases w with
    | insert t' r => simp [Write.row?, show t' ≠ t from ht] at hw
    | update t' r => simp [Write.row?, show t' ≠ t from ht] at hw
    | delete t' id => cases hw

/-- Row versions stored by two transactions at once do not clash. -/
theorem unique_of_apart {ws vs : List (Write Row Id)} (h : S.Apart ws vs) {t : T} {a b : Row t}
    (ha : ∃ w ∈ ws, w.row? t = some a) (hb : ∃ v ∈ vs, v.row? t = some b)
    {u : Row t → Row t → Bool} (hu : u ∈ S.unique t) : u a b = false ∧ u b a = false := by
  obtain ⟨w, hw, hwa⟩ := ha
  obtain ⟨v, hv, hvb⟩ := hb
  have hc := h w hw v hv
  simp only [conflict, Bool.or_eq_false_iff] at hc
  constructor
  · by_contra hne
    rw [clash_of_rows hwa hvb hu (by simpa using hne)] at hc
    exact absurd hc.1.2.1 (by simp)
  · by_contra hne
    rw [clash_of_rows hvb hwa hu (by simpa using hne)] at hc
    exact absurd hc.1.2.2 (by simp)

/-- A transaction does not delete the row that another one's new row references. -/
theorem not_delete_of_apart {ws vs : List (Write Row Id)} (h : S.Apart ws vs)
    {fk : ForeignKey Row Id} (hfk : fk ∈ S.foreignKeys) {a : Row fk.child} {x : Id}
    (ha : ∃ w ∈ ws, w.row? fk.child = some a) (hx : fk.column a = some x) :
    Write.delete fk.parent x ∉ vs := by
  obtain ⟨w, hw, hwa⟩ := ha
  intro hv
  have hc := h w hw _ hv
  have horph : S.orphans w (.delete fk.parent x) = true := by
    simp only [orphans, List.any_eq_true]
    exact ⟨fk, hfk, by simp [hwa, hx]⟩
  simp [conflict, horph] at hc

theorem Apart.symm {ws vs : List (Write Row Id)} (h : S.Apart ws vs) : S.Apart vs ws := by
  intro v hv w hw
  rw [S.conflict_symm]
  exact h w hw v hv

/-- A row that is never deleted keeps its place under its key. -/
theorem id_persists {ws : List (Write Row Id)} {s : Store Row} {t : T} {x : Id}
    (hd : Write.delete t x ∉ ws) (h : ∃ p ∈ s t, S.id t p = x) :
    ∃ p ∈ S.view ws s t, S.id t p = x := by
  induction ws generalizing s with
  | nil => exact h
  | cons w ws ih =>
    rw [view_cons]
    refine ih (fun hm => hd (List.mem_cons_of_mem _ hm)) ?_
    obtain ⟨p, hp, hpx⟩ := h
    cases w.about t with
    | insert r =>
      exact ⟨p, by rw [apply_insert_self]; exact List.mem_append_left _ hp, hpx⟩
    | update r =>
      by_cases hid : S.id t p = S.id t r
      · exact ⟨r, mem_apply_update.mpr (Or.inl ⟨rfl, p, hp, hid⟩), hid.symm.trans hpx⟩
      · exact ⟨p, mem_apply_update.mpr (Or.inr ⟨hp, hid⟩), hpx⟩
    | delete id =>
      refine ⟨p, mem_apply_delete.mpr ⟨hp, ?_⟩, hpx⟩
      rintro rfl
      exact hd (by rw [← hpx]; exact List.mem_cons_self)
    | other ht => exact ⟨p, by rw [S.apply_other ht]; exact hp, hpx⟩

/-- Where a row of the merged store comes from: this list, the other list, or the
store before both. -/
theorem mem_merge_cases {ws vs : List (Write Row Id)} {s : Store Row} (h : S.Apart ws vs)
    (hn : S.NewKeys ws (S.view vs s)) (hv : S.NewKeys vs s) {t : T} {a : Row t}
    (ha : a ∈ S.view ws (S.view vs s) t) :
    (a ∈ S.view ws s t ∧ ∃ w ∈ ws, w.row? t = some a) ∨
      (a ∈ S.view vs s t ∧ ∃ v ∈ vs, v.row? t = some a) ∨
      (a ∈ S.view ws s t ∧ a ∈ S.view vs s t) := by
  by_cases hw : S.Touches ws t (S.id t a)
  · rcases mem_view_cases hn ha with ⟨-, hnot⟩ | hrow
    · exact absurd hw hnot
    · exact Or.inl ⟨(agree_of_touches h hw s a rfl).mp ha, hrow⟩
  · have hav : a ∈ S.view vs s t := (agree_of_untouched hw _ a rfl).mp ha
    rcases mem_view_cases hv hav with ⟨has, -⟩ | hrow
    · exact Or.inr (Or.inr ⟨(agree_of_untouched hw s a rfl).mpr has, hav⟩)
    · exact Or.inr (Or.inl ⟨hav, hrow⟩)

/-- A key present on the side that decides it is present in the merged store. -/
theorem key_merge {ws vs : List (Write Row Id)} {s : Store Row} (h : S.Apart ws vs) {t : T} {x : Id}
    (hw : S.Touches ws t x → ∃ p ∈ S.view ws s t, S.id t p = x)
    (hv : ¬ S.Touches ws t x → ∃ p ∈ S.view vs s t, S.id t p = x) :
    ∃ p ∈ S.view ws (S.view vs s) t, S.id t p = x := by
  by_cases ht : S.Touches ws t x
  · obtain ⟨p, hp, hpx⟩ := hw ht
    exact ⟨p, (agree_of_touches h ht s p hpx).mpr hp, hpx⟩
  · obtain ⟨p, hp, hpx⟩ := hv ht
    exact ⟨p, (agree_of_untouched ht _ p hpx).mpr hp, hpx⟩

/-- Two sets of writes that nowhere exclude each other, each in order over the
store they share, are in order one after the other. -/
theorem Valid.merge {ws vs : List (Write Row Id)} {s : Store Row} (hw : S.Valid (S.view ws s))
    (hv : S.Valid (S.view vs s)) (h : S.Apart ws vs) (hnv : S.NewKeys vs s)
    (hn : S.NewKeys ws (S.view vs s)) : S.Valid (S.view ws (S.view vs s)) where
  keys := nodup_view hv.keys hn
  unique t u hu a ha b hb hab := by
    rcases mem_merge_cases h hn hnv ha with ⟨ha, har⟩ | ⟨ha, har⟩ | ⟨ha, ha'⟩ <;>
      rcases mem_merge_cases h hn hnv hb with ⟨hb, hbr⟩ | ⟨hb, hbr⟩ | ⟨hb, hb'⟩
    · exact hw.unique t u hu a ha b hb hab
    · exact (unique_of_apart h har hbr hu).1
    · exact hw.unique t u hu a ha b hb hab
    · exact (unique_of_apart h hbr har hu).2
    · exact hv.unique t u hu a ha b hb hab
    · exact hv.unique t u hu a ha b hb' hab
    · exact hw.unique t u hu a ha b hb hab
    · exact hv.unique t u hu a ha' b hb hab
    · exact hw.unique t u hu a ha b hb hab
  references fk hfk hdef a ha x hx := by
    rcases mem_merge_cases h hn hnv ha with ⟨ha, har⟩ | ⟨ha, har⟩ | ⟨ha, ha'⟩
    · -- the parent was there for this list, and the other list does not delete it
      have hp := hw.references fk hfk hdef a ha x hx
      refine key_merge h (fun _ => hp) (fun ht => ?_)
      obtain ⟨p, hp, hpx⟩ := hp
      exact id_persists (not_delete_of_apart h hfk har hx)
        ⟨p, (agree_of_untouched ht s p hpx).mp hp, hpx⟩
    · have hp := hv.references fk hfk hdef a ha x hx
      refine key_merge h (fun ht => ?_) (fun _ => hp)
      obtain ⟨p, hp, hpx⟩ := hp
      exact id_persists (not_delete_of_apart h.symm hfk har hx)
        ⟨p, (agree_of_untouched (not_touches_of_apart h ht) s p hpx).mp hp, hpx⟩
    · exact key_merge h (fun _ => hw.references fk hfk hdef a ha x hx)
        (fun _ => hv.references fk hfk hdef a ha' x hx)

variable (S)

/-- The immediate foreign keys of a row find their parents. -/
def referencesHold (t : T) (r : Row t) (s : Store Row) : Bool :=
  S.foreignKeys.all fun fk => fk.deferred ||
    (fk.ref t r).all fun x => (s fk.parent).any fun p => S.id fk.parent p = x

/-- No row with another key clashes with this one under a uniqueness constraint. -/
def uniqueAmong (t : T) (r : Row t) (s : Store Row) : Bool :=
  (s t).all fun x => decide (S.id t x = S.id t r) ||
    (S.unique t).all fun u => !u x r && !u r x

/-- The constraint checks of an INSERT. -/
def admitsInsert (t : T) (r : Row t) (s : Store Row) : Bool :=
  ((s t).all fun x => S.id t x ≠ S.id t r) && S.uniqueAmong t r s && S.referencesHold t r s

/-- The constraint checks of an UPDATE. -/
def admitsUpdate (t : T) (r : Row t) (s : Store Row) : Bool :=
  S.uniqueAmong t r s && S.referencesHold t r s

variable {S}

omit [DecidableEq T] in
theorem uniqueAmong_iff {t : T} {r : Row t} {s : Store Row} :
    S.uniqueAmong t r s = true ↔ ∀ x ∈ s t, S.id t x ≠ S.id t r → ∀ u ∈ S.unique t,
      u x r = false ∧ u r x = false := by
  simp [uniqueAmong, or_iff_not_imp_left]

theorem referencesHold_iff {t : T} {r : Row t} {s : Store Row} :
    S.referencesHold t r s = true ↔ ∀ fk ∈ S.foreignKeys, fk.deferred = false → ∀ x,
      fk.ref t r = some x → ∃ p ∈ s fk.parent, S.id fk.parent p = x := by
  simp [referencesHold, or_iff_not_imp_left, Option.all_eq_true]

theorem admitsInsert_iff {t : T} {r : Row t} {s : Store Row} :
    S.admitsInsert t r s = true ↔ (∀ x ∈ s t, S.id t x ≠ S.id t r) ∧
      S.uniqueAmong t r s = true ∧ S.referencesHold t r s = true := by
  simp [admitsInsert, and_assoc]

/-- A write that stores one row, with its checks passed, keeps a valid store valid. -/
theorem Valid.store {s : Store Row} (hs : S.Valid s) {w : Write Row Id} {t : T} {r : Row t}
    (hw : w.row? t = some r) (hn : S.NewKeys [w] s) (hu : S.uniqueAmong t r s = true)
    (hr : S.referencesHold t r s = true) : S.Valid (S.apply w s) := by
  have hcases : ∀ t' (a : Row t'), a ∈ S.apply w s t' → a ∈ s t' ∨ w.row? t' = some a := by
    intro t' a ha
    have hview : a ∈ S.view [w] s t' := ha
    rcases mem_view_cases hn hview with ⟨ha, -⟩ | ⟨v, hv, hva⟩
    · exact Or.inl ha
    · obtain rfl := List.mem_singleton.mp hv
      exact Or.inr hva
  have hkeep : ∀ t' x, (∃ p ∈ s t', S.id t' p = x) → ∃ p ∈ S.apply w s t', S.id t' p = x := by
    intro t' x hp
    change ∃ p ∈ S.view [w] s t', S.id t' p = x
    refine id_persists (fun hd => ?_) hp
    rw [← List.mem_singleton.mp hd] at hw
    cases hw
  have hsame : ∀ t' (a : Row t'), w.row? t' = some a → ∃ h : t = t', a = h ▸ r := by
    intro t' a ha
    obtain rfl : t = t' := (row?_table hw).symm.trans (row?_table ha)
    exact ⟨rfl, Option.some.inj (ha.symm.trans hw)⟩
  have hu := uniqueAmong_iff.mp hu
  refine ⟨nodup_apply hs.keys hn, fun t' u hut a ha b hb hab => ?_, fun fk hfk hdef a ha x hx => ?_⟩
  · rcases hcases t' a ha with ha | ha <;> rcases hcases t' b hb with hb | hb
    · exact hs.unique t' u hut a ha b hb hab
    · obtain ⟨rfl, rfl⟩ := hsame t' b hb
      exact (hu a ha hab u hut).1
    · obtain ⟨rfl, rfl⟩ := hsame t' a ha
      exact (hu b hb (Ne.symm hab) u hut).2
    · rw [Option.some.inj (ha.symm.trans hb)] at hab
      exact absurd rfl hab
  · rcases hcases fk.child a ha with ha | ha
    · exact hkeep _ _ (hs.references fk hfk hdef a ha x hx)
    · obtain ⟨rfl, rfl⟩ := hsame fk.child a ha
      exact hkeep _ _ (referencesHold_iff.mp hr fk hfk hdef x (by simpa using hx))

theorem Valid.insert {s : Store Row} (hs : S.Valid s) {t : T} {r : Row t}
    (h : S.admitsInsert t r s = true) : S.Valid (S.apply (.insert t r) s) := by
  simp only [admitsInsert, Bool.and_eq_true] at h
  refine hs.store (Write.row?_insert t r) ⟨by simp, fun t' x hx hmem => ?_⟩ h.1.2 h.2
  obtain ⟨rfl, rfl⟩ : t' = t ∧ HEq x (S.id t r) := by simpa using hx
  obtain ⟨y, hy, hyr⟩ := List.mem_map.mp hmem
  simpa [hyr] using List.all_eq_true.mp h.1.1 y hy

/-- The constraints of a store checked row by row. -/
theorem Valid.of_checks {ts : List T} (hts : ∀ t, t ∈ ts) {s : Store Row}
    (hkeys : ∀ t ∈ ts, ((s t).map (S.id t)).Nodup)
    (hrows : ∀ t ∈ ts, (s t).all (fun r => S.uniqueAmong t r s && S.referencesHold t r s) = true) :
    S.Valid s := by
  have hrow : ∀ t, ∀ r ∈ s t, S.uniqueAmong t r s = true ∧ S.referencesHold t r s = true :=
    fun t r hr => by simpa using List.all_eq_true.mp (hrows t (hts t)) r hr
  refine ⟨fun t => hkeys t (hts t), fun t u hu a ha b hb hab => ?_, fun fk hfk hdef a ha x hx => ?_⟩
  · exact (uniqueAmong_iff.mp (hrow t b hb).1 a ha hab u hu).1
  · exact referencesHold_iff.mp (hrow _ a ha).2 fk hfk hdef x (by simpa using hx)

theorem Valid.update {s : Store Row} (hs : S.Valid s) {t : T} {r : Row t}
    (h : S.admitsUpdate t r s = true) : S.Valid (S.apply (.update t r) s) := by
  simp only [admitsUpdate, Bool.and_eq_true] at h
  exact hs.store (Write.row?_update t r) ⟨by simp, by simp⟩ h.1 h.2

end Schema

end EnvVault.Relational
