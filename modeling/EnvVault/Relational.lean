import Mathlib.Data.List.Nodup
import EnvVault.SoloRun

/-!
# Keyed tables under row writes

A store has one list of rows for each table of a schema; a schema names the
primary key, the uniqueness constraints and the foreign keys. A row write
inserts a row, stores a new version of a row, or deletes one. Two open
transactions exclude each other's writes on the same row, on rows that clash
under a uniqueness constraint, and between a row and the deletion of a row it
references (the KEY SHARE lock of a foreign-key check).
-/
namespace EnvVault.Relational
open EnvVault.Transactions

variable {T : Type} {Row : T → Type} {Id : Type}

abbrev Store (Row : T → Type) : Type := (t : T) → List (Row t)

/-- The referential action of a foreign key when the parent row goes. -/
inductive OnDelete (R : Type) : Type
  | cascade
  | setNull (clear : R → R)
  | noAction

structure ForeignKey (Row : T → Type) (Id : Type) where
  child : T
  parent : T
  column : Row child → Option Id
  onDelete : OnDelete (Row child)
  /-- Checked at COMMIT and not when the row is written. -/
  deferred : Bool

namespace ForeignKey
variable [DecidableEq T]

/-- The key that a row of table `t` references through this foreign key. -/
def ref (fk : ForeignKey Row Id) (t : T) (r : Row t) : Option Id :=
  if h : fk.child = t then fk.column (h ▸ r) else none

@[simp] theorem ref_self (fk : ForeignKey Row Id) (r : Row fk.child) :
    fk.ref fk.child r = fk.column r := by simp [ref]

end ForeignKey

/-- `unique t` lists the uniqueness constraints of a table as clashes of two
rows; `foreignKeys` stands in the order of creation; `appendOnly t` says that a
BEFORE UPDATE OR DELETE trigger of the table raises. -/
structure Schema (Row : T → Type) (Id : Type) where
  id : (t : T) → Row t → Id
  unique : (t : T) → List (Row t → Row t → Bool)
  foreignKeys : List (ForeignKey Row Id)
  appendOnly : T → Bool

inductive Write (Row : T → Type) (Id : Type) : Type
  | insert (t : T) (r : Row t)
  | update (t : T) (r : Row t)
  | delete (t : T) (id : Id)

namespace Write

def table : Write Row Id → T
  | .insert t _ => t
  | .update t _ => t
  | .delete t _ => t

/-- A write seen from one table. -/
inductive About (t : T) : Write Row Id → Prop
  | insert (r : Row t) : About t (.insert t r)
  | update (r : Row t) : About t (.update t r)
  | delete (id : Id) : About t (.delete t id)
  | other {w : Write Row Id} (h : w.table ≠ t) : About t w

theorem about (t : T) (w : Write Row Id) : About t w := by
  by_cases ht : w.table = t
  · subst ht
    cases w with
    | insert t r => exact .insert r
    | update t r => exact .update r
    | delete t id => exact .delete id
  · exact .other ht

variable [DecidableEq T]

/-- The row version a write stores in table `t`. -/
def row? (t : T) : Write Row Id → Option (Row t)
  | .insert t' r => if h : t' = t then some (h ▸ r) else none
  | .update t' r => if h : t' = t then some (h ▸ r) else none
  | .delete _ _ => none

@[simp] theorem row?_insert (t : T) (r : Row t) : (insert t r : Write Row Id).row? t = some r := by
  simp [row?]

@[simp] theorem row?_update (t : T) (r : Row t) : (update t r : Write Row Id).row? t = some r := by
  simp [row?]

@[simp] theorem row?_delete (t t' : T) (id : Id) :
    (delete t id : Write Row Id).row? t' = none := rfl

end Write

namespace Schema
variable (S : Schema Row Id)

/-- The row a write is about. -/
def target : Write Row Id → T × Id
  | .insert t r => (t, S.id t r)
  | .update t r => (t, S.id t r)
  | .delete t id => (t, id)

/-- The primary keys that a list of writes introduces. -/
def inserted (ws : List (Write Row Id)) : List (T × Id) :=
  ws.filterMap (fun w => match w with
    | .insert t r => some (t, S.id t r)
    | _ => none)

@[simp] theorem inserted_nil : S.inserted [] = [] := rfl

@[simp] theorem inserted_append (ws vs : List (Write Row Id)) :
    S.inserted (ws ++ vs) = S.inserted ws ++ S.inserted vs := by
  simp [inserted]

@[simp] theorem inserted_insert (t : T) (r : Row t) (ws : List (Write Row Id)) :
    S.inserted (.insert t r :: ws) = (t, S.id t r) :: S.inserted ws := by
  simp [inserted]

@[simp] theorem inserted_update (t : T) (r : Row t) (ws : List (Write Row Id)) :
    S.inserted (.update t r :: ws) = S.inserted ws := by
  simp [inserted]

@[simp] theorem inserted_delete (t : T) (id : Id) (ws : List (Write Row Id)) :
    S.inserted (.delete t id :: ws) = S.inserted ws := by
  simp [inserted]

theorem mem_inserted {ws : List (Write Row Id)} {p : T × Id} :
    p ∈ S.inserted ws ↔ ∃ r, Write.insert p.1 r ∈ ws ∧ S.id p.1 r = p.2 := by
  simp only [inserted, List.mem_filterMap]
  constructor
  · rintro ⟨w, hw, h⟩
    cases w with
    | insert t r =>
      simp only [Option.some.injEq] at h
      subst h
      exact ⟨r, hw, rfl⟩
    | update t r => cases h
    | delete t id => cases h
  · rintro ⟨r, hw, h⟩
    exact ⟨_, hw, by simp [h]⟩

theorem inserted_target {ws : List (Write Row Id)} {p : T × Id} (h : p ∈ S.inserted ws) :
    ∃ w ∈ ws, S.target w = p := by
  obtain ⟨r, hw, hr⟩ := S.mem_inserted.mp h
  exact ⟨_, hw, by simp [target, hr]⟩

theorem inserted_cons (w : Write Row Id) (ws : List (Write Row Id)) :
    S.inserted (w :: ws) = S.inserted [w] ++ S.inserted ws := S.inserted_append [w] ws

/-- The keys that a list of writes introduces are pairwise different and not in use. -/
def NewKeys (ws : List (Write Row Id)) (s : Store Row) : Prop :=
  (S.inserted ws).Nodup ∧ ∀ t x, (t, x) ∈ S.inserted ws → x ∉ (s t).map (S.id t)

variable {S} in
theorem NewKeys.head {t : T} {r : Row t} {ws : List (Write Row Id)} {s : Store Row}
    (h : S.NewKeys (.insert t r :: ws) s) : S.id t r ∉ (s t).map (S.id t) :=
  h.2 t _ (by simp)

variable {S} in
theorem NewKeys.first {w : Write Row Id} {ws : List (Write Row Id)} {s : Store Row}
    (h : S.NewKeys (w :: ws) s) : S.NewKeys [w] s := by
  obtain ⟨hn, hd⟩ := h
  rw [inserted_cons, List.nodup_append'] at hn
  exact ⟨hn.1, fun t x hx => hd t x (by rw [inserted_cons]; exact List.mem_append_left _ hx)⟩

variable [DecidableEq T] [DecidableEq Id]

def apply : Write Row Id → Store Row → Store Row
  | .insert t r, s => Function.update s t (s t ++ [r])
  | .update t r, s =>
      Function.update s t ((s t).map (fun x => if S.id t x = S.id t r then r else x))
  | .delete t id, s => Function.update s t ((s t).filter (fun x => S.id t x ≠ id))

@[simp] theorem apply_insert_self (t : T) (r : Row t) (s : Store Row) :
    S.apply (.insert t r) s t = s t ++ [r] := by simp [apply]

@[simp] theorem apply_update_self (t : T) (r : Row t) (s : Store Row) :
    S.apply (.update t r) s t = (s t).map (fun x => if S.id t x = S.id t r then r else x) := by
  simp [apply]

@[simp] theorem apply_delete_self (t : T) (id : Id) (s : Store Row) :
    S.apply (.delete t id) s t = (s t).filter (fun x => S.id t x ≠ id) := by simp [apply]

theorem apply_other {w : Write Row Id} {t : T} (h : w.table ≠ t) (s : Store Row) :
    S.apply w s t = s t := by
  cases w <;> simp only [Write.table] at h <;> simp [apply, Ne.symm h]

/-- Two versions that the table may not both hold. -/
def clash (w w' : Write Row Id) : Bool :=
  match w with
  | .insert t r => (w'.row? t).any (fun r' => (S.unique t).any (fun u => u r r'))
  | .update t r => (w'.row? t).any (fun r' => (S.unique t).any (fun u => u r r'))
  | .delete _ _ => false

/-- The first write stores a row that references the row the second deletes. -/
def orphans (w w' : Write Row Id) : Bool :=
  match w' with
  | .delete t id => S.foreignKeys.any (fun fk =>
      (w.row? fk.child).any (fun r => decide (fk.parent = t ∧ fk.column r = some id)))
  | _ => false

def conflict (w w' : Write Row Id) : Bool :=
  decide (S.target w = S.target w') || (S.clash w w' || S.clash w' w) ||
    (S.orphans w w' || S.orphans w' w)

theorem conflict_symm (w w' : Write Row Id) : S.conflict w w' = S.conflict w' w := by
  simp only [conflict]
  rw [Bool.or_comm (S.clash w w'), Bool.or_comm (S.orphans w w'),
    decide_eq_decide.mpr (eq_comm : S.target w = S.target w' ↔ _)]

/-- The machine over this schema, for inputs that stay fresh in the sense given. -/
def engine {ι : Type} (fresh : List ι → ι → Bool) : Engine ι (Store Row) (Write Row Id) where
  apply := S.apply
  conflict := S.conflict
  fresh := fresh
  conflict_symm := S.conflict_symm

@[simp] theorem engine_fresh {ι : Type} (fresh : List ι → ι → Bool) :
    (S.engine fresh).fresh = fresh := rfl

/-- The store under a list of row writes. -/
def view (ws : List (Write Row Id)) (s : Store Row) : Store Row :=
  ws.foldl (fun s w => S.apply w s) s

@[simp] theorem engine_view {ι : Type} (fresh : List ι → ι → Bool) (ws : List (Write Row Id))
    (s : Store Row) : (S.engine fresh).view ws s = S.view ws s := rfl

@[simp] theorem view_nil (s : Store Row) : S.view [] s = s := rfl

@[simp] theorem view_cons (w : Write Row Id) (ws : List (Write Row Id)) (s : Store Row) :
    S.view (w :: ws) s = S.view ws (S.apply w s) := rfl

@[simp] theorem view_append (ws vs : List (Write Row Id)) (s : Store Row) :
    S.view (ws ++ vs) s = S.view vs (S.view ws s) := List.foldl_append

/-- A table no write is about stays as it is. -/
theorem view_untouched {ws : List (Write Row Id)} {t : T} (h : ∀ w ∈ ws, w.table ≠ t)
    (s : Store Row) : S.view ws s t = s t := by
  induction ws generalizing s with
  | nil => rfl
  | cons w ws ih =>
    rw [view_cons, ih (fun v hv => h v (List.mem_cons_of_mem _ hv)),
      S.apply_other (h w List.mem_cons_self)]

omit [DecidableEq T] in
theorem map_id_replace (t : T) (r : Row t) (rows : List (Row t)) :
    (rows.map (fun x => if S.id t x = S.id t r then r else x)).map (S.id t) =
      rows.map (S.id t) := by
  rw [List.map_map]
  apply List.map_congr_left
  intro x _
  by_cases h : S.id t x = S.id t r <;> simp [h]

/-- A key in use after one write was in use before, or the write introduced it. -/
theorem id_mem_apply {w : Write Row Id} {s : Store Row} {t : T} {x : Id}
    (h : x ∈ (S.apply w s t).map (S.id t)) :
    x ∈ (s t).map (S.id t) ∨ (t, x) ∈ S.inserted [w] := by
  cases w.about t with
  | insert r =>
    simp only [apply_insert_self, List.map_append, List.map_cons, List.map_nil, List.mem_append,
      List.mem_singleton] at h
    exact h.imp_right (by rintro rfl; simp)
  | update r =>
    rw [apply_update_self, map_id_replace] at h
    exact Or.inl h
  | delete id =>
    rw [apply_delete_self] at h
    obtain ⟨r, hr, rfl⟩ := List.mem_map.mp h
    exact Or.inl (List.mem_map_of_mem (List.mem_of_mem_filter hr))
  | other ht =>
    rw [S.apply_other ht] at h
    exact Or.inl h

/-- A row under a list of writes carries the key of an old row or a new key. -/
theorem id_mem_view {ws : List (Write Row Id)} {s : Store Row} {t : T} {x : Id}
    (h : x ∈ (S.view ws s t).map (S.id t)) :
    x ∈ (s t).map (S.id t) ∨ (t, x) ∈ S.inserted ws := by
  induction ws generalizing s with
  | nil => exact Or.inl h
  | cons w ws ih =>
    rw [inserted_cons, List.mem_append]
    rcases ih h with hold | hnew
    · exact (S.id_mem_apply hold).imp_right Or.inl
    · exact Or.inr (Or.inr hnew)

variable {S}

theorem NewKeys.tail {w : Write Row Id} {ws : List (Write Row Id)} {s : Store Row}
    (h : S.NewKeys (w :: ws) s) : S.NewKeys ws (S.apply w s) := by
  obtain ⟨hn, hd⟩ := h
  rw [inserted_cons, List.nodup_append'] at hn
  refine ⟨hn.2.1, fun t x hx hmem => ?_⟩
  rcases S.id_mem_apply hmem with hold | hnew
  · exact hd t x (by rw [inserted_cons]; exact List.mem_append_right _ hx) hold
  · exact hn.2.2 hnew hx

theorem nodup_apply {w : Write Row Id} {s : Store Row} (hs : ∀ t, ((s t).map (S.id t)).Nodup)
    (h : S.NewKeys [w] s) (t : T) : ((S.apply w s t).map (S.id t)).Nodup := by
  cases w.about t with
  | insert r =>
    rw [apply_insert_self, List.map_append]
    exact (hs t).append (List.nodup_singleton _) (by simpa using h.head)
  | update r =>
    rw [apply_update_self, map_id_replace]
    exact hs t
  | delete id =>
    rw [apply_delete_self]
    exact (hs t).sublist (List.filter_sublist.map _)
  | other ht =>
    rw [S.apply_other ht]
    exact hs t

/-- Writes that introduce new keys keep the primary keys. -/
theorem nodup_view {ws : List (Write Row Id)} {s : Store Row}
    (hs : ∀ t, ((s t).map (S.id t)).Nodup) (h : S.NewKeys ws s) (t : T) :
    ((S.view ws s t).map (S.id t)).Nodup := by
  induction ws generalizing s with
  | nil => exact hs t
  | cons w ws ih => exact ih (nodup_apply hs h.first) h.tail

end Schema

end EnvVault.Relational
