import Mathlib.Algebra.Order.BigOperators.Group.List
import Mathlib.Algebra.Order.Ring.Nat
import EnvVault.LawfulRuns

/-!
# Referential actions of a DELETE

The AFTER ROW referential triggers of one statement run from a single first-in
first-out queue. A deleted row enqueues one event for each foreign key that
references its table, in the order the foreign keys were created; a cascaded
deletion appends its own events at the tail, and a NO ACTION check looks at the
rows there are when its event is dequeued.
-/
namespace EnvVault.Relational
open EnvVault.Transactions

variable {T : Type} [DecidableEq T] {Row : T → Type} {Id : Type} [DecidableEq Id]

/-- Why a DELETE fails: a row of `child` still references the parent, or a row
of an append-only table would have to change. -/
inductive ReferentialError (T : Type) : Type
  | violated (child : T)
  | rejected (child : T)
  | exhausted
deriving DecidableEq

structure Event (Row : T → Type) (Id : Type) where
  fk : ForeignKey Row Id
  parentId : Id

/-- The rows that reference the parent of an event. -/
def Event.children (ev : Event Row Id) (s : Store Row) : List (Row ev.fk.child) :=
  (s ev.fk.child).filter (fun r => ev.fk.column r = some ev.parentId)

omit [DecidableEq T] in
theorem Event.mem_children {ev : Event Row Id} {s : Store Row} {r : Row ev.fk.child} :
    r ∈ ev.children s ↔ r ∈ s ev.fk.child ∧ ev.fk.column r = some ev.parentId := by
  simp [children]

/-- Two predicates that no element of a list satisfies at once split it. -/
theorem length_filter_add_le {α : Type} (p q : α → Bool) (l : List α)
    (h : ∀ a ∈ l, q a = true → p a = false) :
    (l.filter p).length + (l.filter q).length ≤ l.length := by
  induction l with
  | nil => simp
  | cons a l ih =>
    have ih := ih (fun b hb => h b (List.mem_cons_of_mem _ hb))
    have ha := h a List.mem_cons_self
    cases hq : q a with
    | false => cases hp : p a <;> simp [hp, hq] <;> omega
    | true =>
      simp [ha hq, hq]
      omega

theorem length_flatMap_le {α β : Type} {f : α → List β} {b : ℕ} (l : List α)
    (h : ∀ a, (f a).length ≤ b) : (l.flatMap f).length ≤ b * l.length := by
  induction l with
  | nil => simp
  | cons a l ih =>
    have := h a
    rw [List.flatMap_cons, List.length_append, List.length_cons, mul_add]
    omega

namespace Schema
variable (S : Schema Row Id)

/-- The events of one deleted row, in the order the foreign keys were created. -/
def events (t : T) (x : Id) : List (Event Row Id) :=
  (S.foreignKeys.filter (fun fk => fk.parent = t)).map (fun fk => ⟨fk, x⟩)

/-- One event: the row writes of its action and the events these enqueue. -/
def fire (ev : Event Row Id) (s : Store Row) :
    Except (ReferentialError T) (List (Write Row Id) × List (Event Row Id)) :=
  let rows := ev.children s
  if rows = [] then .ok ([], [])
  else match ev.fk.onDelete with
    | .noAction => .error (.violated ev.fk.child)
    | .cascade =>
      if S.appendOnly ev.fk.child then .error (.rejected ev.fk.child)
      else .ok (rows.map (fun r => .delete ev.fk.child (S.id _ r)),
        rows.flatMap (fun r => S.events ev.fk.child (S.id _ r)))
    | .setNull clear =>
      if S.appendOnly ev.fk.child then .error (.rejected ev.fk.child)
      else .ok (rows.map (fun r => .update ev.fk.child (clear r)), [])

/-- The queue, head first. -/
def drain : ℕ → Store Row → List (Event Row Id) →
    Except (ReferentialError T) (List (Write Row Id))
  | _, _, [] => .ok []
  | 0, _, _ :: _ => .error .exhausted
  | k + 1, s, ev :: queue =>
    match S.fire ev s with
    | .error e => .error e
    | .ok (ws, evs) => (drain k (S.view ws s) (queue ++ evs)).map (fun vs => ws ++ vs)

/-- The rows that a foreign key could still delete. -/
def cascadable (s : Store Row) : ℕ := (S.foreignKeys.map (fun fk => (s fk.child).length)).sum

/-- An upper bound of the events that a queue still gives rise to. -/
def fuel (s : Store Row) (queue : List (Event Row Id)) : ℕ :=
  queue.length + S.foreignKeys.length * S.cascadable s

/-- DELETE of one row by its key with all its referential actions. -/
def deleteRow (t : T) (x : Id) (s : Store Row) :
    Except (ReferentialError T) (List (Write Row Id)) :=
  if (s t).all (fun r => S.id t r ≠ x) then .ok []
  else if S.appendOnly t then .error (.rejected t)
  else
    let s' := S.apply (.delete t x) s
    (S.drain (S.fuel s' (S.events t x)) s' (S.events t x)).map (fun ws => .delete t x :: ws)

/-- SET NULL changes nothing but the referencing column. -/
structure ClearOk (fk : ForeignKey Row Id) (clear : Row fk.child → Row fk.child) : Prop where
  id : ∀ r, S.id _ (clear r) = S.id _ r
  column : ∀ r, fk.column (clear r) = none
  unique : ∀ u ∈ S.unique fk.child, ∀ a b, u (clear a) b = u a b ∧ u a (clear b) = u a b
  others : ∀ fk' ∈ S.foreignKeys, ∀ r x, fk'.ref fk.child (clear r) = some x →
    fk'.ref fk.child r = some x

def ClearsOk : Prop :=
  ∀ fk ∈ S.foreignKeys, ∀ clear, fk.onDelete = .setNull clear → S.ClearOk fk clear

variable {S}

omit [DecidableEq Id] in
theorem mem_events {t : T} {x : Id} {ev : Event Row Id} :
    ev ∈ S.events t x ↔ ev.fk ∈ S.foreignKeys ∧ ev.fk.parent = t ∧ ev.parentId = x := by
  simp only [events, List.mem_map, List.mem_filter, decide_eq_true_eq]
  constructor
  · rintro ⟨fk, ⟨hfk, hp⟩, rfl⟩
    exact ⟨hfk, hp, rfl⟩
  · rintro ⟨hfk, hp, rfl⟩
    exact ⟨ev.fk, ⟨hfk, hp⟩, rfl⟩

/-- What one event can do. -/
inductive Fired (S : Schema Row Id) (ev : Event Row Id) (s : Store Row) :
    List (Write Row Id) → List (Event Row Id) → Prop
  | none (h : ev.children s = []) : Fired S ev s [] []
  | cascade (h : ev.fk.onDelete = .cascade) : Fired S ev s
      ((ev.children s).map (fun r => .delete ev.fk.child (S.id _ r)))
      ((ev.children s).flatMap (fun r => S.events ev.fk.child (S.id _ r)))
  | setNull (clear : Row ev.fk.child → Row ev.fk.child) (h : ev.fk.onDelete = .setNull clear) :
      Fired S ev s ((ev.children s).map (fun r => .update ev.fk.child (clear r))) []

theorem fire_cases {ev : Event Row Id} {s : Store Row} {ws : List (Write Row Id)}
    {evs : List (Event Row Id)} (h : S.fire ev s = .ok (ws, evs)) : Fired S ev s ws evs := by
  simp only [fire] at h
  split at h
  · rename_i hc
    simp only [Except.ok.injEq, Prod.mk.injEq] at h
    obtain ⟨rfl, rfl⟩ := h
    exact .none hc
  · split at h
    · cases h
    · rename_i hd
      split at h
      · cases h
      · simp only [Except.ok.injEq, Prod.mk.injEq] at h
        obtain ⟨rfl, rfl⟩ := h
        exact .cascade hd
    · rename_i clear hd
      split at h
      · cases h
      · simp only [Except.ok.injEq, Prod.mk.injEq] at h
        obtain ⟨rfl, rfl⟩ := h
        exact .setNull clear hd

theorem view_deletes (t : T) (xs : List Id) (s : Store Row) :
    S.view (xs.map (fun x => .delete t x)) s t = (s t).filter (fun r => S.id t r ∉ xs) := by
  induction xs generalizing s with
  | nil => simp
  | cons x xs ih =>
    rw [List.map_cons, view_cons, ih, apply_delete_self, List.filter_filter]
    congr 1
    funext r
    simp [Bool.and_comm]

theorem view_updates_length (t : T) (rows : List (Row t)) (s : Store Row) :
    (S.view (rows.map (fun r => .update t r)) s t).length = (s t).length := by
  induction rows generalizing s with
  | nil => rfl
  | cons r rows ih => rw [List.map_cons, view_cons, ih, apply_update_self, List.length_map]

/-- The effect of one event on the tables. -/
theorem Fired.length_le {ev : Event Row Id} {s : Store Row} {ws : List (Write Row Id)}
    {evs : List (Event Row Id)} (h : Fired S ev s ws evs) (t : T) :
    (S.view ws s t).length ≤ (s t).length := by
  cases h with
  | none h => exact le_refl _
  | cascade h =>
    by_cases ht : ev.fk.child = t
    · subst ht
      rw [show (fun r => Write.delete ev.fk.child (S.id _ r)) =
        (fun x => Write.delete ev.fk.child x) ∘ S.id ev.fk.child from rfl, ← List.map_map,
        view_deletes]
      exact List.length_filter_le _ _
    · rw [view_untouched _ (fun w hw => ?_)]
      obtain ⟨r, -, rfl⟩ := List.mem_map.mp hw
      exact ht
  | setNull clear h =>
    by_cases ht : ev.fk.child = t
    · subst ht
      rw [show (fun r => Write.update ev.fk.child (clear r)) =
        (fun r => Write.update ev.fk.child r) ∘ clear from rfl, ← List.map_map,
        view_updates_length]
    · rw [view_untouched _ (fun w hw => ?_)]
      obtain ⟨r, -, rfl⟩ := List.mem_map.mp hw
      exact ht

omit [DecidableEq T] [DecidableEq Id] in
theorem cascadable_le {s s' : Store Row} (h : ∀ t, (s' t).length ≤ (s t).length) :
    S.cascadable s' ≤ S.cascadable s :=
  List.sum_le_sum (fun fk _ => h fk.child)

omit [DecidableEq T] [DecidableEq Id] in
/-- Rows deleted from the child table of a foreign key lower the bound. -/
theorem cascadable_add_le {s s' : Store Row} (h : ∀ t, (s' t).length ≤ (s t).length)
    {fk : ForeignKey Row Id} (hfk : fk ∈ S.foreignKeys) {c : ℕ}
    (hc : (s' fk.child).length + c ≤ (s fk.child).length) :
    S.cascadable s' + c ≤ S.cascadable s := by
  simp only [cascadable]
  generalize S.foreignKeys = fks at hfk
  induction fks with
  | nil => cases hfk
  | cons fk' fks ih =>
    simp only [List.map_cons, List.sum_cons]
    have hle := List.sum_le_sum (l := fks) (fun fk _ => h fk.child)
    rcases List.mem_cons.mp hfk with rfl | hfk
    · omega
    · have := ih hfk
      have := h fk'.child
      omega

omit [DecidableEq Id] in
theorem length_events_le (t : T) (x : Id) : (S.events t x).length ≤ S.foreignKeys.length := by
  simp only [events, List.length_map]
  exact List.length_filter_le _ _

/-- Every event that fires leaves less to do. -/
theorem Fired.fuel_lt {ev : Event Row Id} {s : Store Row} {ws : List (Write Row Id)}
    {evs : List (Event Row Id)} (h : Fired S ev s ws evs) (queue : List (Event Row Id))
    (hfk : ev.fk ∈ S.foreignKeys) :
    S.fuel (S.view ws s) (queue ++ evs) < S.fuel s (ev :: queue) := by
  have hlen := h.length_le
  have hle := Nat.mul_le_mul_left S.foreignKeys.length (cascadable_le (S := S) hlen)
  simp only [fuel, List.length_append, List.length_cons]
  cases h with
  | none h => simp
  | setNull clear h =>
    simp only [List.length_nil]
    omega
  | cascade h =>
    have hdel : (S.view ((ev.children s).map (fun r => .delete ev.fk.child (S.id _ r))) s
        ev.fk.child).length + (ev.children s).length ≤ (s ev.fk.child).length := by
      rw [show (fun r => Write.delete ev.fk.child (S.id _ r)) =
        (fun x => Write.delete ev.fk.child x) ∘ S.id ev.fk.child from rfl, ← List.map_map,
        view_deletes]
      refine length_filter_add_le _ _ _ (fun r hr hcol => ?_)
      simp only [decide_eq_false_iff_not, not_not]
      exact List.mem_map_of_mem (Event.mem_children.mpr ⟨hr, by simpa using hcol⟩)
    have hsum := cascadable_add_le hlen hfk hdel
    have hevs : ((ev.children s).flatMap (fun r => S.events ev.fk.child (S.id _ r))).length ≤
        S.foreignKeys.length * (ev.children s).length :=
      length_flatMap_le _ (fun r => length_events_le _ _)
    have := Nat.mul_le_mul_left S.foreignKeys.length hsum
    rw [mul_add] at this
    omega

theorem Fired.events_mem {ev : Event Row Id} {s : Store Row} {ws : List (Write Row Id)}
    {evs : List (Event Row Id)} (h : Fired S ev s ws evs) : ∀ e ∈ evs, e.fk ∈ S.foreignKeys := by
  cases h with
  | none h => simp
  | setNull clear h => simp
  | cascade h =>
    intro e he
    obtain ⟨r, -, he⟩ := List.mem_flatMap.mp he
    exact (mem_events.mp he).1

/-- Any two sufficient amounts of fuel give the same result. -/
theorem drain_fuel {s : Store Row} {queue : List (Event Row Id)} {j k : ℕ}
    (hq : ∀ e ∈ queue, e.fk ∈ S.foreignKeys) (hj : S.fuel s queue ≤ j) (hk : S.fuel s queue ≤ k) :
    S.drain j s queue = S.drain k s queue := by
  induction j generalizing s queue k with
  | zero =>
    have : queue = [] := by
      simp only [fuel] at hj
      exact List.length_eq_zero_iff.mp (by omega)
    subst this
    cases k <;> rfl
  | succ j ih =>
    cases queue with
    | nil => cases k <;> rfl
    | cons ev queue =>
      cases k with
      | zero => simp [fuel] at hk
      | succ k =>
        simp only [drain]
        cases hf : S.fire ev s with
        | error e => rfl
        | ok r =>
          obtain ⟨ws, evs⟩ := r
          have hfired := fire_cases hf
          have hlt := hfired.fuel_lt queue (hq ev List.mem_cons_self)
          dsimp only
          rw [ih _ (by omega) (by omega : _ ≤ k)]
          intro e he
          rcases List.mem_append.mp he with he | he
          · exact hq e (List.mem_cons_of_mem _ he)
          · exact hfired.events_mem e he

/-- With sufficient fuel the queue is emptied or a rule refuses. -/
theorem drain_ne_exhausted {s : Store Row} {queue : List (Event Row Id)} {k : ℕ}
    (hq : ∀ e ∈ queue, e.fk ∈ S.foreignKeys) (hk : S.fuel s queue ≤ k) :
    S.drain k s queue ≠ .error .exhausted := by
  induction k generalizing s queue with
  | zero =>
    have : queue = [] := by
      simp only [fuel] at hk
      exact List.length_eq_zero_iff.mp (by omega)
    subst this
    simp [drain]
  | succ k ih =>
    cases queue with
    | nil => simp [drain]
    | cons ev queue =>
      simp only [drain]
      cases hf : S.fire ev s with
      | error e =>
        rintro he
        simp only [Except.error.injEq] at he
        subst he
        simp only [fire] at hf
        split at hf
        · cases hf
        · split at hf
          · cases hf
          · split at hf <;> cases hf
          · split at hf <;> cases hf
      | ok r =>
        obtain ⟨ws, evs⟩ := r
        have hfired := fire_cases hf
        have hlt := hfired.fuel_lt queue (hq ev List.mem_cons_self)
        have hrest : S.drain k (S.view ws s) (queue ++ evs) ≠ .error .exhausted :=
          ih ?_ (by omega)
        · dsimp only
          cases hd : S.drain k (S.view ws s) (queue ++ evs) with
          | ok vs => simp [Except.map]
          | error e =>
            intro he
            simp only [Except.map, Except.error.injEq] at he
            exact hrest (he ▸ hd)
        · intro e he
          rcases List.mem_append.mp he with he | he
          · exact hq e (List.mem_cons_of_mem _ he)
          · exact hfired.events_mem e he

theorem Fired.inserted {ev : Event Row Id} {s : Store Row} {ws : List (Write Row Id)}
    {evs : List (Event Row Id)} (h : Fired S ev s ws evs) : S.inserted ws = [] := by
  cases h with
  | none h => rfl
  | cascade h => simp [Schema.inserted]
  | setNull clear h => simp [Schema.inserted]

omit [DecidableEq T] [DecidableEq Id] in
theorem newKeys_of_inserted {ws : List (Write Row Id)} (h : S.inserted ws = []) (s : Store Row) :
    S.NewKeys ws s := by simp [NewKeys, h]

/-- A store in order but for references that a queued event will deal with. -/
structure Dangling (S : Schema Row Id) (s : Store Row) (queue : List (Event Row Id)) : Prop where
  keys : ∀ t, ((s t).map (S.id t)).Nodup
  unique : ∀ t, ∀ u ∈ S.unique t, ∀ a ∈ s t, ∀ b ∈ s t, S.id t a ≠ S.id t b → u a b = false
  references : ∀ fk ∈ S.foreignKeys, fk.deferred = false → ∀ a ∈ s fk.child, ∀ x,
    fk.column a = some x → (∃ p ∈ s fk.parent, S.id fk.parent p = x) ∨ ⟨fk, x⟩ ∈ queue

omit [DecidableEq T] in
theorem mem_cast {s : Store Row} {t t' : T} (h : t = t') {r : Row t} (hr : r ∈ s t) :
    h ▸ r ∈ s t' := by
  subst h
  exact hr

/-- A row after an event is a row before it, or a child whose reference was
cleared; a row that still references the parent of the event is neither. -/
theorem Fired.mem_cases {ev : Event Row Id} {s : Store Row} {ws : List (Write Row Id)}
    {evs : List (Event Row Id)} (h : Fired S ev s ws evs) {t : T} {a : Row t}
    (ha : a ∈ S.view ws s t) :
    (a ∈ s t ∧ ¬ S.Touches ws t (S.id t a)) ∨
      ∃ (ht : ev.fk.child = t) (clear : Row ev.fk.child → Row ev.fk.child),
        ev.fk.onDelete = .setNull clear ∧ ∃ c ∈ ev.children s, a = ht ▸ clear c := by
  rcases mem_view_cases (newKeys_of_inserted h.inserted s) ha with hold | ⟨w, hw, hwa⟩
  · exact Or.inl hold
  · right
    cases h with
    | none h => cases hw
    | cascade h =>
      obtain ⟨r, -, rfl⟩ := List.mem_map.mp hw
      cases hwa
    | setNull clear h =>
      obtain ⟨c, hc, rfl⟩ := List.mem_map.mp hw
      by_cases ht : ev.fk.child = t
      · subst ht
        exact ⟨rfl, clear, h, c, hc, by simpa using hwa.symm⟩
      · simp [Write.row?, ht] at hwa

/-- A key that an event deletes has its own events queued. -/
theorem Fired.key_cases {ev : Event Row Id} {s : Store Row} {ws : List (Write Row Id)}
    {evs : List (Event Row Id)} (h : Fired S ev s ws evs) {fk : ForeignKey Row Id}
    (hfk : fk ∈ S.foreignKeys) {x : Id} (hp : ∃ p ∈ s fk.parent, S.id fk.parent p = x) :
    (∃ p ∈ S.view ws s fk.parent, S.id fk.parent p = x) ∨ ⟨fk, x⟩ ∈ evs := by
  by_cases hdel : Write.delete fk.parent x ∈ ws
  · right
    cases h with
    | none h => cases hdel
    | setNull clear h =>
      obtain ⟨r, -, hr⟩ := List.mem_map.mp hdel
      cases hr
    | cascade h =>
      obtain ⟨r, hr, heq⟩ := List.mem_map.mp hdel
      simp only [Write.delete.injEq] at heq
      exact List.mem_flatMap.mpr ⟨r, hr, mem_events.mpr ⟨hfk, heq.1.symm, heq.2.symm⟩⟩
  · exact Or.inl (id_persists hdel hp)

/-- One event keeps every other reference in order or queued. -/
theorem Dangling.fire (hS : S.ClearsOk) {ev : Event Row Id} {s : Store Row}
    {queue : List (Event Row Id)} (hd : S.Dangling s (ev :: queue)) (hev : ev.fk ∈ S.foreignKeys)
    {ws : List (Write Row Id)} {evs : List (Event Row Id)} (h : Fired S ev s ws evs) :
    S.Dangling (S.view ws s) (queue ++ evs) where
  keys := nodup_view hd.keys (newKeys_of_inserted h.inserted s)
  unique t u hu a ha b hb hab := by
    rcases h.mem_cases ha with ⟨ha, -⟩ | ⟨rfl, clear, hc, a', ha', rfl⟩ <;>
      rcases h.mem_cases hb with ⟨hb, -⟩ | ⟨ht, clear', hc', b', hb', rfl⟩
    · exact hd.unique t u hu a ha b hb hab
    · subst ht
      have hok := hS ev.fk hev clear' hc'
      rw [(hok.unique u hu a b').2]
      exact hd.unique _ u hu a ha b' (Event.mem_children.mp hb').1 (by rwa [← hok.id b'])
    · have hok := hS ev.fk hev clear hc
      rw [(hok.unique u hu a' b).1]
      exact hd.unique _ u hu a' (Event.mem_children.mp ha').1 b hb (by rwa [← hok.id a'])
    · have hok := hS ev.fk hev clear hc
      have hok' := hS ev.fk hev clear' hc'
      rw [(hok.unique u hu a' _).1, (hok'.unique u hu a' b').2]
      exact hd.unique _ u hu a' (Event.mem_children.mp ha').1 b' (Event.mem_children.mp hb').1
        (by rw [← hok.id a', ← hok'.id b']; exact hab)
  references fk hfk hdef a ha x hx := by
    -- the row that referenced `x` before the event
    have hold : ∃ a' ∈ s fk.child, fk.column a' = some x ∧ (fk = ev.fk → x ≠ ev.parentId) := by
      rcases h.mem_cases ha with ⟨ha, hnot⟩ | ⟨ht, clear, hc, c, hcm, rfl⟩
      · refine ⟨a, ha, hx, ?_⟩
        rintro rfl rfl
        have hchild : a ∈ ev.children s := Event.mem_children.mpr ⟨ha, hx⟩
        cases h with
        | none h => simp [h] at hchild
        | cascade h => exact hnot ⟨_, List.mem_map_of_mem hchild, rfl⟩
        | setNull clear h =>
          refine hnot ⟨_, List.mem_map_of_mem hchild, ?_⟩
          simp [target, (hS ev.fk hev clear h).id a]
      · have hok := hS ev.fk hev clear hc
        have href : fk.ref ev.fk.child (clear c) = some x := by
          simp only [ForeignKey.ref, ht.symm, dif_pos]
          exact hx
        have hrefc := hok.others fk hfk c x href
        simp only [ForeignKey.ref, ht.symm, dif_pos] at hrefc
        refine ⟨ht ▸ c, ?_, hrefc, ?_⟩
        · exact mem_cast ht (Event.mem_children.mp hcm).1
        · rintro rfl
          have := hok.column c
          simp [this] at href
    obtain ⟨a', ha', hx', hne⟩ := hold
    rcases hd.references fk hfk hdef a' ha' x hx' with hp | hq
    · exact (h.key_cases hfk hp).imp_right (List.mem_append_right _)
    · rcases List.mem_cons.mp hq with heq | hq
      · cases heq
        exact absurd rfl (hne rfl)
      · exact Or.inr (List.mem_append_left _ hq)

/-- What a queue that empties has done: its first event fired, and the rest of the
queue with the new events at its tail emptied. -/
theorem drain_cons_ok {k : ℕ} {s : Store Row} {ev : Event Row Id} {queue : List (Event Row Id)}
    {ws : List (Write Row Id)} (h : S.drain k s (ev :: queue) = .ok ws) :
    ∃ j us evs vs, k = j + 1 ∧ S.fire ev s = .ok (us, evs) ∧
      S.drain j (S.view us s) (queue ++ evs) = .ok vs ∧ ws = us ++ vs := by
  cases k with
  | zero => cases h
  | succ j =>
    simp only [drain] at h
    cases hf : S.fire ev s with
    | error e => rw [hf] at h; cases h
    | ok r =>
      obtain ⟨us, evs⟩ := r
      rw [hf] at h
      cases hr : S.drain j (S.view us s) (queue ++ evs) with
      | error e => simp [hr, Except.map] at h
      | ok vs =>
        simp only [hr, Except.map, Except.ok.injEq] at h
        exact ⟨j, us, evs, vs, rfl, rfl, hr, h.symm⟩

theorem drain_nil_ok {k : ℕ} {s : Store Row} {ws : List (Write Row Id)}
    (h : S.drain k s [] = .ok ws) : ws = [] := by
  cases k <;> simpa [drain] using h.symm

theorem drain_inserted {k : ℕ} {s : Store Row} {queue : List (Event Row Id)}
    {ws : List (Write Row Id)} (h : S.drain k s queue = .ok ws) : S.inserted ws = [] := by
  induction k generalizing s queue ws with
  | zero =>
    cases queue with
    | nil => rw [drain_nil_ok h]; rfl
    | cons ev queue => cases h
  | succ k ih =>
    cases queue with
    | nil => rw [drain_nil_ok h]; rfl
    | cons ev queue =>
      obtain ⟨j, us, evs, vs, hj, hfire, hr, rfl⟩ := drain_cons_ok h
      obtain rfl : k = j := by omega
      rw [inserted_append, (fire_cases hfire).inserted, ih hr]
      rfl

theorem Dangling.drain (hS : S.ClearsOk) {k : ℕ} {s : Store Row} {queue : List (Event Row Id)}
    (hd : S.Dangling s queue) (hq : ∀ e ∈ queue, e.fk ∈ S.foreignKeys) {ws : List (Write Row Id)}
    (h : S.drain k s queue = .ok ws) : S.Dangling (S.view ws s) [] := by
  induction k generalizing s queue ws with
  | zero =>
    cases queue with
    | nil => rw [drain_nil_ok h]; exact hd
    | cons ev queue => cases h
  | succ k ih =>
    cases queue with
    | nil => rw [drain_nil_ok h]; exact hd
    | cons ev queue =>
      obtain ⟨j, us, evs, vs, hj, hfire, hr, rfl⟩ := drain_cons_ok h
      obtain rfl : k = j := by omega
      have hfired := fire_cases hfire
      rw [view_append]
      refine ih (hd.fire hS (hq ev List.mem_cons_self) hfired) (fun e he => ?_) hr
      rcases List.mem_append.mp he with he | he
      · exact hq e (List.mem_cons_of_mem _ he)
      · exact hfired.events_mem e he

/-- What a DELETE that succeeds has done: it found no row, or it deleted the row
and emptied the queue of its events. -/
theorem deleteRow_ok {t : T} {x : Id} {s : Store Row} {ws : List (Write Row Id)}
    (h : S.deleteRow t x s = .ok ws) : ws = [] ∨ ∃ k vs, ws = .delete t x :: vs ∧
      S.drain k (S.apply (.delete t x) s) (S.events t x) = .ok vs := by
  simp only [deleteRow] at h
  split at h
  · simp only [Except.ok.injEq] at h
    exact Or.inl h.symm
  · split at h
    · cases h
    · cases hr : S.drain (S.fuel (S.apply (.delete t x) s) (S.events t x))
        (S.apply (.delete t x) s) (S.events t x) with
      | error e => simp [hr, Except.map] at h
      | ok vs =>
        simp only [hr, Except.map, Except.ok.injEq] at h
        exact Or.inr ⟨_, vs, h.symm, hr⟩

/-- The actions of one event leave append-only tables alone. -/
theorem fire_appendOnly {ev : Event Row Id} {s : Store Row} {ws : List (Write Row Id)}
    {evs : List (Event Row Id)} (h : S.fire ev s = .ok (ws, evs)) :
    ∀ w ∈ ws, S.appendOnly w.table = false := by
  intro w hw
  simp only [fire] at h
  split at h
  · simp only [Except.ok.injEq, Prod.mk.injEq] at h
    rw [← h.1] at hw
    cases hw
  · split at h
    · cases h
    · split at h
      · cases h
      · rename_i happ
        simp only [Except.ok.injEq, Prod.mk.injEq] at h
        rw [← h.1] at hw
        obtain ⟨r, -, rfl⟩ := List.mem_map.mp hw
        simpa [Write.table] using happ
    · split at h
      · cases h
      · rename_i happ
        simp only [Except.ok.injEq, Prod.mk.injEq] at h
        rw [← h.1] at hw
        obtain ⟨r, -, rfl⟩ := List.mem_map.mp hw
        simpa [Write.table] using happ

theorem drain_appendOnly {k : ℕ} {s : Store Row} {queue : List (Event Row Id)}
    {ws : List (Write Row Id)} (h : S.drain k s queue = .ok ws) :
    ∀ w ∈ ws, S.appendOnly w.table = false := by
  induction k generalizing s queue ws with
  | zero =>
    cases queue with
    | nil => simp [drain_nil_ok h]
    | cons ev queue => cases h
  | succ k ih =>
    cases queue with
    | nil => simp [drain_nil_ok h]
    | cons ev queue =>
      obtain ⟨j, us, evs, vs, hj, hfire, hr, rfl⟩ := drain_cons_ok h
      obtain rfl : k = j := by omega
      intro w hw
      rcases List.mem_append.mp hw with hw | hw
      · exact fire_appendOnly hfire w hw
      · exact ih hr w hw

/-- A DELETE that succeeds has written to no append-only table. -/
theorem deleteRow_appendOnly {t : T} {x : Id} {s : Store Row} {ws : List (Write Row Id)}
    (h : S.deleteRow t x s = .ok ws) : ∀ w ∈ ws, S.appendOnly w.table = false := by
  intro w hw
  have hopen : ws ≠ [] → S.appendOnly t = false := by
    intro hne
    simp only [deleteRow] at h
    split at h
    · simp only [Except.ok.injEq] at h
      exact absurd h.symm hne
    · split at h
      · cases h
      · rename_i happ
        simpa using happ
  rcases deleteRow_ok h with rfl | ⟨k, vs, rfl, hr⟩
  · cases hw
  · rcases List.mem_cons.mp hw with rfl | hw
    · exact hopen (by simp)
    · exact drain_appendOnly hr w hw

theorem deleteRow_inserted {t : T} {x : Id} {s : Store Row} {ws : List (Write Row Id)}
    (h : S.deleteRow t x s = .ok ws) : S.inserted ws = [] := by
  rcases deleteRow_ok h with rfl | ⟨k, vs, rfl, hr⟩
  · rfl
  · rw [inserted_delete, drain_inserted hr]

/-- A DELETE that succeeds leaves a valid store valid. -/
theorem Valid.deleteRow (hS : S.ClearsOk) {s : Store Row} (hs : S.Valid s) {t : T} {x : Id}
    {ws : List (Write Row Id)} (h : S.deleteRow t x s = .ok ws) : S.Valid (S.view ws s) := by
  rcases deleteRow_ok h with rfl | ⟨k, vs, rfl, hr⟩
  · exact hs
  · have hmem : ∀ t', ∀ r ∈ S.apply (.delete t x) s t', r ∈ s t' := by
      intro t' r hr
      by_cases ht : t = t'
      · subst ht
        exact (mem_apply_delete.mp hr).1
      · rwa [S.apply_other (w := .delete t x) ht] at hr
    have hd : S.Dangling (S.apply (.delete t x) s) (S.events t x) := by
      refine ⟨fun t' => nodup_apply hs.keys (newKeys_of_inserted rfl s) t',
        fun t' u hu a ha b hb => hs.unique t' u hu a (hmem t' a ha) b (hmem t' b hb),
        fun fk hfk hdef a ha y hy => ?_⟩
      obtain ⟨p, hp, hpy⟩ := hs.references fk hfk hdef a (hmem _ a ha) y hy
      by_cases hpx : fk.parent = t ∧ y = x
      · exact Or.inr (mem_events.mpr ⟨hfk, hpx.1, hpx.2⟩)
      · left
        change ∃ p ∈ S.view [.delete t x] s fk.parent, S.id fk.parent p = y
        refine id_persists (fun hm => hpx ?_) ⟨p, hp, hpy⟩
        simpa using hm
    have hv := hd.drain hS (fun e he => (mem_events.mp he).1) hr
    refine ⟨hv.keys, hv.unique, fun fk hfk hdef a ha y hy => ?_⟩
    exact (hv.references fk hfk hdef a ha y hy).resolve_right (by simp)

end Schema

end EnvVault.Relational
