import Mathlib.Data.List.Pairwise
import EnvVault.ReferentialActions

/-!
# Referential actions level by level

A first-in first-out queue fires all events of one level before the first of
those they enqueue. A level of cascades deletes the children that each event has
when the level begins; a level of NO ACTION checks refuses at the first check
that finds a child. What a sequence of levels has deleted is described by one
predicate on the rows.
-/
namespace EnvVault.Relational
open EnvVault.Transactions

variable {T : Type} [DecidableEq T] {Row : T → Type} {Id : Type} [DecidableEq Id]

namespace Schema
variable {S : Schema Row Id}

/-- Events fired one after the other, those they enqueue left for later. -/
def sweep (S : Schema Row Id) : Store Row → List (Event Row Id) →
    Except (ReferentialError T) (List (Write Row Id) × List (Event Row Id))
  | _, [] => .ok ([], [])
  | s, ev :: queue =>
    match S.fire ev s with
    | .error e => .error e
    | .ok (ws, evs) =>
      match sweep S (S.view ws s) queue with
      | .error e => .error e
      | .ok (vs, evs') => .ok (ws ++ vs, evs ++ evs')

/-- A first-in first-out queue works level by level: all events of the queue
fire before the first of those they enqueue. -/
theorem drain_append (k : ℕ) (s : Store Row) (queue rest : List (Event Row Id)) :
    S.drain (k + queue.length) s (queue ++ rest) = match S.sweep s queue with
      | .error e => .error e
      | .ok (ws, evs) => (S.drain k (S.view ws s) (rest ++ evs)).map (fun vs => ws ++ vs) := by
  induction queue generalizing s rest with
  | nil =>
    simp only [List.length_nil, Nat.add_zero, List.nil_append, sweep, view_nil, List.append_nil]
    cases S.drain k s rest <;> rfl
  | cons ev queue ih =>
    rw [List.length_cons, ← Nat.add_assoc, List.cons_append, drain, sweep]
    cases hf : S.fire ev s with
    | error e => rfl
    | ok r =>
      obtain ⟨ws, evs⟩ := r
      dsimp only
      rw [List.append_assoc, ih]
      cases S.sweep (S.view ws s) queue with
      | error e => rfl
      | ok r =>
        obtain ⟨vs, evs'⟩ := r
        simp only [view_append, List.append_assoc]
        cases S.drain k (S.view vs (S.view ws s)) (rest ++ (evs ++ evs')) with
        | error e => rfl
        | ok us => simp [Except.map]

theorem sweep_cons_ok {s : Store Row} {ev : Event Row Id} {queue : List (Event Row Id)}
    {ws vs : List (Write Row Id)} {evs evs' : List (Event Row Id)}
    (hf : S.fire ev s = .ok (ws, evs)) (hs : S.sweep (S.view ws s) queue = .ok (vs, evs')) :
    S.sweep s (ev :: queue) = .ok (ws ++ vs, evs ++ evs') := by
  simp only [sweep, hf, hs]

theorem sweep_cons_error {s : Store Row} {ev : Event Row Id} {queue : List (Event Row Id)}
    {e : ReferentialError T} (hf : S.fire ev s = .error e) :
    S.sweep s (ev :: queue) = .error e := by
  simp only [sweep, hf]

theorem sweep_append {s : Store Row} (queue queue' : List (Event Row Id)) :
    S.sweep s (queue ++ queue') = match S.sweep s queue with
      | .error e => .error e
      | .ok (ws, evs) =>
        match S.sweep (S.view ws s) queue' with
        | .error e => .error e
        | .ok (vs, evs') => .ok (ws ++ vs, evs ++ evs') := by
  induction queue generalizing s with
  | nil =>
    simp only [List.nil_append, sweep, view_nil]
    cases S.sweep s queue' <;> rfl
  | cons ev queue ih =>
    simp only [List.cons_append, sweep]
    cases hf : S.fire ev s with
    | error e => rfl
    | ok r =>
      obtain ⟨us, evs⟩ := r
      dsimp only
      rw [ih]
      cases S.sweep (S.view us s) queue with
      | error e => rfl
      | ok r =>
        obtain ⟨ws, evs'⟩ := r
        simp only [view_append]
        cases S.sweep (S.view ws (S.view us s)) queue' with
        | error e => rfl
        | ok r => simp

theorem sweep_mem {s : Store Row} {queue : List (Event Row Id)} {ws : List (Write Row Id)}
    {evs : List (Event Row Id)} (h : S.sweep s queue = .ok (ws, evs)) :
    ∀ e ∈ evs, e.fk ∈ S.foreignKeys := by
  induction queue generalizing s ws evs with
  | nil =>
    simp only [sweep, Except.ok.injEq, Prod.mk.injEq] at h
    simp [← h.2]
  | cons ev queue ih =>
    simp only [sweep] at h
    cases hf : S.fire ev s with
    | error e => rw [hf] at h; cases h
    | ok r =>
      obtain ⟨us, evs₁⟩ := r
      rw [hf] at h
      dsimp only at h
      cases hs : S.sweep (S.view us s) queue with
      | error e => rw [hs] at h; cases h
      | ok r =>
        obtain ⟨vs, evs₂⟩ := r
        simp only [hs, Except.ok.injEq, Prod.mk.injEq] at h
        rw [← h.2]
        intro e he
        rcases List.mem_append.mp he with he | he
        · exact (fire_cases hf).events_mem e he
        · exact ih hs e he

/-- A cascade deletes the children and enqueues their events, also when there are none. -/
theorem fire_cascade {ev : Event Row Id} (s : Store Row) (hd : ev.fk.onDelete = .cascade)
    (ha : S.appendOnly ev.fk.child = false) : S.fire ev s = .ok
      ((ev.children s).map (fun r => .delete ev.fk.child (S.id _ r)),
        (ev.children s).flatMap (fun r => S.events ev.fk.child (S.id _ r))) := by
  simp only [fire]
  split
  · rename_i h
    simp [h]
  · simp [hd, ha]

theorem fire_noAction {ev : Event Row Id} (s : Store Row) (hd : ev.fk.onDelete = .noAction) :
    S.fire ev s =
      if ev.children s = [] then .ok ([], []) else .error (.violated ev.fk.child) := by
  simp [fire, hd]

theorem fire_none {ev : Event Row Id} {s : Store Row} (h : ev.children s = []) :
    S.fire ev s = .ok ([], []) := by
  simp [fire, h]

theorem drain_level (k : ℕ) (s : Store Row) (queue : List (Event Row Id)) :
    S.drain (k + queue.length) s queue = match S.sweep s queue with
      | .error e => .error e
      | .ok (ws, evs) => (S.drain k (S.view ws s) evs).map (fun vs => ws ++ vs) := by
  simpa using drain_append k s queue []

/-- The queue with as much fuel as it needs. -/
def drains (S : Schema Row Id) (s : Store Row) (queue : List (Event Row Id)) :
    Except (ReferentialError T) (List (Write Row Id)) :=
  S.drain (S.fuel s queue) s queue

theorem drains_nil (s : Store Row) : S.drains s [] = .ok [] := by
  unfold drains
  cases S.fuel s [] <;> rfl

theorem drains_level {s : Store Row} {queue : List (Event Row Id)}
    (hq : ∀ e ∈ queue, e.fk ∈ S.foreignKeys) :
    S.drains s queue = match S.sweep s queue with
      | .error e => .error e
      | .ok (ws, evs) => (S.drains (S.view ws s) evs).map (fun vs => ws ++ vs) := by
  cases hs : S.sweep s queue with
  | error e =>
    rw [drains, S.drain_fuel hq (le_refl _) (Nat.le_add_right _ queue.length), drain_level, hs]
  | ok r =>
    obtain ⟨ws, evs⟩ := r
    have hle : S.fuel s queue ≤ S.fuel s queue + S.fuel (S.view ws s) evs + queue.length := by omega
    rw [drains, drain_fuel hq (le_refl _) hle, drain_level, hs]
    dsimp only
    rw [drain_fuel (sweep_mem hs) (Nat.le_add_left _ (S.fuel s queue)) (le_refl _), drains]

/-- The DELETE of a row that is there. -/
theorem deleteRow_eq {t : T} {x : Id} {s : Store Row} (hx : ∃ r ∈ s t, S.id t r = x)
    (ha : S.appendOnly t = false) : S.deleteRow t x s =
      (S.drains (S.apply (.delete t x) s) (S.events t x)).map (fun ws => .delete t x :: ws) := by
  have hall : ¬ (s t).all (fun r => S.id t r ≠ x) = true := by
    obtain ⟨r, hr, hrx⟩ := hx
    simp only [List.all_eq_true, decide_eq_true_eq, not_forall, not_not]
    exact ⟨r, hr, hrx⟩
  rw [deleteRow, if_neg hall, if_neg (by simp [ha])]
  rfl

theorem sweep_idle {s : Store Row} {queue : List (Event Row Id)}
    (h : ∀ ev ∈ queue, ev.children s = []) : S.sweep s queue = .ok ([], []) := by
  induction queue with
  | nil => rfl
  | cons ev queue ih =>
    exact sweep_cons_ok (fire_none (h ev List.mem_cons_self))
      (ih fun e he => h e (List.mem_cons_of_mem _ he))

/-- A check that finds a child refuses, whatever stands behind it. -/
theorem sweep_violated {s : Store Row} {queue rest : List (Event Row Id)} {child : T}
    (hq : ∀ ev ∈ queue, ev.fk.onDelete = .noAction ∧ ev.fk.child = child)
    (h : ∃ ev ∈ queue, ev.children s ≠ []) :
    S.sweep s (queue ++ rest) = .error (.violated child) := by
  induction queue with
  | nil => obtain ⟨ev, hev, -⟩ := h; cases hev
  | cons ev queue ih =>
    obtain ⟨hd, hc⟩ := hq ev List.mem_cons_self
    have hf := fire_noAction (S := S) s hd
    by_cases he : ev.children s = []
    · rw [if_pos he] at hf
      simp only [List.cons_append, sweep, hf, view_nil]
      obtain ⟨e, hem, hne⟩ := h
      rcases List.mem_cons.mp hem with rfl | hem
      · exact absurd he hne
      · rw [ih (fun e he => hq e (List.mem_cons_of_mem _ he)) ⟨e, hem, hne⟩]
    · rw [if_neg he, hc] at hf
      exact sweep_cons_error hf

/-- Events with no child in common: of different tables, or of one foreign key and
different parents. -/
def Event.Disjoint (a b : Event Row Id) : Prop :=
  a.fk.child ≠ b.fk.child ∨ a.fk = b.fk ∧ a.parentId ≠ b.parentId

variable (S) in
def cascadeWrites (s : Store Row) (ev : Event Row Id) : List (Write Row Id) :=
  (ev.children s).map (fun r => .delete ev.fk.child (S.id _ r))

variable (S) in
def cascadeEvents (s : Store Row) (ev : Event Row Id) : List (Event Row Id) :=
  (ev.children s).flatMap (fun r => S.events ev.fk.child (S.id _ r))

omit [DecidableEq T] in
theorem id_mem_children {s : Store Row} (ev : Event Row Id)
    (hn : ((s ev.fk.child).map (S.id _)).Nodup) {r : Row ev.fk.child} (hr : r ∈ s ev.fk.child) :
    S.id _ r ∈ (ev.children s).map (S.id _) ↔ ev.fk.column r = some ev.parentId := by
  constructor
  · intro h
    obtain ⟨c, hc, hcr⟩ := List.mem_map.mp h
    obtain ⟨hcs, hcol⟩ := Event.mem_children.mp hc
    rwa [← List.inj_on_of_nodup_map hn hcs hr hcr]
  · exact fun h => List.mem_map_of_mem (Event.mem_children.mpr ⟨hr, h⟩)

theorem cascadeWrites_view (s : Store Row) (ev : Event Row Id) :
    S.view (S.cascadeWrites s ev) s ev.fk.child =
      (s ev.fk.child).filter (fun r => S.id _ r ∉ (ev.children s).map (S.id _)) := by
  rw [cascadeWrites, show (fun r => Write.delete ev.fk.child (S.id _ r)) =
    (fun x => Write.delete ev.fk.child x) ∘ S.id ev.fk.child from rfl, ← List.map_map, view_deletes]

omit [DecidableEq T] in
theorem cascadeWrites_table {s : Store Row} {ev : Event Row Id} {w : Write Row Id}
    (hw : w ∈ S.cascadeWrites s ev) : w.table = ev.fk.child := by
  obtain ⟨r, -, rfl⟩ := List.mem_map.mp hw
  rfl

/-- A level of cascades is about the child tables of its events. -/
theorem view_cascades_untouched {s : Store Row} {queue : List (Event Row Id)} {t : T}
    (h : ∀ ev ∈ queue, ev.fk.child ≠ t) : S.view (queue.flatMap (S.cascadeWrites s)) s t = s t := by
  refine view_untouched S (fun w hw => ?_) s
  obtain ⟨ev, hev, hw⟩ := List.mem_flatMap.mp hw
  rw [cascadeWrites_table hw]
  exact h ev hev

/-- A cascade leaves the children of a disjoint event alone. -/
theorem children_cascade {s : Store Row} {a b : Event Row Id} (h : Event.Disjoint a b)
    (hn : ((s a.fk.child).map (S.id _)).Nodup) :
    b.children (S.view (S.cascadeWrites s a) s) = b.children s := by
  rcases h with h | ⟨hfk, hp⟩
  · rw [Event.children, view_untouched _ (fun w hw => ?_)]
    · rfl
    · rw [cascadeWrites_table hw]
      exact h
  · obtain ⟨fk, x⟩ := a
    obtain ⟨fk', y⟩ := b
    obtain rfl : fk = fk' := hfk
    simp only [Event.children]
    rw [cascadeWrites_view, List.filter_filter]
    refine List.filter_congr fun r hr => ?_
    have hiff := id_mem_children ⟨fk, x⟩ hn hr
    by_cases hcol : fk.column r = some y
    · have hne : S.id _ r ∉ (Event.children ⟨fk, x⟩ s).map (S.id _) := by
        rw [hiff]
        dsimp only
        rw [hcol]
        exact fun he => hp (Option.some.inj he).symm
      simp only [hcol, hne, decide_true, not_false_eq_true, Bool.and_self]
    · simp only [hcol, decide_false, Bool.false_and]

/-- A level of disjoint cascades deletes the children each event has at the start. -/
theorem sweep_cascades {s : Store Row} {queue : List (Event Row Id)}
    (hn : ∀ t, ((s t).map (S.id t)).Nodup)
    (hc : ∀ ev ∈ queue, ev.fk.onDelete = .cascade ∧ S.appendOnly ev.fk.child = false)
    (hd : queue.Pairwise Event.Disjoint) : S.sweep s queue =
      .ok (queue.flatMap (S.cascadeWrites s), queue.flatMap (S.cascadeEvents s)) := by
  induction queue generalizing s with
  | nil => rfl
  | cons ev queue ih =>
    obtain ⟨hcas, happ⟩ := hc ev List.mem_cons_self
    rw [List.pairwise_cons] at hd
    have hins : S.inserted (S.cascadeWrites s ev) = [] := by simp [cascadeWrites, Schema.inserted]
    have ih := ih (s := S.view (S.cascadeWrites s ev) s)
      (nodup_view hn (newKeys_of_inserted hins s))
      (fun e he => hc e (List.mem_cons_of_mem _ he)) hd.2
    have hchild : ∀ e ∈ queue, e.children (S.view (S.cascadeWrites s ev) s) = e.children s :=
      fun e he => children_cascade (hd.1 e he) (hn _)
    have hws : queue.flatMap (S.cascadeWrites (S.view (S.cascadeWrites s ev) s)) =
        queue.flatMap (S.cascadeWrites s) :=
      List.flatMap_congr fun e he => by rw [cascadeWrites, hchild e he]; rfl
    have hevs : queue.flatMap (S.cascadeEvents (S.view (S.cascadeWrites s ev) s)) =
        queue.flatMap (S.cascadeEvents s) :=
      List.flatMap_congr fun e he => by rw [cascadeEvents, hchild e he]; rfl
    rw [hws, hevs] at ih
    rw [List.flatMap_cons, List.flatMap_cons]
    exact sweep_cons_ok (fire_cascade s hcas happ) ih

omit [DecidableEq Id] in
/-- The events of one parent table under different keys are disjoint, if no two of
its foreign keys lead to the same table. -/
theorem pairwise_events {t : T} {xs : List Id} (hxs : xs.Nodup)
    (hfks : (S.foreignKeys.filter (fun fk => fk.parent = t)).Pairwise
      (fun a b => a.child ≠ b.child)) :
    (xs.flatMap (S.events t)).Pairwise Event.Disjoint := by
  rw [List.pairwise_flatMap]
  refine ⟨fun x _ => ?_, hxs.imp ?_⟩
  · rw [events, List.pairwise_map]
    exact hfks.imp fun h => Or.inl h
  · intro x y hxy a ha b hb
    obtain ⟨hafk, hap, hax⟩ := mem_events.mp ha
    obtain ⟨hbfk, hbp, hby⟩ := mem_events.mp hb
    by_cases hab : a.fk = b.fk
    · exact Or.inr ⟨hab, by rw [hax, hby]; exact hxy⟩
    · refine Or.inl fun hchild => ?_
      have hmem : ∀ fk ∈ S.foreignKeys, fk.parent = t →
          fk ∈ S.foreignKeys.filter (fun fk => fk.parent = t) :=
        fun fk hfk hp => List.mem_filter.mpr ⟨hfk, by simpa using hp⟩
      have : Std.Symm fun a b : ForeignKey Row Id => a.child ≠ b.child := ⟨fun _ _ h => Ne.symm h⟩
      exact hfks.forall (hmem _ hafk hap) (hmem _ hbfk hbp) hab hchild

/-- A row survives deletions of other rows. -/
theorem mem_view_of_deletes {ws : List (Write Row Id)} {s : Store Row} {t : T} {r : Row t}
    (hws : ∀ w ∈ ws, ∃ t x, w = .delete t x) :
    r ∈ S.view ws s t ↔ r ∈ s t ∧ .delete t (S.id t r) ∉ ws := by
  induction ws generalizing s with
  | nil => simp
  | cons w ws ih =>
    obtain ⟨t', x, rfl⟩ := hws w List.mem_cons_self
    rw [view_cons, ih fun w hw => hws w (List.mem_cons_of_mem _ hw)]
    by_cases ht : t' = t
    · subst ht
      simp only [mem_apply_delete, List.mem_cons, Write.delete.injEq, true_and, not_or, and_assoc]
    · rw [S.apply_other (w := .delete t' x) ht]
      simp [Ne.symm ht]

variable (S) in
/-- The writes delete the rows of `s` that satisfy `P`, and nothing else. -/
structure Removes (s : Store Row) (ws : List (Write Row Id)) (P : (t : T) → Row t → Prop) :
    Prop where
  deletes : ∀ w ∈ ws, ∃ t x, w = .delete t x
  mem : ∀ t x, .delete t x ∈ ws ↔ ∃ r ∈ s t, S.id t r = x ∧ P t r

namespace Removes
variable {s : Store Row} {ws vs : List (Write Row Id)} {P Q : (t : T) → Row t → Prop}

omit [DecidableEq T] [DecidableEq Id] in
theorem congr (h : S.Removes s ws P) (hPQ : ∀ t, ∀ r ∈ s t, P t r ↔ Q t r) :
    S.Removes s ws Q where
  deletes := h.deletes
  mem t x := by
    rw [h.mem]
    exact exists_congr fun r => and_congr_right fun hr => and_congr_right fun _ => hPQ t r hr

theorem mem_view (h : S.Removes s ws P) (hn : ∀ t, ((s t).map (S.id t)).Nodup) {t : T}
    {r : Row t} : r ∈ S.view ws s t ↔ r ∈ s t ∧ ¬ P t r := by
  rw [mem_view_of_deletes h.deletes, h.mem]
  refine and_congr_right fun hr => not_congr ?_
  constructor
  · rintro ⟨r', hr', hid, hp⟩
    rwa [← List.inj_on_of_nodup_map (hn t) hr' hr hid]
  · exact fun hp => ⟨r, hr, rfl, hp⟩

theorem nodup (h : S.Removes s ws P) (hn : ∀ t, ((s t).map (S.id t)).Nodup) (t : T) :
    ((S.view ws s t).map (S.id t)).Nodup := by
  refine nodup_view hn (newKeys_of_inserted (List.filterMap_eq_nil_iff.mpr fun w hw => ?_) s) t
  obtain ⟨t, x, rfl⟩ := h.deletes w hw
  rfl

theorem append (h : S.Removes s ws P) (h' : S.Removes (S.view ws s) vs Q) :
    S.Removes s (ws ++ vs) (fun t r => P t r ∨ Q t r) where
  deletes w hw := (List.mem_append.mp hw).elim (h.deletes w) (h'.deletes w)
  mem t x := by
    rw [List.mem_append, h.mem, h'.mem]
    constructor
    · rintro (⟨r, hr, hx, hp⟩ | ⟨r, hr, hx, hq⟩)
      · exact ⟨r, hr, hx, Or.inl hp⟩
      · exact ⟨r, ((mem_view_of_deletes h.deletes).mp hr).1, hx, Or.inr hq⟩
    · rintro ⟨r, hr, rfl, hpq⟩
      by_cases hd : .delete t (S.id t r) ∈ ws
      · exact Or.inl ((h.mem _ _).mp hd)
      · refine Or.inr ⟨r, (mem_view_of_deletes h.deletes).mpr ⟨hr, hd⟩, rfl, ?_⟩
        exact hpq.resolve_left fun hp => hd ((h.mem _ _).mpr ⟨r, hr, rfl, hp⟩)

omit [DecidableEq T] [DecidableEq Id] in
theorem nil : S.Removes s [] (fun _ _ => False) := ⟨by simp, by simp⟩

omit [DecidableEq T] [DecidableEq Id] in
theorem delete {t : T} {x : Id} (hx : ∃ r ∈ s t, S.id t r = x) :
    S.Removes s [.delete t x] (fun t' r => ∃ h : t' = t, S.id t (h ▸ r) = x) where
  deletes w hw := ⟨t, x, List.mem_singleton.mp hw⟩
  mem t' y := by
    obtain ⟨r, hr, hrx⟩ := hx
    simp only [List.mem_singleton, Write.delete.injEq]
    constructor
    · rintro ⟨rfl, rfl⟩
      exact ⟨r, hr, hrx, rfl, hrx⟩
    · rintro ⟨r', -, hid, rfl, hid'⟩
      exact ⟨rfl, hid.symm.trans hid'⟩

/-- A level of cascades removes the children of its events. -/
theorem cascades (queue : List (Event Row Id)) :
    S.Removes s (queue.flatMap (S.cascadeWrites s))
      (fun t r => ∃ ev ∈ queue, ev.fk.ref t r = some ev.parentId) where
  deletes w hw := by
    obtain ⟨ev, -, hw⟩ := List.mem_flatMap.mp hw
    obtain ⟨r, -, rfl⟩ := List.mem_map.mp hw
    exact ⟨_, _, rfl⟩
  mem t x := by
    simp only [List.mem_flatMap, cascadeWrites, List.mem_map, Event.mem_children]
    constructor
    · rintro ⟨ev, hev, r, ⟨hr, hcol⟩, heq⟩
      simp only [Write.delete.injEq] at heq
      obtain ⟨rfl, rfl⟩ := heq
      exact ⟨r, hr, rfl, ev, hev, by simpa using hcol⟩
    · rintro ⟨r, hr, rfl, ev, hev, href⟩
      by_cases ht : ev.fk.child = t
      · subst ht
        exact ⟨ev, hev, r, ⟨hr, by simpa using href⟩, rfl⟩
      · simp [ForeignKey.ref, ht] at href

end Removes

end Schema

end EnvVault.Relational
