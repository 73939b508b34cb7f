import EnvVault.RowRegistry
import EnvVault.ReferentialActions

/-!
# What a deletion reaches

The referential actions of a DELETE go down foreign keys from parents to children. Every
row they delete or clear is reached so from the row that is deleted, through rows of which
something may be known: that the store keeps a predicate, for one.
-/
namespace EnvVault.Relational

variable {T : Type} {Row : T → Type} {Id : Type} (S : Schema Row Id) (K : RowPredicate Row)

/-- SET NULL keeps the predicate, where a trigger does not refuse it. -/
def RowPredicate.Clearable : Prop :=
  ∀ fk ∈ S.foreignKeys, S.appendOnly fk.child = false → ∀ clear, fk.onDelete = .setNull clear →
    ∀ r, K fk.child r → K fk.child (clear r)

/-- Down foreign keys with an action, through rows with `K`. -/
inductive Schema.Reached (t₀ : T) (x₀ : Id) : T → Id → Prop
  | root : Reached t₀ x₀ t₀ x₀
  | child (fk : ForeignKey Row Id) (hfk : fk ∈ S.foreignKeys) (hact : fk.onDelete ≠ .noAction)
      (r : Row fk.child) (hr : K fk.child r) (x : Id) (hx : fk.column r = some x)
      (h : Reached t₀ x₀ fk.parent x) : Reached t₀ x₀ fk.child (S.id fk.child r)

/-- The writes of a deletion: reached rows that go, and reached rows that are cleared. -/
inductive Schema.CascadeWrite (t₀ : T) (x₀ : Id) : Write Row Id → Prop
  | delete (t : T) (x : Id) (h : S.Reached K t₀ x₀ t x) : CascadeWrite t₀ x₀ (.delete t x)
  | clear (t : T) (r : Row t) (hr : K t r) (h : S.Reached K t₀ x₀ t (S.id t r)) :
      CascadeWrite t₀ x₀ (.update t r)

namespace Schema
variable {S K} [DecidableEq T] [DecidableEq Id] {t₀ : T} {x₀ : Id} {s : Store Row}

omit [DecidableEq T] [DecidableEq Id] in
theorem CascadeWrite.admits {w : Write Row Id} (h : S.CascadeWrite K t₀ x₀ w) : K.Admits w := by
  cases h with
  | delete t x h => trivial
  | clear t r hr h => exact hr

theorem CascadeWrite.stored_view {ws : List (Write Row Id)}
    (hws : ∀ w ∈ ws, S.CascadeWrite K t₀ x₀ w) (h : Stored K s) : Stored K (S.view ws s) := by
  induction ws generalizing s with
  | nil => exact h
  | cons w ws ih =>
    exact ih (fun v hv => hws v (List.mem_cons_of_mem _ hv))
      (h.apply S (hws w List.mem_cons_self).admits)

/-- A table with the trigger refuses the UPDATE of SET NULL. -/
theorem appendOnly_of_fire_setNull {ev : Event Row Id} {ws : List (Write Row Id)}
    {evs : List (Event Row Id)} {clear : Row ev.fk.child → Row ev.fk.child}
    (hd : ev.fk.onDelete = .setNull clear) (hf : S.fire ev s = .ok (ws, evs))
    (hne : ev.children s ≠ []) : S.appendOnly ev.fk.child = false := by
  simp only [fire, if_neg hne, hd] at hf
  cases ha : S.appendOnly ev.fk.child with
  | false => rfl
  | true =>
    rw [ha] at hf
    cases hf

/-- The parent of a queued event has been reached. -/
def EventReached (S : Schema Row Id) (K : RowPredicate Row) (t₀ : T) (x₀ : Id)
    (ev : Event Row Id) : Prop :=
  ev.fk ∈ S.foreignKeys ∧ S.Reached K t₀ x₀ ev.fk.parent ev.parentId

variable (hS : S.ClearsOk) (hK : K.Clearable S)
include hS hK

theorem cascadeWrite_fire {ev : Event Row Id} {ws : List (Write Row Id)}
    {evs : List (Event Row Id)} (hev : S.EventReached K t₀ x₀ ev) (h : Stored K s)
    (hf : S.fire ev s = .ok (ws, evs)) :
    (∀ w ∈ ws, S.CascadeWrite K t₀ x₀ w) ∧ ∀ e ∈ evs, S.EventReached K t₀ x₀ e := by
  have hchild : ev.fk.onDelete ≠ .noAction → ∀ r ∈ ev.children s,
      S.Reached K t₀ x₀ ev.fk.child (S.id ev.fk.child r) := by
    intro hact r hr
    obtain ⟨hmem, hcol⟩ := Event.mem_children.mp hr
    exact .child ev.fk hev.1 hact r (h _ r hmem) _ hcol hev.2
  cases fire_cases hf with
  | none _ => simp
  | cascade hd =>
    have hact : ev.fk.onDelete ≠ .noAction := by simp [hd]
    constructor
    · intro w hw
      obtain ⟨r, hr, rfl⟩ := List.mem_map.mp hw
      exact .delete _ _ (hchild hact r hr)
    · intro e he
      obtain ⟨r, hr, hmem⟩ := List.mem_flatMap.mp he
      obtain ⟨hfk, hparent, hid⟩ := mem_events.mp hmem
      refine ⟨hfk, ?_⟩
      rw [hparent, hid]
      exact hchild hact r hr
  | setNull clear hd =>
    have hact : ev.fk.onDelete ≠ .noAction := by simp [hd]
    refine ⟨fun w hw => ?_, by simp⟩
    obtain ⟨r, hr, rfl⟩ := List.mem_map.mp hw
    have hupdates := appendOnly_of_fire_setNull hd hf (List.ne_nil_of_mem hr)
    refine .clear _ _ (hK ev.fk hev.1 hupdates clear hd r
      (h _ r (Event.mem_children.mp hr).1)) ?_
    rw [(hS ev.fk hev.1 clear hd).id r]
    exact hchild hact r hr

theorem cascadeWrite_drain {k : ℕ} {queue : List (Event Row Id)} {ws : List (Write Row Id)}
    (hqueue : ∀ ev ∈ queue, S.EventReached K t₀ x₀ ev) (h : Stored K s)
    (hd : S.drain k s queue = .ok ws) : ∀ w ∈ ws, S.CascadeWrite K t₀ x₀ w := by
  induction k generalizing s queue ws with
  | zero =>
    cases queue with
    | nil =>
      rw [drain_nil_ok hd]
      simp
    | cons ev queue => cases hd
  | succ k ih =>
    cases queue with
    | nil =>
      rw [drain_nil_ok hd]
      simp
    | cons ev queue =>
      obtain ⟨j, us, evs, vs, hj, hfire, hrest, rfl⟩ := drain_cons_ok hd
      obtain rfl : k = j := Nat.succ.inj hj
      obtain ⟨hus, hevs⟩ := cascadeWrite_fire hS hK (hqueue ev List.mem_cons_self) h hfire
      have hvs := ih (fun e he => ?_) (CascadeWrite.stored_view hus h) hrest
      · intro w hw
        exact (List.mem_append.mp hw).elim (hus w) (hvs w)
      · rcases List.mem_append.mp he with he | he
        · exact hqueue e (List.mem_cons_of_mem _ he)
        · exact hevs e he

/-- What a DELETE writes, reached from the row that it names. -/
theorem cascadeWrite_deleteRow {ws : List (Write Row Id)} (h : Stored K s)
    (hd : S.deleteRow t₀ x₀ s = .ok ws) : ∀ w ∈ ws, S.CascadeWrite K t₀ x₀ w := by
  rcases deleteRow_ok hd with rfl | ⟨k, vs, rfl, hdrain⟩
  · simp
  · have hstart : Stored K (S.apply (.delete t₀ x₀) s) := h.apply S (w := .delete t₀ x₀) trivial
    have hevents : ∀ ev ∈ S.events t₀ x₀, S.EventReached K t₀ x₀ ev := by
      intro ev hev
      obtain ⟨hfk, hparent, hid⟩ := mem_events.mp hev
      refine ⟨hfk, ?_⟩
      rw [hparent, hid]
      exact .root
    intro w hw
    rcases List.mem_cons.mp hw with rfl | hw
    · exact .delete _ _ .root
    · exact cascadeWrite_drain hS hK hevents hstart hdrain w hw

end Schema

end EnvVault.Relational
