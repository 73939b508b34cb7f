import Mathlib.Algebra.Order.Group.Defs
import Mathlib.Data.List.Count
import Mathlib.Order.Lattice

/-!
# Counting in fixed windows

The hits on one counter, newest first. A hit opens a window or is counted in the window
that is open, and a window is open for some time at least. However the windows lie, an
interval of that length meets two of them at most.

`lasts a b` says that a window opened at `a` may still be open at `b`.
-/
namespace EnvVault.FixedWindow

/-- A hit: when it came, what it was counted as, and whether it opened a window. -/
structure Tick (T : Type) where
  time : T
  count : ℕ
  opens : Bool
deriving DecidableEq

variable {T : Type} [AddCommGroup T] [LinearOrder T]

/-- The log of a counter whose windows are open for `w` at least, with the time at which
the last window was opened and the hits counted in it. -/
inductive Windowed (w : T) (lasts : T → T → Prop) : T → ℕ → List (Tick T) → Prop
  | first (t : T) : Windowed w lasts t 1 [⟨t, 1, true⟩]
  | continues {opened t : T} {count : ℕ} {log : List (Tick T)}
      (h : Windowed w lasts opened count log) (ht : ∀ x ∈ log, x.time ≤ t) (hl : lasts opened t) :
      Windowed w lasts opened (count + 1) (⟨t, count + 1, false⟩ :: log)
  | reopens {opened t : T} {count : ℕ} {log : List (Tick T)}
      (h : Windowed w lasts opened count log) (ht : ∀ x ∈ log, x.time ≤ t) (hw : opened + w ≤ t) :
      Windowed w lasts t 1 (⟨t, 1, true⟩ :: log)

/-- The hits of the half-open interval from `a` on that are counted as `limit` at most. -/
def inside (w a : T) (limit : ℕ) (log : List (Tick T)) : ℕ :=
  log.countP fun x => decide (a ≤ x.time ∧ x.time < a + w ∧ x.count ≤ limit)

@[simp] theorem inside_nil (w a : T) (limit : ℕ) : inside w a limit [] = 0 := rfl

theorem inside_cons (w a : T) (limit : ℕ) (t : T) (count : ℕ) (opens : Bool)
    (log : List (Tick T)) : inside w a limit (⟨t, count, opens⟩ :: log) = inside w a limit log +
      if a ≤ t ∧ t < a + w ∧ count ≤ limit then 1 else 0 := by
  simp [inside, List.countP_cons]

theorem inside_eq_zero {w a : T} {limit : ℕ} {log : List (Tick T)} (h : ∀ x ∈ log, x.time < a) :
    inside w a limit log = 0 := by
  refine List.countP_eq_zero.mpr fun x hx => ?_
  have hlt := not_le.mpr (h x hx)
  simp [hlt]

namespace Windowed
variable {w opened : T} {lasts : T → T → Prop} {count : ℕ} {log : List (Tick T)}

theorem opened_mem (h : Windowed w lasts opened count log) : ∃ x ∈ log, x.time = opened := by
  induction h with
  | first t => exact ⟨_, List.mem_singleton_self _, rfl⟩
  | continues h ht hl ih =>
    obtain ⟨x, hx, heq⟩ := ih
    exact ⟨x, List.mem_cons_of_mem _ hx, heq⟩
  | reopens h ht hw ih => exact ⟨_, List.mem_cons_self, rfl⟩

/-- The hits counted in the open window have come since it was opened. -/
theorem count_le (h : Windowed w lasts opened count log) :
    count ≤ log.countP fun x => decide (opened ≤ x.time) := by
  induction h with
  | first t => simp
  | @continues opened t count log h ht hl ih =>
    obtain ⟨x, hx, hxo⟩ := h.opened_mem
    have hot : opened ≤ t := hxo ▸ ht x hx
    rw [List.countP_cons_of_pos (by simpa using hot)]
    omega
  | reopens h ht hw ih =>
    rw [List.countP_cons_of_pos (by simp)]
    omega

variable [IsOrderedAddMonoid T]

/-- The last hit of a log has come in the window that is open. -/
theorem head_in_window {x : Tick T} (h : Windowed w (fun a b => b < a + w) opened count (x :: log))
    (hw : 0 < w) : x.count = count ∧ x.time < opened + w := by
  cases h with
  | first t => exact ⟨rfl, lt_add_of_pos_right _ hw⟩
  | continues h ht hl => exact ⟨rfl, hl⟩
  | reopens h ht hr => exact ⟨rfl, lt_add_of_pos_right _ hw⟩

/-- Before the window that is open, an interval meets one other window at most. -/
theorem inside_le (h : Windowed w lasts opened count log) (a : T) (limit : ℕ) :
    (opened < a → inside w a limit log ≤ min limit count) ∧
    (opened < a + w → inside w a limit log ≤ limit + min limit count) ∧
    inside w a limit log ≤ 2 * limit := by
  induction h with
  | first t =>
    rw [inside_cons, inside_nil]
    refine ⟨fun hlt => ?_, fun _ => ?_, ?_⟩
    · have hout : ¬ a ≤ t := not_le.mpr hlt
      simp [hout]
    · split <;> omega
    · split <;> omega
  | @continues opened t count log h ht hl ih =>
    obtain ⟨hbefore, hacross, htotal⟩ := ih
    obtain ⟨x, hx, hxo⟩ := h.opened_mem
    have hot : opened ≤ t := hxo ▸ ht x hx
    rw [inside_cons]
    refine ⟨fun hlt => ?_, fun hlt => ?_, ?_⟩
    · have := hbefore hlt
      split <;> omega
    · have := hacross hlt
      split <;> omega
    · by_cases hlt : opened < a + w
      · have := hacross hlt
        split <;> omega
      · have hlate : ¬ t < a + w := not_lt.mpr ((not_lt.mp hlt).trans hot)
        simp [hlate, htotal]
  | @reopens opened t count log h ht hw ih =>
    obtain ⟨hbefore, hacross, htotal⟩ := ih
    rw [inside_cons]
    have hacross' : t < a + w → inside w a limit log ≤ limit := fun hlt =>
      (hbefore (lt_of_add_lt_add_right (hw.trans_lt hlt))).trans (min_le_left _ _)
    refine ⟨fun hlt => ?_, fun hlt => ?_, ?_⟩
    · rw [inside_eq_zero fun x hx => (ht x hx).trans_lt hlt]
      have hout : ¬ a ≤ t := not_le.mpr hlt
      simp [hout]
    · have := hacross' hlt
      split <;> omega
    · by_cases hlt : t < a + w
      · have := hacross' hlt
        split <;> omega
      · simp [hlt, htotal]

omit [IsOrderedAddMonoid T] in
/-- The log up to an earlier hit. -/
theorem of_append {later : List (Tick T)} (hne : log ≠ [])
    (h : Windowed w lasts opened count (later ++ log)) :
    ∃ opened' count', Windowed w lasts opened' count' log := by
  induction later generalizing opened count with
  | nil => exact ⟨opened, count, h⟩
  | cons x later ih =>
    rw [List.cons_append] at h
    generalize hlog : later ++ log = rest at h
    cases h with
    | first t => simp_all
    | continues h ht hl => exact ih (hlog ▸ h)
    | reopens h ht hw => exact ih (hlog ▸ h)

end Windowed

def allowed (limit : ℕ) (x : Tick T) : Bool := decide (x.count ≤ limit)

/-- The answers to `n` hits of which the first `limit` are allowed. -/
def firstAllowed (limit n : ℕ) : List Bool :=
  List.replicate (min limit n) true ++ List.replicate (n - limit) false

theorem firstAllowed_succ (limit n : ℕ) :
    firstAllowed limit (n + 1) = firstAllowed limit n ++ [decide (n + 1 ≤ limit)] := by
  by_cases h : n + 1 ≤ limit
  · have hmin : min limit (n + 1) = n + 1 ∧ min limit n = n := by omega
    have hsub : n + 1 - limit = 0 ∧ n - limit = 0 := by omega
    simp [firstAllowed, hmin, hsub, h, List.replicate_succ']
  · have hmin : min limit (n + 1) = limit ∧ min limit n = limit := by omega
    have hsub : n + 1 - limit = n - limit + 1 := by omega
    simp [firstAllowed, hmin, hsub, h, List.replicate_succ']

/-- What holds of the log of a counter with windows of length `w` at least. -/
structure WindowLaw (limit : ℕ) (w : T) (lasts : T → T → Prop) (log : List (Tick T)) : Prop where
  /-- In an interval of length `w` twice the limit is allowed at most. -/
  sliding : ∀ a, inside w a limit log ≤ 2 * limit
  /-- Of the hits of one window the first ones are allowed, up to the limit. -/
  window : ∀ later during opener past, log = later ++ (during ++ opener :: past) →
    opener.opens = true → (∀ x ∈ during, x.opens = false) →
      ((during ++ [opener]).map (allowed limit)).reverse = firstAllowed limit (during.length + 1) ∧
        ∀ x ∈ during, lasts opener.time x.time
  /-- The next window opens when this one has been open for `w`. -/
  reopens : ∀ later next during opener past, log = later ++ next :: (during ++ opener :: past) →
    next.opens = true → opener.opens = true → (∀ x ∈ during, x.opens = false) →
      opener.time + w ≤ next.time
  /-- Every hit falls into a window. -/
  opened : ∀ later x, log = later ++ [x] → x.opens = true

namespace Windowed
variable {w opened : T} {lasts : T → T → Prop} {count : ℕ} {log : List (Tick T)}

/-- The window that is open, from the hit that opened it on. -/
theorem window {during past : List (Tick T)} {opener : Tick T}
    (h : Windowed w lasts opened count (during ++ opener :: past)) (hopens : opener.opens = true)
    (hduring : ∀ x ∈ during, x.opens = false) (limit : ℕ) :
    opened = opener.time ∧ count = during.length + 1 ∧
      ((during ++ [opener]).map (allowed limit)).reverse =
        firstAllowed limit (during.length + 1) ∧ ∀ x ∈ during, lasts opener.time x.time := by
  induction during generalizing opened count with
  | nil =>
    have hone : [decide (1 ≤ limit)] = firstAllowed limit 1 := by
      rw [firstAllowed_succ]
      simp [firstAllowed]
    rw [List.nil_append] at h
    cases h with
    | first t => exact ⟨rfl, rfl, hone, fun x hx => nomatch hx⟩
    | continues h ht hl => cases hopens
    | reopens h ht hw => exact ⟨rfl, rfl, hone, fun x hx => nomatch hx⟩
  | cons x during ih =>
    rw [List.cons_append] at h
    generalize hlog : during ++ opener :: past = rest at h
    cases h with
    | first t => simp at hlog
    | continues h ht hl =>
      obtain ⟨ho, hc, hwindow, hlasts⟩ :=
        ih (hlog ▸ h) fun y hy => hduring y (List.mem_cons_of_mem _ hy)
      refine ⟨ho, by rw [hc]; rfl, ?_, ?_⟩
      · rw [List.cons_append, List.map_cons, List.reverse_cons, hwindow, List.length_cons,
          firstAllowed_succ _ (during.length + 1), hc, allowed]
      · intro x hx
        rcases List.mem_cons.mp hx with rfl | hx
        · exact ho ▸ hl
        · exact hlasts x hx
    | reopens h ht hw =>
      have hx := hduring _ List.mem_cons_self
      cases hx

theorem law [IsOrderedAddMonoid T] (h : Windowed w lasts opened count log) (limit : ℕ) :
    WindowLaw limit w lasts log where
  sliding a := (h.inside_le a limit).2.2
  window later during opener past heq hopens hduring := by
    obtain ⟨_, _, h⟩ := of_append (by simp) (heq ▸ h)
    exact (h.window hopens hduring limit).2.2
  reopens later next during opener past heq hnext hopens hduring := by
    obtain ⟨_, _, h⟩ := of_append (by simp) (heq ▸ h)
    generalize hlog : during ++ opener :: past = rest at h
    cases h with
    | first t => simp at hlog
    | continues h ht hl => cases hnext
    | reopens h ht hw => exact ((hlog ▸ h).window hopens hduring limit).1 ▸ hw
  opened later x heq := by
    obtain ⟨_, _, h⟩ := of_append (by simp) (heq ▸ h)
    cases h with
    | first t => rfl
    | continues h ht hl => cases h
    | reopens h ht hw => cases h

end Windowed

theorem WindowLaw.nil (limit : ℕ) (w : T) (lasts : T → T → Prop) :
    WindowLaw limit w lasts ([] : List (Tick T)) where
  sliding a := by simp
  window later during opener past heq := by simp at heq
  reopens later next during opener past heq := by simp at heq
  opened later x heq := by simp at heq

end EnvVault.FixedWindow
