import Mathlib.Data.List.Nodup
import Mathlib.Data.List.Perm.Basic
import Mathlib.Data.Nat.Find
import Mathlib.Order.Lattice
import Mathlib.Order.Nat

/-!
# Pages of a sorted query

Rows are read page by page, and each page is cut from an order of its own: the rows
descend by a key, and rows with equal keys may come in another order each time. The pages
fit together for all such orders if and only if no two rows with equal keys are kept apart
by the end of a page.
-/
namespace EnvVault.Pagination

variable {α K : Type} [LinearOrder K]

/-- An order in which the rows may come. -/
structure Descending (key : α → K) (rows order : List α) : Prop where
  perm : order.Perm rows
  sorted : order.Pairwise fun a b => key b ≤ key a

/-- The rows of a page. -/
def page (limit number : ℕ) (order : List α) : List α := (order.drop (number * limit)).take limit

/-- The pages are read up to the first empty one. -/
def Collected (pages : ℕ → List α) (out : List α) : Prop :=
  ∃ n, pages n = [] ∧ (∀ k < n, pages k ≠ []) ∧ out = (List.range n).flatMap pages

/-- No page ends between two rows with the same key. -/
def Aligned (key : α → K) (limit : ℕ) (rows : List α) : Prop :=
  ∀ t number, ¬ (rows.countP (fun a => decide (t < key a)) < number * limit ∧
    number * limit < rows.countP fun a => decide (t ≤ key a))

theorem mem_page_iff {limit number : ℕ} {order : List α} {a : α} : a ∈ page limit number order ↔
    ∃ i, number * limit ≤ i ∧ i < number * limit + limit ∧ order[i]? = some a := by
  rw [page, List.mem_iff_getElem?]
  constructor
  · rintro ⟨i, hi⟩
    rw [List.getElem?_take] at hi
    split at hi
    · rename_i hlt
      rw [List.getElem?_drop] at hi
      exact ⟨number * limit + i, by omega, by omega, hi⟩
    · cases hi
  · rintro ⟨i, hle, hlt, hi⟩
    refine ⟨i - number * limit, ?_⟩
    rw [List.getElem?_take, if_pos (by omega), List.getElem?_drop]
    rwa [Nat.add_sub_cancel' hle]

theorem page_eq_nil_iff {limit number : ℕ} (hlimit : 0 < limit) {order : List α} :
    page limit number order = [] ↔ order.length ≤ number * limit := by
  rw [page, List.take_eq_nil_iff, List.drop_eq_nil_iff]
  exact or_iff_right (by omega)

section
variable {key : α → K} {xs ys : List α} {a : α} {t : K}

/-- The rows with a greater key are the ones before. -/
theorem countP_lt_le (h : (xs ++ a :: ys).Pairwise fun a b => key b ≤ key a) :
    (xs ++ a :: ys).countP (fun b => decide (key a < key b)) ≤ xs.length := by
  have hafter : (a :: ys).countP (fun b => decide (key a < key b)) = 0 := by
    refine List.countP_eq_zero.mpr fun b hb => ?_
    rcases List.mem_cons.mp hb with rfl | hb
    · simp
    · have hle := (List.pairwise_cons.mp (List.pairwise_append.mp h).2.1).1 b hb
      simp [hle]
  rw [List.countP_append, hafter]
  exact List.countP_le_length

/-- The rows before have a key that is as great. -/
theorem length_lt_countP (h : (xs ++ a :: ys).Pairwise fun a b => key b ≤ key a) :
    xs.length < (xs ++ a :: ys).countP fun b => decide (key a ≤ key b) := by
  have hbefore : xs.countP (fun b => decide (key a ≤ key b)) = xs.length := by
    refine List.countP_eq_length.mpr fun b hb => ?_
    exact decide_eq_true ((List.pairwise_append.mp h).2.2 b hb a List.mem_cons_self)
  rw [List.countP_append, hbefore, List.countP_cons_of_pos (by simp)]
  omega

theorem key_le_of_countP (h : (xs ++ a :: ys).Pairwise fun a b => key b ≤ key a)
    (hcount : (xs ++ a :: ys).countP (fun b => decide (t < key b)) ≤ xs.length) : key a ≤ t := by
  by_contra hlt
  have hmono := List.countP_mono_left (l := xs ++ a :: ys)
    (p := fun b => decide (key a ≤ key b)) (q := fun b => decide (t < key b))
    fun b _ hb => decide_eq_true ((not_le.mp hlt).trans_le (of_decide_eq_true hb))
  have := length_lt_countP h
  omega

theorem le_key_of_countP (h : (xs ++ a :: ys).Pairwise fun a b => key b ≤ key a)
    (hcount : xs.length < (xs ++ a :: ys).countP fun b => decide (t ≤ key b)) : t ≤ key a := by
  by_contra hlt
  have hmono := List.countP_mono_left (l := xs ++ a :: ys)
    (p := fun b => decide (t ≤ key b)) (q := fun b => decide (key a < key b))
    fun b _ hb => decide_eq_true ((not_le.mp hlt).trans_le (of_decide_eq_true hb))
  have := countP_lt_le h
  omega

/-- The rows with a key that is as great come first. -/
theorem take_countP {order : List α} (h : order.Pairwise fun a b => key b ≤ key a) (t : K) :
    order.take (order.countP fun a => decide (t ≤ key a)) =
      order.filter fun a => decide (t ≤ key a) := by
  induction order with
  | nil => rfl
  | cons a order ih =>
    rw [List.pairwise_cons] at h
    by_cases ha : t ≤ key a
    · rw [List.countP_cons_of_pos (by simpa using ha), List.filter_cons_of_pos (by simpa using ha),
        List.take_succ_cons, ih h.2]
    · have hnone : ∀ b ∈ a :: order, ¬ decide (t ≤ key b) = true := by
        intro b hb
        rcases List.mem_cons.mp hb with rfl | hb
        · simpa using ha
        · have hlt := (h.1 b hb).trans_lt (not_le.mp ha)
          simpa using hlt
      rw [List.countP_eq_zero.mpr hnone, List.filter_eq_nil_iff.mpr hnone, List.take_zero]

end

section
variable {key : α → K} {limit : ℕ} {rows order order' : List α}

theorem Descending.countP_eq (h : Descending key rows order) (p : α → Bool) :
    order.countP p = rows.countP p := h.perm.countP_eq p

/-- A list is cut before one of its rows. -/
theorem exists_cut {i : ℕ} (hi : i < order.length) :
    ∃ xs a ys, order = xs ++ a :: ys ∧ xs.length = i := by
  refine ⟨order.take i, order[i], order.drop (i + 1), ?_, List.length_take_of_le hi.le⟩
  rw [← List.drop_eq_getElem_cons hi, List.take_append_drop]

/-- The rows before the end of a page are the same in all orders. -/
theorem Aligned.take_perm (h : Aligned key limit rows) (ho : Descending key rows order)
    (ho' : Descending key rows order') (number : ℕ) :
    (order.take (number * limit)).Perm (order'.take (number * limit)) := by
  rcases Nat.lt_or_ge (number * limit) rows.length with hlt | hge
  · rcases Nat.eq_zero_or_pos (number * limit) with hzero | hpos
    · rw [hzero, List.take_zero, List.take_zero]
    · have hlast : number * limit - 1 < order.length := by
        rw [ho.perm.length_eq]
        omega
      -- With the last row of the page all rows with its key have come.
      obtain ⟨xs, a, ys, rfl, hxs⟩ := exists_cut hlast
      have hbelow := countP_lt_le ho.sorted
      have habove := length_lt_countP ho.sorted
      have haligned := h (key a) number
      rw [ho.countP_eq] at hbelow habove
      have hcount : rows.countP (fun b => decide (key a ≤ key b)) = number * limit := by
        by_contra hne
        exact haligned ⟨by omega, by omega⟩
      have htake := take_countP ho.sorted (key a)
      have htake' := take_countP ho'.sorted (key a)
      rw [ho.countP_eq, hcount] at htake
      rw [ho'.countP_eq, hcount] at htake'
      rw [htake, htake']
      exact (ho.perm.trans ho'.perm.symm).filter _
  · rw [List.take_of_length_le (ho.perm.length_eq.trans_le hge),
      List.take_of_length_le (ho'.perm.length_eq.trans_le hge)]
    exact ho.perm.trans ho'.perm.symm

variable {orders : ℕ → List α}

/-- The first pages are the first rows, in order. -/
theorem Aligned.pages_perm (h : Aligned key limit rows)
    (horders : ∀ k, Descending key rows (orders k)) (ho : Descending key rows order) (n : ℕ) :
    ((List.range n).flatMap fun k => page limit k (orders k)).Perm (order.take (n * limit)) ∧
      ((List.range n).flatMap fun k => page limit k (orders k)).Pairwise
        fun a b => key b ≤ key a := by
  induction n generalizing order with
  | zero => simp
  | succ n ih =>
    obtain ⟨hperm, hsorted⟩ := ih (horders n)
    have hsplit : (orders n).take ((n + 1) * limit) =
        (orders n).take (n * limit) ++ page limit n (orders n) := by
      rw [Nat.succ_mul, List.take_add, page]
    have hcut := (horders n).sorted
    rw [← List.take_append_drop (n * limit) (orders n), List.pairwise_append] at hcut
    rw [List.range_succ, List.flatMap_append, List.flatMap_singleton]
    constructor
    · refine (hperm.append_right _).trans ?_
      rw [← hsplit]
      exact h.take_perm (horders n) ho (n + 1)
    · refine List.pairwise_append.mpr ⟨hsorted, hcut.2.1.sublist (List.take_sublist _ _), ?_⟩
      intro a ha b hb
      exact hcut.2.2 a (hperm.mem_iff.mp ha) b (List.mem_of_mem_take hb)

/-- Aligned pages give every row once, in order. -/
theorem Aligned.collected (h : Aligned key limit rows) (hlimit : 0 < limit)
    (horders : ∀ k, Descending key rows (orders k)) :
    ∃ out, Collected (fun k => page limit k (orders k)) out ∧ Descending key rows out := by
  have hend : ∃ n, page limit n (orders n) = [] := by
    refine ⟨rows.length, (page_eq_nil_iff hlimit).mpr ?_⟩
    rw [(horders _).perm.length_eq]
    exact Nat.le_mul_of_pos_right _ hlimit
  classical
  have hlast := (page_eq_nil_iff hlimit).mp (Nat.find_spec hend)
  obtain ⟨hperm, hsorted⟩ := h.pages_perm horders (horders (Nat.find hend)) (Nat.find hend)
  rw [List.take_of_length_le hlast] at hperm
  refine ⟨_, ⟨Nat.find hend, Nat.find_spec hend, fun k hk => Nat.find_min hend hk, rfl⟩, ?_⟩
  exact ⟨hperm.trans (horders _).perm, hsorted⟩

theorem countP_le_eq (t : K) : rows.countP (fun a => decide (t ≤ key a)) =
    rows.countP (fun a => decide (t < key a)) + (rows.map key).count t := by
  induction rows with
  | nil => rfl
  | cons a rows ih =>
    simp only [List.countP_cons, List.map_cons, List.count_cons, decide_eq_true_eq, beq_iff_eq]
    rcases lt_trichotomy t (key a) with hlt | heq | hgt
    · simp only [hlt.le, hlt, hlt.ne', if_true, if_false]
      omega
    · simp only [← heq, le_refl, lt_irrefl, if_true, if_false]
      omega
    · simp only [not_le.mpr hgt, not_lt.mpr hgt.le, hgt.ne, if_false]
      omega

/-- Where the keys are distinct any pages are aligned. -/
theorem aligned_of_nodup (h : (rows.map key).Nodup) (limit : ℕ) : Aligned key limit rows := by
  rintro t number ⟨hbelow, habove⟩
  have hone := List.nodup_iff_count_le_one.mp h t
  rw [countP_le_eq] at habove
  omega

/-- Two rows with the same key may change places. -/
theorem Descending.swap {xs ys : List α} {a b : α}
    (h : Descending key rows (xs ++ a :: b :: ys)) (heq : key a = key b) :
    Descending key rows (xs ++ b :: a :: ys) where
  perm := ((List.Perm.swap a b ys).append_left xs).trans h.perm
  sorted := by
    have hsorted := h.sorted
    simp only [List.pairwise_append, List.pairwise_cons, List.mem_cons, forall_eq_or_imp]
      at hsorted ⊢
    obtain ⟨hxs, ⟨⟨-, ha⟩, hb, hys⟩, hcross⟩ := hsorted
    refine ⟨hxs, ⟨⟨heq.le, hb⟩, ha, hys⟩, fun x hx => ?_⟩
    obtain ⟨hxa, hxb, hxy⟩ := hcross x hx
    exact ⟨hxb, hxa, hxy⟩

/-- A page that ends between two rows with the same key, in some order. -/
theorem exists_split (ho : Descending key rows order) (h : ¬ Aligned key limit rows) :
    ∃ number xs a b ys, order = xs ++ a :: b :: ys ∧ xs.length + 1 = number * limit ∧
      key a = key b := by
  obtain ⟨t, number, hbelow, habove⟩ : ∃ t number,
      rows.countP (fun a => decide (t < key a)) < number * limit ∧
        number * limit < rows.countP fun a => decide (t ≤ key a) := by
    by_contra hnone
    exact h fun t number hlt => hnone ⟨t, number, hlt⟩
  have hlength : number * limit < order.length := by
    rw [ho.perm.length_eq]
    exact habove.trans_le List.countP_le_length
  rw [← ho.countP_eq] at hbelow habove
  have hlast : number * limit - 1 < order.length := by omega
  obtain ⟨xs, a, rest, rfl, hxs⟩ := exists_cut hlast
  cases rest with
  | nil =>
    simp only [List.length_append, List.length_singleton] at hlength
    omega
  | cons b ys =>
    refine ⟨number, xs, a, b, ys, rfl, by omega, le_antisymm ?_ ?_⟩
    · have hassoc : xs ++ a :: b :: ys = (xs ++ [a]) ++ b :: ys := by simp
      have hsorted := ho.sorted
      rw [hassoc] at hsorted habove
      have ha : key a ≤ t := key_le_of_countP ho.sorted (by omega)
      have hb : t ≤ key b := by
        refine le_key_of_countP hsorted ?_
        rw [List.length_append, List.length_singleton]
        omega
      exact ha.trans hb
    · exact (List.pairwise_cons.mp (List.pairwise_append.mp ho.sorted).2.1).1 b List.mem_cons_self

/-- Then the rows may come in such orders that one of them is on two pages. -/
theorem not_partitioned (hlimit : 0 < limit) (hnodup : rows.Nodup)
    (ho : Descending key rows order) (h : ¬ Aligned key limit rows) :
    ∃ orders : ℕ → List α, (∀ k, Descending key rows (orders k)) ∧
      ∀ out, Collected (fun k => page limit k (orders k)) out → ¬ Descending key rows out := by
  obtain ⟨number, xs, a, b, ys, rfl, hxs, heq⟩ := exists_split ho h
  have hswap := ho.swap heq
  refine ⟨fun k => if k = number then xs ++ b :: a :: ys else xs ++ a :: b :: ys, fun k => ?_, ?_⟩
  · dsimp only
    split
    · exact hswap
    · exact ho
  · rintro out ⟨n, hend, -, rfl⟩ hout
    obtain ⟨before, rfl⟩ : ∃ before, number = before + 1 :=
      Nat.exists_eq_succ_of_ne_zero (by rintro rfl; omega)
    have hn : before + 1 < n := by
      have hlength : (xs ++ a :: b :: ys).length ≤ n * limit := by
        rw [page_eq_nil_iff hlimit] at hend
        dsimp only at hend
        split at hend
        · simpa using hend
        · exact hend
      by_contra hle
      have := Nat.mul_le_mul_right limit (Nat.not_lt.mp hle)
      simp only [List.length_append, List.length_cons] at hlength
      omega
    -- The row that changes places is the last of a page and the first of the next one.
    have hfirst : a ∈ page limit before (xs ++ a :: b :: ys) := by
      refine mem_page_iff.mpr ⟨xs.length, ?_, ?_, by simp⟩
      · rw [Nat.succ_mul] at hxs
        omega
      · rw [Nat.succ_mul] at hxs
        omega
    have hsecond : a ∈ page limit (before + 1) (xs ++ b :: a :: ys) := by
      refine mem_page_iff.mpr ⟨xs.length + 1, by omega, by omega, ?_⟩
      rw [List.getElem?_append_right (by omega)]
      simp
    have hnodup' := hout.perm.nodup_iff.mpr hnodup
    have hdisjoint := (List.nodup_flatMap.mp hnodup').2
    rw [List.pairwise_iff_getElem] at hdisjoint
    have hpages := hdisjoint before (before + 1) (by simp; omega) (by simpa using hn) (by omega)
    simp only [List.getElem_range, Function.onFun, if_true] at hpages
    rw [if_neg (by omega)] at hpages
    exact hpages hfirst hsecond

/-- The pages give every row once and in order, however rows with equal keys come, if and
only if they are aligned. -/
theorem partitioned_iff (hlimit : 0 < limit) (hnodup : rows.Nodup)
    (ho : Descending key rows order) :
    (∀ orders : ℕ → List α, (∀ k, Descending key rows (orders k)) →
      ∃ out, Collected (fun k => page limit k (orders k)) out ∧ Descending key rows out) ↔
      Aligned key limit rows := by
  constructor
  · intro h
    by_contra hsplit
    obtain ⟨orders, horders, hnone⟩ := not_partitioned hlimit hnodup ho hsplit
    obtain ⟨out, hcollected, hout⟩ := h orders horders
    exact hnone out hcollected hout
  · exact fun h orders horders => h.collected hlimit horders

end

section
variable {key : α → K} {limit m : ℕ} {rows order : ℕ → List α} {a : α}

/-- A position that is not on the pages read so far, and never falls behind, is on one of
the next pages as soon as one of them reaches beyond it. -/
theorem exists_page_of_position (pos : ℕ → ℕ) (hmono : ∀ k, k + 1 < m → pos k ≤ pos (k + 1))
    (hlast : ∃ k < m, pos k < (k + 1) * limit) :
    ∃ k < m, k * limit ≤ pos k ∧ pos k < (k + 1) * limit := by
  obtain ⟨hm, hbeyond⟩ := Nat.find_spec hlast
  refine ⟨Nat.find hlast, hm, ?_, hbeyond⟩
  cases hk : Nat.find hlast with
  | zero => omega
  | succ k =>
    have hbefore := Nat.find_min hlast (show k < Nat.find hlast by omega)
    have hgrow := hmono k (by omega)
    by_contra hlt
    exact hbefore ⟨by omega, by omega⟩

/-- While the pages are read one after the other rows may be added, and rows with equal keys
may come in another order each time: if no page ends between rows with equal keys and one of
the pages is not full, every row that was there in the beginning is on one of the pages. -/
theorem mem_page_of_growing (horder : ∀ k < m, Descending key (rows k) (order k))
    (hgrow : ∀ k, k + 1 < m → (rows k).Sublist (rows (k + 1)))
    (haligned : ∀ k < m, Aligned key limit (rows k))
    (hlast : ∃ k < m, (page limit k (order k)).length < limit) (ha : a ∈ rows 0) :
    ∃ k < m, a ∈ page limit k (order k) := by
  have hmem : ∀ k < m, a ∈ rows k := by
    intro k
    induction k with
    | zero => exact fun _ => ha
    | succ k ih => exact fun hk => (hgrow k hk).subset (ih (by omega))
  -- the rows with a greater key stand before the row
  have hbeyond : ∃ k < m, (rows k).countP (fun b => decide (key a < key b)) < (k + 1) * limit := by
    obtain ⟨k, hk, hshort⟩ := hlast
    refine ⟨k, hk, ?_⟩
    have hlength : (rows k).length < (k + 1) * limit := by
      rw [page, List.length_take, List.length_drop, (horder k hk).perm.length_eq] at hshort
      rw [Nat.succ_mul]
      omega
    exact List.countP_le_length.trans_lt hlength
  obtain ⟨k, hk, hle, hlt⟩ := exists_page_of_position
    (fun k => (rows k).countP fun b => decide (key a < key b))
    (fun k hk => (hgrow k hk).countP_le) hbeyond
  have haround := haligned k hk (key a) (k + 1)
  obtain ⟨xs, ys, hsplit⟩ := List.append_of_mem ((horder k hk).perm.mem_iff.mpr (hmem k hk))
  have hsorted := (horder k hk).sorted
  have hgreater := (horder k hk).countP_eq fun b => decide (key a < key b)
  have hgeq := (horder k hk).countP_eq fun b => decide (key a ≤ key b)
  rw [hsplit] at hsorted hgreater hgeq
  have hbefore := countP_lt_le hsorted
  have hafter := length_lt_countP hsorted
  refine ⟨k, hk, mem_page_iff.mpr ⟨xs.length, by omega, ?_, by simp [hsplit]⟩⟩
  rw [Nat.succ_mul] at hlt haround
  by_contra hout
  exact haround ⟨hlt, by omega⟩

end

end EnvVault.Pagination
