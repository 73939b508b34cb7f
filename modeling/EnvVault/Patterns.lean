import Mathlib.Computability.RegularExpressions

/-!
# Character classes and separated words

The patterns of string fields are repetitions of a character class, and sequences of
such words with a separator between them. What they match is said without the regular
expression: which characters stand where, and what a split at the separator returns.
-/
namespace EnvVault.Patterns

variable {α : Type}

/-- `[cs]`. -/
def anyOf (cs : List α) : RegularExpression α := (cs.map RegularExpression.char).sum

/-- `P+`. -/
def oneOrMore (P : RegularExpression α) : RegularExpression α := P * P.star

/-- `P(?:aP)*`. -/
def separated (a : α) (P : RegularExpression α) : RegularExpression α :=
  P * (RegularExpression.char a * P).star

theorem mem_anyOf {cs xs : List α} : xs ∈ (anyOf cs).matches' ↔ ∃ c ∈ cs, xs = [c] := by
  induction cs with
  | nil => simp [anyOf, Language.notMem_zero]
  | cons c cs ih =>
    have hsum : anyOf (c :: cs) = RegularExpression.char c + anyOf cs := rfl
    rw [hsum, RegularExpression.matches'_add, RegularExpression.matches'_char, Language.mem_add,
      ih]
    simp only [List.mem_cons, exists_eq_or_imp]
    exact or_congr_left Iff.rfl

theorem mem_star_anyOf {cs xs : List α} :
    xs ∈ (anyOf cs).star.matches' ↔ ∀ c ∈ xs, c ∈ cs := by
  rw [RegularExpression.matches'_star, Language.mem_kstar]
  constructor
  · rintro ⟨L, rfl, hL⟩ c hc
    obtain ⟨y, hy, hcy⟩ := List.mem_flatten.mp hc
    obtain ⟨c', hc', rfl⟩ := mem_anyOf.mp (hL y hy)
    obtain rfl := List.mem_singleton.mp hcy
    exact hc'
  · intro h
    refine ⟨xs.map fun c => [c], ?_, fun y hy => ?_⟩
    · induction xs with
      | nil => rfl
      | cons x xs ih =>
        rw [List.map_cons, List.flatten_cons, ← ih fun c hc => h c (List.mem_cons_of_mem _ hc)]
        rfl
    · obtain ⟨c, hc, rfl⟩ := List.mem_map.mp hy
      exact mem_anyOf.mpr ⟨c, h c hc, rfl⟩

/-- One character of a class, then any number of another. -/
theorem mem_anyOf_mul_star {cs ds xs : List α} :
    xs ∈ (anyOf cs * (anyOf ds).star).matches' ↔
      ∃ c rest, xs = c :: rest ∧ c ∈ cs ∧ ∀ x ∈ rest, x ∈ ds := by
  rw [RegularExpression.matches'_mul, Language.mem_mul]
  constructor
  · rintro ⟨y, hy, z, hz, rfl⟩
    obtain ⟨c, hc, rfl⟩ := mem_anyOf.mp hy
    exact ⟨c, z, rfl, hc, mem_star_anyOf.mp hz⟩
  · rintro ⟨c, rest, rfl, hc, hrest⟩
    exact ⟨[c], mem_anyOf.mpr ⟨c, hc, rfl⟩, rest, mem_star_anyOf.mpr hrest, rfl⟩

/-- A word of a class: not empty, and nothing else in it. -/
theorem mem_oneOrMore {cs xs : List α} :
    xs ∈ (oneOrMore (anyOf cs)).matches' ↔ xs ≠ [] ∧ ∀ c ∈ xs, c ∈ cs := by
  rw [oneOrMore, mem_anyOf_mul_star]
  constructor
  · rintro ⟨c, rest, rfl, hc, hrest⟩
    exact ⟨List.cons_ne_nil _ _, List.forall_mem_cons.mpr ⟨hc, hrest⟩⟩
  · rintro ⟨hne, h⟩
    cases xs with
    | nil => exact absurd rfl hne
    | cons c rest =>
      obtain ⟨hc, hrest⟩ := List.forall_mem_cons.mp h
      exact ⟨c, rest, rfl, hc, hrest⟩

/-- The words of `P` with the separator between them. -/
theorem mem_separated {a : α} {P : RegularExpression α} {xs : List α} :
    xs ∈ (separated a P).matches' ↔
      ∃ words : List (List α), words ≠ [] ∧ xs = [a].intercalate words ∧
        ∀ w ∈ words, w ∈ P.matches' := by
  rw [separated, RegularExpression.matches'_mul, Language.mem_mul]
  constructor
  · rintro ⟨w, hw, tail, htail, rfl⟩
    rw [RegularExpression.matches'_star, Language.mem_kstar] at htail
    obtain ⟨L, rfl, hL⟩ := htail
    induction L generalizing w with
    | nil => exact ⟨[w], by simp, by simp, by simpa using hw⟩
    | cons y L ih =>
      have hy := hL y List.mem_cons_self
      rw [RegularExpression.matches'_mul, RegularExpression.matches'_char, Language.mem_mul] at hy
      obtain ⟨sep, rfl, w', hw', rfl⟩ := hy
      obtain ⟨words, hne, heq, hwords⟩ := ih w' hw' fun z hz => hL z (List.mem_cons_of_mem _ hz)
      refine ⟨w :: words, List.cons_ne_nil _ _, ?_, List.forall_mem_cons.mpr ⟨hw, hwords⟩⟩
      rw [List.intercalate_cons_of_ne_nil hne, ← heq]
      simp
  · rintro ⟨words, hne, rfl, hwords⟩
    induction words with
    | nil => exact absurd rfl hne
    | cons w words ih =>
      obtain ⟨hw, hrest⟩ := List.forall_mem_cons.mp hwords
      cases words with
      | nil =>
        refine ⟨w, hw, [], ?_, by simp⟩
        rw [RegularExpression.matches'_star]
        exact Language.nil_mem_kstar _
      | cons w' words =>
        obtain ⟨v, hv, tail, htail, heq⟩ := ih (List.cons_ne_nil _ _) hrest
        rw [RegularExpression.matches'_star, Language.mem_kstar] at htail
        obtain ⟨L, rfl, hL⟩ := htail
        refine ⟨w, hw, a :: v ++ L.flatten, ?_, ?_⟩
        · rw [RegularExpression.matches'_star, Language.mem_kstar]
          refine ⟨(a :: v) :: L, rfl, List.forall_mem_cons.mpr ⟨?_, hL⟩⟩
          rw [RegularExpression.matches'_mul, RegularExpression.matches'_char, Language.mem_mul]
          exact ⟨[a], rfl, v, hv, rfl⟩
        · rw [List.intercalate_cons_cons, ← heq]
          simp

/-- Split at a separator that no word contains, the parts are the words. -/
theorem mem_separated_words [DecidableEq α] {a : α} {cs xs : List α} (ha : a ∉ cs) :
    xs ∈ (separated a (oneOrMore (anyOf cs))).matches' ↔
      ∀ part ∈ xs.splitOn a, part ≠ [] ∧ ∀ c ∈ part, c ∈ cs := by
  rw [mem_separated]
  constructor
  · rintro ⟨words, hne, rfl, hwords⟩
    rw [List.splitOn_intercalate a (fun w hw h => ha ((mem_oneOrMore.mp (hwords w hw)).2 a h)) hne]
    exact fun w hw => mem_oneOrMore.mp (hwords w hw)
  · intro h
    exact ⟨xs.splitOn a, List.splitOn_ne_nil a xs, (List.intercalate_splitOn a).symm,
      fun w hw => mem_oneOrMore.mpr (h w hw)⟩

end EnvVault.Patterns
