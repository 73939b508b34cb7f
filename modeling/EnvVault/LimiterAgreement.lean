import EnvVault.RateLimiters
import Mathlib.Algebra.Order.Group.Int

/-!
# The two limiters agree

One hit after the other, a counter of Redis holds the count and the end of the window
that the dictionary holds, also after the window is over: the dictionary keeps the stale
entry, and Redis forgets the counter, until the next hit on the key.
-/
namespace EnvVault

variable {T : Type} [AddCommGroup T] [LinearOrder T]

/-- The counters of Redis are the entries of the dictionary. -/
structure LimitersAgree (limiter : MemoryRateLimiter T) (redis : Redis T) : Prop where
  store : ∀ key, redis.store (fullKey key) =
    (limiter.windows key).map fun window => ⟨window.1, some window.2⟩
  counted : ∀ key, ∀ window ∈ limiter.windows key, 0 < window.1

omit [AddCommGroup T] [LinearOrder T] in
/-- Both limiters store the same for one key. -/
theorem LimitersAgree.update {limiter : MemoryRateLimiter T} {redis : Redis T}
    (h : LimitersAgree limiter redis) (key : String) {count : ℕ} (hpos : 0 < count)
    (expiresAt : T) : LimitersAgree
      ⟨Function.update limiter.windows key (some (count, expiresAt))⟩
      ⟨Function.update redis.store (fullKey key) (some ⟨count, some expiresAt⟩)⟩ := by
  constructor
  · intro other
    by_cases hkey : other = key
    · subst hkey
      simp
    · dsimp only
      rw [Function.update_of_ne hkey, Function.update_of_ne fun he => hkey (fullKey_injective he)]
      exact h.store other
  · intro other window hwindow
    by_cases hkey : other = key
    · subst hkey
      simp only [Function.update_self, Option.mem_some_iff] at hwindow
      exact hwindow ▸ hpos
    · dsimp only at hwindow
      rw [Function.update_of_ne hkey] at hwindow
      exact h.counted other window hwindow

theorem LimitersAgree.hit {limiter : MemoryRateLimiter T} {redis : Redis T}
    (h : LimitersAgree limiter redis) (x : Hit T) {now : T} (hnow : 0 ≤ now) :
    (limiter.hit x now).1 = (RedisRateLimiter.hit redis x now).1 ∧
      LimitersAgree (limiter.hit x now).2 (RedisRateLimiter.hit redis x now).2 := by
  by_cases hover : ((limiter.windows x.key).getD (0, 0)).2 ≤ now
  · have hget : redis.get (fullKey x.key) now = none := by
      refine Redis.get_eq_none.mpr fun counter hcounter => ?_
      rw [h.store, Option.map_eq_some_iff] at hcounter
      obtain ⟨window, hwindow, rfl⟩ := hcounter
      rw [hwindow] at hover
      exact ⟨window.2, rfl, hover⟩
    rw [MemoryRateLimiter.hit_over hover, RedisRateLimiter.hit_absent hget]
    exact ⟨rfl, h.update x.key one_pos _⟩
  · cases hstored : limiter.windows x.key with
    | none => exact absurd (by rw [hstored]; exact hnow) hover
    | some window =>
      rw [hstored] at hover
      have hin : now < window.2 := not_le.mp hover
      have hget : redis.get (fullKey x.key) now = some ⟨window.1, some window.2⟩ :=
        Redis.get_eq_some.mpr ⟨by rw [h.store, hstored]; rfl, fun e he => Option.some.inj he ▸ hin⟩
      rw [MemoryRateLimiter.hit_in_window hstored hin,
        RedisRateLimiter.hit_counted hget (h.counted x.key window hstored)]
      exact ⟨rfl, h.update x.key (Nat.succ_pos _) _⟩

theorem LimitersAgree.answers {limiter : MemoryRateLimiter T} {redis : Redis T}
    (h : LimitersAgree limiter redis) (hits : List (Hit T × T)) (hpos : ∀ x ∈ hits, 0 ≤ x.2) :
    limiter.answers hits = RedisRateLimiter.answers redis hits := by
  induction hits generalizing limiter redis with
  | nil => rfl
  | cons x hits ih =>
    obtain ⟨hanswer, hagree⟩ := h.hit x.1 (hpos x List.mem_cons_self)
    rw [MemoryRateLimiter.answers, RedisRateLimiter.answers, hanswer,
      ih hagree fun y hy => hpos y (List.mem_cons_of_mem _ hy)]

/-- From the start both limiters answer every sequence of hits in the same way, whatever
their keys, limits and windows; so do calls that send their commands to Redis one call
after the other. -/
theorem limiters_agree (hits : List (Hit T × T)) (hpos : ∀ x ∈ hits, 0 ≤ x.2) :
    MemoryRateLimiter.new.answers hits = RedisRateLimiter.answers .empty hits ∧
    ∀ {ι : Type} [DecidableEq ι] (calls : ι → Hit T) (turns : List (ι × T)),
      hits = turns.map (fun x => (calls x.1, x.2)) → (turns.map Prod.fst).Nodup →
      (turns.map Prod.snd).Pairwise (· ≤ ·) →
        ∃ s, (RedisRateLimiter.State.initial 0).run calls
            (RedisRateLimiter.oneAtATime calls .empty turns) = some s ∧
          turns.map (fun x => s.phase x.1) =
            (MemoryRateLimiter.new.answers hits).map .returned := by
  have hstart : LimitersAgree (T := T) .new .empty := ⟨fun _ => rfl, fun _ _ h => nomatch h⟩
  have hagree := hstart.answers hits hpos
  refine ⟨hagree, fun {ι} _ calls turns hturns hnodup hmono => ?_⟩
  have hclock : ∀ x ∈ turns, 0 ≤ x.2 := fun x hx =>
    hpos (calls x.1, x.2) (hturns ▸ List.mem_map.mpr ⟨x, hx, rfl⟩)
  obtain ⟨s, hs, -, hreturned⟩ := RedisRateLimiter.State.run_oneAtATime
    (s := .initial 0) hnodup hmono hclock fun _ _ => rfl
  refine ⟨s, hs, hreturned.trans ?_⟩
  rw [hagree, hturns]
  rfl

def boundaryCalls : ℕ → Hit ℤ := fun _ => ⟨"a", 1, 60⟩

/-- The last hit comes when the window of the first is just over. -/
def boundaryTurns : List (ℕ × ℤ) := [(0, 5), (1, 64), (2, 65)]

def boundaryHits : List (Hit ℤ × ℤ) := boundaryTurns.map fun x => (boundaryCalls x.1, x.2)

theorem limiters_agree_boundary :
    MemoryRateLimiter.new.answers boundaryHits = RedisRateLimiter.answers .empty boundaryHits ∧
    MemoryRateLimiter.new.answers boundaryHits = [true, false, true] ∧
    ∃ s, (RedisRateLimiter.State.initial 0).run boundaryCalls
        (RedisRateLimiter.oneAtATime boundaryCalls .empty boundaryTurns) = some s ∧
      boundaryTurns.map (fun x => s.phase x.1) =
        [.returned true, .returned false, .returned true] := by
  obtain ⟨hagree, hturns⟩ := limiters_agree boundaryHits (by decide)
  have hanswers : MemoryRateLimiter.new.answers boundaryHits = [true, false, true] := by decide
  obtain ⟨s, hs, hreturned⟩ := hturns boundaryCalls boundaryTurns rfl (by decide) (by decide)
  rw [hanswers] at hreturned
  exact ⟨hagree, hanswers, s, hs, hreturned⟩

end EnvVault
