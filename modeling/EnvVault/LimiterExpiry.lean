import EnvVault.RateLimiters
import Mathlib.Data.List.Induction
import Mathlib.Algebra.Order.Group.Int

/-!
# The expiry of the counters in Redis

Only the call whose INCR created a counter sends the EXPIRE. As long as it is on its way
the counter has its expiry to come; if it stops before, the counter stays for good and
refuses every hit beyond its limit.
-/
namespace EnvVault.RedisRateLimiter
open EnvVault.FixedWindow

variable {T : Type} [AddCommGroup T] [LinearOrder T] {ι : Type} [DecidableEq ι]
  {calls : ι → Hit T} {s t u : State ι T}

/-- No call stands between its two commands. -/
def State.Idle (s : State ι T) : Prop := ∀ i, s.phase i ≠ .created

/-- No call of the run stops after its INCR has created a counter and before its EXPIRE. -/
def State.SendsExpiries (calls : ι → Hit T) (s : State ι T) (as : List (Action ι T)) : Prop :=
  ∀ pre i t, pre ++ [.stop i] <+: as → s.run calls pre = some t → t.phase i ≠ .created

/-- Every counter that exists has an expiry. -/
def State.CountersExpire (s : State ι T) : Prop :=
  ∀ key counter, s.redis.store (fullKey key) = some counter → counter.expiresAt ≠ none

/-- What holds of the counters after these actions: the call that created a counter is the
only one to give it an expiry, and an expiry is the time of a command plus the window of
its call. -/
structure ExpiryInv (calls : ι → Hit T) (as : List (Action ι T)) (s : State ι T) : Prop where
  counted : ∀ key counter, s.redis.store (fullKey key) = some counter → 0 < counter.count
  created : ∀ i, s.phase i = .created →
    ∃ count, s.redis.store (fullKey (calls i).key) = some ⟨count, none⟩
  lone : ∀ i j, s.phase i = .created → s.phase j = .created → (calls i).key = (calls j).key → i = j
  expiry : ∀ key count e, s.redis.store (fullKey key) = some ⟨count, some e⟩ →
    ∃ i now, .command i now ∈ as ∧ (calls i).key = key ∧ e = now + (calls i).windowSeconds

omit [LinearOrder T] [DecidableEq ι] in
theorem ExpiryInv.initial (clock : T) : ExpiryInv calls [] (State.initial clock) := by
  refine ⟨fun key counter h => ?_, fun i h => ?_, fun i j h => ?_, fun key count e h => ?_⟩
  · cases h
  · cases h
  · cases h
  · cases h

/-- The phases after a step of `i`. -/
theorem phase_cases {phase : ι → Phase} {i j : ι} {p q : Phase}
    (h : Function.update phase i p j = q) : j = i ∧ p = q ∨ j ≠ i ∧ phase j = q := by
  by_cases hj : j = i
  · subst hj
    rw [Function.update_self] at h
    exact Or.inl ⟨rfl, h⟩
  · rw [Function.update_of_ne hj] at h
    exact Or.inr ⟨hj, h⟩

omit [AddCommGroup T] in
/-- A counter after an INCR: it is a new one, or it has kept its expiry. -/
theorem Redis.incr_cases (redis : Redis T) (key : String) (now : T)
    (hpos : ∀ counter, redis.store key = some counter → 0 < counter.count) :
    (redis.get key now = none ∧ (redis.incr key now).1 = 1 ∧
      (redis.incr key now).2.store key = some ⟨1, none⟩) ∨
    ∃ counter, redis.get key now = some counter ∧ (redis.incr key now).1 ≠ 1 ∧
      (redis.incr key now).2.store key = some ⟨counter.count + 1, counter.expiresAt⟩ := by
  have hafter : (redis.incr key now).2.store key = some ⟨(redis.incr key now).1,
      ((redis.get key now).getD ⟨0, none⟩).expiresAt⟩ := Function.update_self _ _ _
  rw [hafter, Redis.incr_eq]
  cases hget : redis.get key now with
  | none => exact Or.inl ⟨rfl, rfl, rfl⟩
  | some counter =>
    refine Or.inr ⟨counter, rfl, ?_, rfl⟩
    have := hpos counter (Redis.get_eq_some.mp hget).1
    simp only [Option.getD_some]
    omega

namespace ExpiryInv
variable {as : List (Action ι T)} {i : ι} {now : T}

omit [LinearOrder T] [DecidableEq ι] in
/-- The expiries there were. -/
theorem expiry_old (h : ExpiryInv calls as s) (a : Action ι T) {key : String} {count : ℕ} {e : T}
    (he : s.redis.store (fullKey key) = some ⟨count, some e⟩) :
    ∃ i now, .command i now ∈ as ++ [a] ∧ (calls i).key = key ∧
      e = now + (calls i).windowSeconds := by
  obtain ⟨i, now, hmem, hkey, heq⟩ := h.expiry key count e he
  exact ⟨i, now, List.mem_append_left _ hmem, hkey, heq⟩

/-- The INCR of a key that does not exist: nobody else has a counter of this key to give
an expiry to. -/
theorem incr_absent (h : ExpiryInv calls as s)
    (hget : s.redis.get (fullKey (calls i).key) now = none)
    (hone : (s.redis.incr (fullKey (calls i).key) now).1 = 1)
    (hstore : (s.redis.incr (fullKey (calls i).key) now).2.store (fullKey (calls i).key) =
      some ⟨1, none⟩) (a : Action ι T) : ExpiryInv calls (as ++ [a]) (s.sendIncr calls i now) := by
  have hfree : ∀ j, s.phase j = .created → (calls j).key ≠ (calls i).key := by
    intro j hj hkey
    obtain ⟨count, hcount⟩ := h.created j hj
    obtain ⟨e, he, -⟩ := Redis.get_eq_none.mp hget _ (hkey ▸ hcount)
    cases he
  have hphases : ∀ j, (s.sendIncr calls i now).phase j = .created →
      j = i ∨ s.phase j = .created := by
    intro j hj
    rcases phase_cases hj with ⟨hji, -⟩ | ⟨-, hj⟩
    · exact Or.inl hji
    · exact Or.inr hj
  refine ⟨fun key counter hc => ?_, fun j hj => ?_, fun j k hj hk hkey => ?_,
    fun key count e he => ?_⟩
  · by_cases hkey : key = (calls i).key
    · subst hkey
      obtain rfl : (⟨1, none⟩ : Counter T) = counter := Option.some.inj (hstore.symm.trans hc)
      exact one_pos
    · exact h.counted key counter ((State.sendIncr_store_other hkey).symm.trans hc)
  · rcases hphases j hj with rfl | hj
    · exact ⟨1, hstore⟩
    · obtain ⟨count, hcount⟩ := h.created j hj
      exact ⟨count, (State.sendIncr_store_other (hfree j hj)).trans hcount⟩
  · rcases hphases j hj with hji | hj
    · rcases hphases k hk with hki | hk
      · exact hji.trans hki.symm
      · exact absurd (hji ▸ hkey.symm) (hfree k hk)
    · rcases hphases k hk with hki | hk
      · exact absurd (hki ▸ hkey) (hfree j hj)
      · exact h.lone j k hj hk hkey
  · by_cases hkey : key = (calls i).key
    · subst hkey
      cases hstore.symm.trans he
    · exact h.expiry_old a ((State.sendIncr_store_other hkey).symm.trans he)

/-- The INCR of a counter that exists. -/
theorem incr_counted (h : ExpiryInv calls as s) {counter : Counter T}
    (hget : s.redis.get (fullKey (calls i).key) now = some counter)
    (hne : (s.redis.incr (fullKey (calls i).key) now).1 ≠ 1)
    (hstore : (s.redis.incr (fullKey (calls i).key) now).2.store (fullKey (calls i).key) =
      some ⟨counter.count + 1, counter.expiresAt⟩) (a : Action ι T) :
    ExpiryInv calls (as ++ [a]) (s.sendIncr calls i now) := by
  have hphases : ∀ j, (s.sendIncr calls i now).phase j = .created → s.phase j = .created := by
    intro j hj
    simp only [State.sendIncr, if_neg hne] at hj
    rcases phase_cases hj with ⟨-, hp⟩ | ⟨-, hj⟩
    · cases hp
    · exact hj
  obtain ⟨hbefore, -⟩ := Redis.get_eq_some.mp hget
  refine ⟨fun key c hc => ?_, fun j hj => ?_, fun j k hj hk hkey =>
    h.lone j k (hphases j hj) (hphases k hk) hkey, fun key count e he => ?_⟩
  · by_cases hkey : key = (calls i).key
    · subst hkey
      obtain rfl := Option.some.inj (hstore.symm.trans hc)
      exact Nat.succ_pos _
    · exact h.counted key c ((State.sendIncr_store_other hkey).symm.trans hc)
  · obtain ⟨count, hcount⟩ := h.created j (hphases j hj)
    by_cases hkey : (calls j).key = (calls i).key
    · rw [hkey] at hcount ⊢
      obtain rfl : counter = ⟨count, none⟩ := Option.some.inj (hbefore.symm.trans hcount)
      exact ⟨count + 1, hstore⟩
    · exact ⟨count, (State.sendIncr_store_other hkey).trans hcount⟩
  · by_cases hkey : key = (calls i).key
    · subst hkey
      have heq := Option.some.inj (hstore.symm.trans he)
      rw [Counter.mk.injEq] at heq
      have hold : s.redis.store (fullKey (calls i).key) = some ⟨counter.count, some e⟩ := by
        rw [hbefore, ← heq.2]
      exact h.expiry_old a hold
    · exact h.expiry_old a ((State.sendIncr_store_other hkey).symm.trans he)

/-- The EXPIRE of the call that created the counter. -/
theorem expire (h : ExpiryInv calls as s) (hphase : s.phase i = .created) :
    ExpiryInv calls (as ++ [.command i now]) (s.sendExpire calls i now) := by
  obtain ⟨count, hcount⟩ := h.created i hphase
  have hget : s.redis.get (fullKey (calls i).key) now = some ⟨count, none⟩ :=
    Redis.get_eq_some.mpr ⟨hcount, fun e he => nomatch he⟩
  have hstore : (s.sendExpire calls i now).redis.store (fullKey (calls i).key) =
      some ⟨count, some (now + (calls i).windowSeconds)⟩ := by
    rw [State.sendExpire, Redis.expire_of_get hget]
    exact Function.update_self _ _ _
  have hphases : ∀ j, (s.sendExpire calls i now).phase j = .created →
      j ≠ i ∧ s.phase j = .created := by
    intro j hj
    rcases phase_cases hj with ⟨-, hp⟩ | hj
    · cases hp
    · exact hj
  refine ⟨fun key c hc => ?_, fun j hj => ?_, fun j k hj hk hkey =>
    h.lone j k (hphases j hj).2 (hphases k hk).2 hkey, fun key c e he => ?_⟩
  · by_cases hkey : key = (calls i).key
    · subst hkey
      obtain rfl := Option.some.inj (hstore.symm.trans hc)
      exact h.counted _ ⟨count, none⟩ hcount
    · exact h.counted key c ((State.sendExpire_store_other hkey).symm.trans hc)
  · obtain ⟨hji, hj⟩ := hphases j hj
    have hkey : (calls j).key ≠ (calls i).key := fun he => hji (h.lone j i hj hphase he)
    obtain ⟨c, hc⟩ := h.created j hj
    exact ⟨c, (State.sendExpire_store_other hkey).trans hc⟩
  · by_cases hkey : key = (calls i).key
    · subst hkey
      have heq := Option.some.inj (hstore.symm.trans he)
      rw [Counter.mk.injEq, Option.some.injEq] at heq
      exact ⟨i, now, by simp, rfl, heq.2.symm⟩
    · exact h.expiry_old _ ((State.sendExpire_store_other hkey).symm.trans he)

theorem step (h : ExpiryInv calls as s) {a : Action ι T} (hs : s.step calls a = some t) :
    ExpiryInv calls (as ++ [a]) t := by
  cases State.step_iff.mp hs with
  | incr i now hclock hphase =>
    rcases Redis.incr_cases s.redis (fullKey (calls i).key) now (h.counted (calls i).key) with
      ⟨hget, hone, hstore⟩ | ⟨counter, hget, hne, hstore⟩
    · exact h.incr_absent hget hone hstore _
    · exact h.incr_counted hget hne hstore _
  | expire i now hclock hphase => exact h.expire hphase
  | stop i hphase =>
    have hphases : ∀ j, (s.halt i).phase j = .created → s.phase j = .created := by
      intro j hj
      rcases phase_cases hj with ⟨-, hp⟩ | ⟨-, hj⟩
      · cases hp
      · exact hj
    exact ⟨h.counted, fun j hj => h.created j (hphases j hj), fun j k hj hk =>
      h.lone j k (hphases j hj) (hphases k hk), fun _ _ _ he => h.expiry_old _ he⟩

theorem run {clock : T} {as : List (Action ι T)}
    (hr : (State.initial clock).run calls as = some s) : ExpiryInv calls as s :=
  State.run_invariant (I := ExpiryInv calls) hr (.initial clock)
    fun _ _ _ _ _ _ hu hstep => hu.step hstep

end ExpiryInv

/-- A counter without an expiry has a call that is to send its EXPIRE. -/
def Pending (calls : ι → Hit T) (s : State ι T) : Prop :=
  ∀ key count, s.redis.store (fullKey key) = some ⟨count, none⟩ →
    ∃ i, s.phase i = .created ∧ (calls i).key = key

theorem Pending.step {as : List (Action ι T)} (h : Pending calls s) (hinv : ExpiryInv calls as s)
    {a : Action ι T} (ha : ∀ i, a = .stop i → s.phase i ≠ .created)
    (hs : s.step calls a = some t) : Pending calls t := by
  have hkeep : ∀ {i j : ι} (p : Phase), s.phase j = .created → j ≠ i →
      Function.update s.phase i p j = .created := fun p hj hji =>
    (Function.update_of_ne hji _ _).trans hj
  intro key count he
  cases State.step_iff.mp hs with
  | incr i now hclock hphase =>
    by_cases hkey : key = (calls i).key
    · subst hkey
      rcases Redis.incr_cases s.redis (fullKey (calls i).key) now (hinv.counted (calls i).key) with
        ⟨-, hone, -⟩ | ⟨counter, hget, -, hstore⟩
      · refine ⟨i, ?_, rfl⟩
        simp only [State.sendIncr, hone, if_true, Function.update_self]
      · have heq := Option.some.inj (hstore.symm.trans he)
        rw [Counter.mk.injEq] at heq
        obtain ⟨hbefore, -⟩ := Redis.get_eq_some.mp hget
        obtain ⟨j, hj, hjkey⟩ := h _ counter.count (by rw [hbefore, ← heq.2])
        have hji : j ≠ i := by
          rintro rfl
          rw [hphase] at hj
          cases hj
        exact ⟨j, hkeep _ hj hji, hjkey⟩
    · obtain ⟨j, hj, hjkey⟩ := h key count ((State.sendIncr_store_other hkey).symm.trans he)
      exact ⟨j, hkeep _ hj fun hji => hkey (hji ▸ hjkey.symm), hjkey⟩
  | expire i now hclock hphase =>
    by_cases hkey : key = (calls i).key
    · subst hkey
      obtain ⟨c, hc⟩ := hinv.created i hphase
      have hget : s.redis.get (fullKey (calls i).key) now = some ⟨c, none⟩ :=
        Redis.get_eq_some.mpr ⟨hc, fun e he => by cases he⟩
      simp only [State.sendExpire, Redis.expire_of_get hget, Function.update_self] at he
      cases he
    · obtain ⟨j, hj, hjkey⟩ := h key count ((State.sendExpire_store_other hkey).symm.trans he)
      exact ⟨j, hkeep _ hj fun hji => hkey (hji ▸ hjkey.symm), hjkey⟩
  | stop i hphase =>
    obtain ⟨j, hj, hjkey⟩ := h key count he
    exact ⟨j, hkeep _ hj fun hji => ha i rfl (hji ▸ hj), hjkey⟩

theorem Pending.run {clock : T} {as : List (Action ι T)}
    (ha : (State.initial clock).SendsExpiries calls as)
    (hr : (State.initial clock).run calls as = some s) : Pending calls s := by
  have hnone : Pending calls (State.initial clock) := fun _ _ he => by cases he
  refine State.run_invariant (I := fun _ u => Pending calls u) hr hnone ?_
  intro pre a u u' hpre hu hpending hstep
  refine hpending.step (.run hu) ?_ hstep
  rintro i rfl
  exact ha pre i u hpre hu

/-- The counter of the key has no expiry and no call is to give it one. -/
def Lost (calls : ι → Hit T) (key : String) (s : State ι T) : Prop :=
  (∃ count, s.redis.store (fullKey key) = some ⟨count, none⟩) ∧
    ∀ i, s.phase i = .created → (calls i).key ≠ key

/-- Such a counter is there for good. -/
theorem Lost.step {as : List (Action ι T)} {key : String} (h : Lost calls key s)
    (hinv : ExpiryInv calls as s) {a : Action ι T} (hs : s.step calls a = some t) :
    Lost calls key t := by
  obtain ⟨⟨count, hcount⟩, hnone⟩ := h
  cases State.step_iff.mp hs with
  | incr i now hclock hphase =>
    by_cases hkey : (calls i).key = key
    · subst hkey
      have hget : s.redis.get (fullKey (calls i).key) now = some ⟨count, none⟩ :=
        Redis.get_eq_some.mpr ⟨hcount, fun e he => nomatch he⟩
      rcases Redis.incr_cases s.redis (fullKey (calls i).key) now (hinv.counted (calls i).key) with
        ⟨habsent, -⟩ | ⟨counter, hcounter, hne, hstore⟩
      · rw [hget] at habsent
        cases habsent
      · obtain rfl := Option.some.inj (hget.symm.trans hcounter)
        refine ⟨⟨count + 1, hstore⟩, fun j hj => ?_⟩
        simp only [State.sendIncr, if_neg hne] at hj
        rcases phase_cases hj with ⟨-, hp⟩ | ⟨-, hj⟩
        · cases hp
        · exact hnone j hj
    · refine ⟨⟨count, (State.sendIncr_store_other (Ne.symm hkey)).trans hcount⟩, fun j hj => ?_⟩
      rcases phase_cases hj with ⟨rfl, -⟩ | ⟨-, hj⟩
      · exact hkey
      · exact hnone j hj
  | expire i now hclock hphase =>
    have hkey := hnone i hphase
    refine ⟨⟨count, (State.sendExpire_store_other (Ne.symm hkey)).trans hcount⟩, fun j hj => ?_⟩
    rcases phase_cases hj with ⟨-, hp⟩ | ⟨-, hj⟩
    · cases hp
    · exact hnone j hj
  | stop i hphase =>
    refine ⟨⟨count, hcount⟩, fun j hj => ?_⟩
    rcases phase_cases hj with ⟨-, hp⟩ | ⟨-, hj⟩
    · cases hp
    · exact hnone j hj

theorem Lost.run {as bs : List (Action ι T)} {key : String} (h : Lost calls key s)
    (hinv : ExpiryInv calls as s) (hr : s.run calls bs = some t) : Lost calls key t := by
  refine (State.run_invariant (I := fun pre u => Lost calls key u ∧ ExpiryInv calls (as ++ pre) u)
    hr ⟨h, by rwa [List.append_nil]⟩ ?_).1
  rintro pre b u u' _ _ ⟨hlost, hinv⟩ hstep
  refine ⟨hlost.step hinv hstep, ?_⟩
  rw [← List.append_assoc]
  exact hinv.step hstep

omit [LinearOrder T] in
/-- The call that created a counter stops. -/
theorem ExpiryInv.lost_of_stop {as : List (Action ι T)} (h : ExpiryInv calls as s) {i : ι}
    (hphase : s.phase i = .created) : Lost calls (calls i).key (s.halt i) := by
  refine ⟨h.created i hphase, fun j hj hkey => ?_⟩
  rcases phase_cases hj with ⟨-, hp⟩ | ⟨hji, hj⟩
  · cases hp
  · exact hji (h.lone j i hj hphase hkey)

/-- After a run that leaves no call between its commands, every counter has an expiry if
and only if no call has stopped between them with a counter it had created. -/
theorem countersExpire_iff {clock : T} {as : List (Action ι T)}
    (hr : (State.initial clock).run calls as = some s) (hidle : s.Idle) :
    s.CountersExpire ↔ (State.initial clock).SendsExpiries calls as := by
  constructor
  · intro hexpire pre i t hpre ht hphase
    obtain ⟨post, rfl⟩ := hpre
    rw [List.append_assoc, State.run_append, ht, Option.bind_some, List.singleton_append,
      State.run_cons, Option.bind_eq_some_iff] at hr
    obtain ⟨u, hu, hr⟩ := hr
    have hinv : ExpiryInv calls pre t := .run ht
    have hstop : t.step calls (.stop i) = some (t.halt i) :=
      State.step_iff.mpr (.stop i (Or.inr hphase))
    obtain rfl := Option.some.inj (hstop.symm.trans hu)
    obtain ⟨⟨count, hcount⟩, -⟩ := (hinv.lost_of_stop hphase).run (hinv.step hu) hr
    exact hexpire _ _ hcount rfl
  · intro hsends key counter hcounter hnone
    obtain ⟨count, expiresAt⟩ := counter
    obtain rfl : expiresAt = none := hnone
    obtain ⟨i, hi, -⟩ := Pending.run hsends hr key count hcounter
    exact hidle i hi

/-- How far a call is after these actions, once its INCR has created a counter: its next
command is the EXPIRE, and with it the call returns whether the limit is positive. -/
inductive Expiring (calls : ι → Hit T) (i : ι) (bs : List (Action ι T)) : Phase → Prop
  | created (hsent : ∀ later, .command i later ∉ bs) (hstop : .stop i ∉ bs) :
      Expiring calls i bs .created
  | returned (hstop : .stop i ∉ bs) :
      Expiring calls i bs (.returned (decide (1 ≤ (calls i).limit)))
  | stopped (hsent : ∀ later, .command i later ∉ bs) (hstop : .stop i ∈ bs) :
      Expiring calls i bs .stopped

namespace Expiring
variable {i : ι} {bs : List (Action ι T)}

omit [AddCommGroup T] [LinearOrder T] [DecidableEq ι] in
theorem nil (calls : ι → Hit T) (i : ι) : Expiring calls i [] .created :=
  .created (fun _ => List.not_mem_nil) List.not_mem_nil

omit [AddCommGroup T] [LinearOrder T] [DecidableEq ι] in
/-- The actions of another call. -/
theorem snoc_other {p : Phase} (h : Expiring calls i bs p) {a : Action ι T}
    (ha : i ≠ a.caller) : Expiring calls i (bs ++ [a]) p := by
  have hold : ∀ b : Action ι T, b.caller = i → b ∈ bs ++ [a] → b ∈ bs := by
    rintro b rfl hmem
    rcases List.mem_append.mp hmem with hmem | hmem
    · exact hmem
    · exact absurd (congrArg Action.caller (List.mem_singleton.mp hmem)) ha
  cases h with
  | created hsent hnone =>
    exact .created (fun later hmem => hsent later (hold _ rfl hmem)) fun hmem =>
      hnone (hold _ rfl hmem)
  | returned hnone => exact .returned fun hmem => hnone (hold _ rfl hmem)
  | stopped hsent hsome =>
    exact .stopped (fun later hmem => hsent later (hold _ rfl hmem))
      (List.mem_append_left _ hsome)

theorem step (h : Expiring calls i bs (s.phase i)) {a : Action ι T}
    (hs : s.step calls a = some t) : Expiring calls i (bs ++ [a]) (t.phase i) := by
  by_cases ha : i = a.caller
  · cases State.step_iff.mp hs with
    | incr j now hclock hphase =>
      obtain rfl : i = j := ha
      rw [hphase] at h
      cases h
    | expire j now hclock hphase =>
      obtain rfl : i = j := ha
      rw [hphase] at h
      cases h with
      | created hsent hstop =>
        simp only [State.sendExpire, Function.update_self]
        exact .returned (by simpa using hstop)
    | stop j hphase =>
      obtain rfl : i = j := ha
      simp only [State.halt, Function.update_self]
      rcases hphase with hphase | hphase
      · rw [hphase] at h
        cases h
      · rw [hphase] at h
        cases h with
        | created hsent hstop => exact .stopped (by simpa using hsent) (by simp)
  · have hphase : t.phase i = s.phase i := by
      cases State.step_iff.mp hs with
      | incr j now _ _ => exact Function.update_of_ne ha _ _
      | expire j now _ _ => exact Function.update_of_ne ha _ _
      | stop j _ => exact Function.update_of_ne ha _ _
    rw [hphase]
    exact h.snoc_other ha

theorem run (hcreated : s.phase i = .created) (hr : s.run calls bs = some t) :
    Expiring calls i bs (t.phase i) :=
  State.run_invariant (I := fun pre u => Expiring calls i pre (u.phase i)) hr
    (hcreated ▸ .nil calls i) fun _ _ _ _ _ _ hu hstep => hu.step hstep

end Expiring

/-- What follows the INCR of a call `i` that is to be allowed: nothing but `true` is
returned, its next command makes it return, and until it stops it can send that. -/
structure Admitted (calls : ι → Hit T) (i : ι) (bs : List (Action ι T)) (u : State ι T) :
    Prop where
  returned : ∀ b, u.phase i = .returned b → b = true
  expired : ∀ later, .command i later ∈ bs → u.phase i = .returned true
  enabled : .stop i ∉ bs → u.phase i = .returned true ∨ ∀ later, u.clock ≤ later →
    ∃ u', u.step calls (.command i later) = some u' ∧ u'.phase i = .returned true

theorem Expiring.admitted {i : ι} {bs : List (Action ι T)} (h : Expiring calls i bs (u.phase i))
    (hlimit : 1 ≤ (calls i).limit) : Admitted calls i bs u := by
  generalize hphase : u.phase i = p at h
  cases h with
  | created hsent hstop =>
    refine ⟨fun b hb => ?_, fun later hmem => absurd hmem (hsent later), fun _ => Or.inr ?_⟩
    · rw [hphase] at hb
      cases hb
    · intro later hclock
      refine ⟨_, State.step_iff.mpr (.expire i later hclock hphase), ?_⟩
      simp only [State.sendExpire, Function.update_self, decide_eq_true hlimit]
  | returned hstop =>
    rw [decide_eq_true hlimit] at hphase
    refine ⟨fun b hb => ?_, fun _ _ => hphase, fun _ => Or.inl hphase⟩
    exact Phase.returned.inj (hb.symm.trans hphase)
  | stopped hsent hstop =>
    refine ⟨fun b hb => ?_, fun later hmem => absurd hmem (hsent later), absurd hstop⟩
    rw [hphase] at hb
    cases hb

/-- Where every counter has an expiry, a hit that comes more than the window after every
command on its key is allowed. -/
theorem hit_after_window [IsOrderedAddMonoid T] {clock : T} {as : List (Action ι T)}
    (hr : (State.initial clock).run calls as = some s) (hexpire : s.CountersExpire) {i : ι}
    {w now : T} (hw : ∀ j, (calls j).key = (calls i).key → (calls j).windowSeconds ≤ w)
    (hlate : ∀ j before, .command j before ∈ as → (calls j).key = (calls i).key →
      before + w < now) (hlimit : 1 ≤ (calls i).limit) (hwaiting : s.phase i = .waiting)
    {bs : List (Action ι T)} (hu : s.run calls (.command i now :: bs) = some u) :
    Admitted calls i bs u := by
  have hinv : ExpiryInv calls as s := .run hr
  have hget : s.redis.get (fullKey (calls i).key) now = none := by
    refine Redis.get_eq_none.mpr fun counter hcounter => ?_
    obtain ⟨count, expiresAt⟩ := counter
    cases expiresAt with
    | none => exact absurd rfl (hexpire _ _ hcounter)
    | some e =>
      obtain ⟨j, before, hmem, hkey, rfl⟩ := hinv.expiry _ _ _ hcounter
      exact ⟨_, rfl, (add_le_add_right (hw j hkey) before).trans (hlate j before hmem hkey).le⟩
  rw [State.run_cons, Option.bind_eq_some_iff] at hu
  obtain ⟨t, ht, hu⟩ := hu
  have hone : t.phase i = .created := by
    cases State.step_iff.mp ht with
    | incr _ _ hclock hphase =>
      rcases Redis.incr_cases s.redis (fullKey (calls i).key) now (hinv.counted (calls i).key) with
        ⟨-, hone, -⟩ | ⟨counter, hsome, -⟩
      · simp only [State.sendIncr, hone, if_true, Function.update_self]
      · rw [hget] at hsome
        cases hsome
    | expire _ _ hclock hphase =>
      rw [hwaiting] at hphase
      cases hphase
  exact (Expiring.run hone hu).admitted hlimit

/-- For any calls of any number of processes, over every interleaving of their commands
and with calls stopping anywhere: whenever no call is between its two commands, every
counter has an expiry if and only if no call has stopped there with a counter it had
created, and then a hit that comes more than the window after the last command on its key
is allowed: unless it stops before, it returns `true` with its EXPIRE. -/
theorem no_lockout_iff [IsOrderedAddMonoid T] (calls : ι → Hit T) (clock : T)
    (as : List (Action ι T)) (s : State ι T) (hr : (State.initial clock).run calls as = some s)
    (hidle : s.Idle) :
    (s.CountersExpire ↔ (State.initial clock).SendsExpiries calls as) ∧
    ((State.initial clock).SendsExpiries calls as →
      ∀ (i : ι) (w now : T),
        (∀ j, (calls j).key = (calls i).key → (calls j).windowSeconds ≤ w) →
        (∀ j before, .command j before ∈ as → (calls j).key = (calls i).key → before + w < now) →
        1 ≤ (calls i).limit → s.phase i = .waiting →
          ∀ bs u, s.run calls (.command i now :: bs) = some u → Admitted calls i bs u) := by
  have hiff := countersExpire_iff hr hidle
  exact ⟨hiff, fun hsends i w now hw hlate hlimit hwaiting bs u hu =>
    hit_after_window hr (hiff.mpr hsends) hw hlate hlimit hwaiting hu⟩

/-- Two hits of limit 1 on one key. -/
def oncePerMinute : Fin 2 → Hit ℤ := fun _ => ⟨"a", 1, 60⟩

/-- The first call stops before its EXPIRE; eleven days later the second one is refused. -/
theorem stopped_hit_locks_out :
    (∃ s, (State.initial 0).run oncePerMinute [.command 0 0, .stop 0] = some s ∧ s.Idle ∧
      ¬ s.CountersExpire) ∧
    ∃ s, (State.initial 0).run oncePerMinute [.command 0 0, .stop 0, .command 1 1000000] = some s ∧
      s.phase 1 = .returned false := by
  constructor
  · have hrun : ((State.initial 0).run oncePerMinute [.command 0 0, .stop 0]).map
        (fun s => (s.phase 0, s.phase 1, s.redis.store (fullKey "a"))) =
          some (.stopped, .waiting, some ⟨1, none⟩) := by decide
    obtain ⟨s, hs, hend⟩ := Option.map_eq_some_iff.mp hrun
    simp only [Prod.mk.injEq] at hend
    refine ⟨s, hs, fun i => ?_, fun h => h "a" _ hend.2.2 rfl⟩
    match i with
    | 0 => rw [hend.1]; decide
    | 1 => rw [hend.2.1]; decide
  · have hrun : ((State.initial 0).run oncePerMinute
        [.command 0 0, .stop 0, .command 1 1000000]).map (fun s => s.phase 1) =
          some (.returned false) := by decide
    exact Option.map_eq_some_iff.mp hrun

/-- The second hit comes after the window of the first. -/
theorem no_lockout_iff_twice :
    ∃ s u, (State.initial 0).run oncePerMinute [.command 0 0, .command 0 1] = some s ∧
      s.CountersExpire ∧ s.run oncePerMinute [.command 1 100, .command 1 130] = some u ∧
      u.phase 1 = .returned true := by
  have hrun : ((State.initial 0).run oncePerMinute [.command 0 0, .command 0 1]).map
      (fun s => (s.phase 0, s.phase 1)) = some (.returned true, .waiting) := by decide
  obtain ⟨s, hs, hend⟩ := Option.map_eq_some_iff.mp hrun
  simp only [Prod.mk.injEq] at hend
  have hidle : s.Idle := by
    intro i
    match i with
    | 0 => rw [hend.1]; decide
    | 1 => rw [hend.2]; decide
  have hsends : (State.initial 0).SendsExpiries oncePerMinute [.command 0 0, .command 0 1] := by
    intro pre i t hpre
    have hmem := hpre.subset (List.mem_append_right _ (List.mem_singleton_self _))
    simp at hmem
  have hlater : ((State.initial 0).run oncePerMinute
      ([.command 0 0, .command 0 1] ++ [.command 1 100, .command 1 130])).isSome = true := by decide
  obtain ⟨u, hu⟩ := Option.isSome_iff_exists.mp hlater
  rw [State.run_append, hs, Option.bind_some] at hu
  obtain ⟨hiff, hadmitted⟩ := no_lockout_iff oncePerMinute 0 _ s hs hidle
  refine ⟨s, u, hs, hiff.mpr hsends, hu, ?_⟩
  refine (hadmitted hsends 1 60 100 (fun _ _ => le_rfl) ?_ le_rfl hend.2 _ u hu).expired 130
    List.mem_cons_self
  intro j before hmem _
  simp only [List.mem_cons, Action.command.injEq, List.not_mem_nil, or_false] at hmem
  rcases hmem with ⟨-, rfl⟩ | ⟨-, rfl⟩ <;> decide

end EnvVault.RedisRateLimiter
