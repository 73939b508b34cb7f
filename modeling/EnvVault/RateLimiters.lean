import EnvVault.FixedWindow
import EnvVault.Runs
import Mathlib.Logic.Function.Basic

/-!
# The rate limiters

Both limiters count the hits on a key in a fixed window. `MemoryRateLimiter` keeps the
count and the end of the window together; `RedisRateLimiter` increments a counter of
Redis and attaches its expiry with a second command, which other callers may precede.
-/
namespace EnvVault
open EnvVault.FixedWindow

variable {T : Type} [AddCommGroup T] [LinearOrder T]

/-- The arguments of `hit`. -/
structure Hit (T : Type) where
  key : String
  limit : ℤ
  windowSeconds : T

/-- `_windows`: the count and the end of the window of each key. -/
structure MemoryRateLimiter (T : Type) where
  windows : String → Option (ℕ × T)

namespace MemoryRateLimiter

def new : MemoryRateLimiter T := ⟨fun _ => none⟩

/-- The window that a hit at this time falls into, before it is counted. -/
def window (limiter : MemoryRateLimiter T) (h : Hit T) (now : T) : ℕ × T :=
  let stored := (limiter.windows h.key).getD (0, 0)
  if stored.2 ≤ now then (0, now + h.windowSeconds) else stored

def hit (limiter : MemoryRateLimiter T) (h : Hit T) (now : T) : Bool × MemoryRateLimiter T :=
  let window := limiter.window h now
  let count := window.1 + 1
  (decide ((count : ℤ) ≤ h.limit),
    ⟨Function.update limiter.windows h.key (some (count, window.2))⟩)

/-- A hit on a key whose stored window is over, as it is for a new key. -/
theorem hit_over {limiter : MemoryRateLimiter T} {h : Hit T} {now : T}
    (hover : ((limiter.windows h.key).getD (0, 0)).2 ≤ now) :
    limiter.hit h now = (decide (1 ≤ h.limit),
      ⟨Function.update limiter.windows h.key (some (1, now + h.windowSeconds))⟩) := by
  simp only [hit, window, if_pos hover]
  rfl

/-- A hit in the stored window. -/
theorem hit_in_window {limiter : MemoryRateLimiter T} {h : Hit T} {now expiresAt : T} {count : ℕ}
    (hstored : limiter.windows h.key = some (count, expiresAt)) (hin : now < expiresAt) :
    limiter.hit h now = (decide (((count + 1 : ℕ) : ℤ) ≤ h.limit),
      ⟨Function.update limiter.windows h.key (some (count + 1, expiresAt))⟩) := by
  simp only [hit, window, hstored, Option.getD_some, if_neg (not_le.mpr hin)]

/-- The answers to a sequence of hits. -/
def answers (limiter : MemoryRateLimiter T) : List (Hit T × T) → List Bool
  | [] => []
  | (h, now) :: hits => (limiter.hit h now).1 :: (limiter.hit h now).2.answers hits

/-- The hit as it is counted; it opens a window when the stored one is over. -/
def tick (limiter : MemoryRateLimiter T) (h : Hit T) (now : T) : Tick T :=
  ⟨now, (limiter.window h now).1 + 1, decide (((limiter.windows h.key).getD (0, 0)).2 ≤ now)⟩

/-- The hits of a sequence as they are counted, with their keys. -/
def ticks (limiter : MemoryRateLimiter T) : List (Hit T × T) → List (String × Tick T)
  | [] => []
  | (h, now) :: hits => (h.key, limiter.tick h now) :: (limiter.hit h now).2.ticks hits

end MemoryRateLimiter

/-- The hits on one key. -/
def onKey {κ : Type} (keyOf : κ → String) (key : String) (log : List (κ × Tick T)) :
    List (Tick T) :=
  log.filterMap fun x => if keyOf x.1 = key then some x.2 else none

omit [AddCommGroup T] [LinearOrder T] in
theorem onKey_cons {κ : Type} (keyOf : κ → String) (key : String) (x : κ × Tick T)
    (log : List (κ × Tick T)) : onKey keyOf key (x :: log) =
      if keyOf x.1 = key then x.2 :: onKey keyOf key log else onKey keyOf key log := by
  rw [onKey, List.filterMap_cons]
  split <;> simp_all [onKey]

omit [AddCommGroup T] [LinearOrder T] in
theorem mem_onKey {κ : Type} {keyOf : κ → String} {key : String} {log : List (κ × Tick T)}
    {x : Tick T} (h : x ∈ onKey keyOf key log) : ∃ k, (k, x) ∈ log := by
  obtain ⟨y, hy, heq⟩ := List.mem_filterMap.mp h
  split at heq
  · exact ⟨y.1, Option.some.inj heq ▸ hy⟩
  · cases heq

structure Counter (T : Type) where
  count : ℕ
  expiresAt : Option T
deriving DecidableEq

/-- The counters of Redis; one that has expired is as good as absent. -/
structure Redis (T : Type) where
  store : String → Option (Counter T)

namespace Redis

def empty : Redis T := ⟨fun _ => none⟩

def get (redis : Redis T) (key : String) (now : T) : Option (Counter T) :=
  (redis.store key).filter fun counter => counter.expiresAt.all fun e => decide (now < e)

/-- INCR creates a missing key with the value 1 and no expiry, and keeps an expiry. -/
def incr (redis : Redis T) (key : String) (now : T) : ℕ × Redis T :=
  let counter := (redis.get key now).getD ⟨0, none⟩
  (counter.count + 1,
    ⟨Function.update redis.store key (some ⟨counter.count + 1, counter.expiresAt⟩)⟩)

/-- EXPIRE gives an existing key an expiry. -/
def expire (redis : Redis T) (key : String) (seconds now : T) : Redis T :=
  match redis.get key now with
  | none => redis
  | some counter => ⟨Function.update redis.store key (some ⟨counter.count, some (now + seconds)⟩)⟩

end Redis

def fullKey (key : String) : String := "rl:" ++ key

theorem fullKey_injective : Function.Injective fullKey := fun a b h => by
  simpa [fullKey, String.append_right_inj] using h

namespace Redis
variable {redis : Redis T} {key : String} {now : T}

omit [AddCommGroup T] in
/-- The counter that an increment works on. -/
theorem incr_eq : redis.incr key now = (((redis.get key now).getD ⟨0, none⟩).count + 1,
    ⟨Function.update redis.store key (some ⟨((redis.get key now).getD ⟨0, none⟩).count + 1,
      ((redis.get key now).getD ⟨0, none⟩).expiresAt⟩)⟩) := rfl

omit [AddCommGroup T] in
theorem incr_store_other {other : String} (h : other ≠ key) :
    (redis.incr key now).2.store other = redis.store other := Function.update_of_ne h _ _

theorem expire_store_other {other : String} (h : other ≠ key) (seconds : T) :
    (redis.expire key seconds now).store other = redis.store other := by
  unfold expire
  split
  · rfl
  · exact Function.update_of_ne h _ _

omit [AddCommGroup T] in
/-- What exists is stored, and what does not exist is absent or has expired. -/
theorem get_eq_some {counter : Counter T} : redis.get key now = some counter ↔
    redis.store key = some counter ∧ ∀ e ∈ counter.expiresAt, now < e := by
  simp [get, Option.filter_eq_some_iff, Option.all_eq_true]

omit [AddCommGroup T] in
theorem get_eq_none : redis.get key now = none ↔
    ∀ counter, redis.store key = some counter → ∃ e ∈ counter.expiresAt, e ≤ now := by
  cases hstore : redis.store key with
  | none => simp [get, hstore]
  | some counter => simp [get, hstore, Option.filter_some, Option.all_eq_true]

theorem expire_of_get {counter : Counter T} (h : redis.get key now = some counter) (seconds : T) :
    redis.expire key seconds now =
      ⟨Function.update redis.store key (some ⟨counter.count, some (now + seconds)⟩)⟩ := by
  simp only [expire, h]

theorem expire_of_absent (h : redis.get key now = none) (seconds : T) :
    redis.expire key seconds now = redis := by
  simp only [expire, h]

end Redis

namespace RedisRateLimiter

/-- A hit whose two commands follow each other. -/
def hit (redis : Redis T) (h : Hit T) (now : T) : Bool × Redis T :=
  let counted := redis.incr (fullKey h.key) now
  let redis := if counted.1 = 1 then counted.2.expire (fullKey h.key) h.windowSeconds now
    else counted.2
  (decide ((counted.1 : ℤ) ≤ h.limit), redis)

def answers (redis : Redis T) : List (Hit T × T) → List Bool
  | [] => []
  | (h, now) :: hits => (hit redis h now).1 :: answers (hit redis h now).2 hits

/-- A hit on a key that does not exist. -/
theorem hit_absent {redis : Redis T} {h : Hit T} {now : T}
    (hget : redis.get (fullKey h.key) now = none) :
    hit redis h now = (decide (1 ≤ h.limit), ⟨Function.update redis.store (fullKey h.key)
      (some ⟨1, some (now + h.windowSeconds)⟩)⟩) := by
  have hincr : redis.incr (fullKey h.key) now =
      (1, ⟨Function.update redis.store (fullKey h.key) (some ⟨1, none⟩)⟩) := by
    rw [Redis.incr_eq, hget]
    rfl
  have hcreated : Redis.get ⟨Function.update redis.store (fullKey h.key) (some ⟨1, none⟩)⟩
      (fullKey h.key) now = some ⟨1, none⟩ :=
    Redis.get_eq_some.mpr ⟨by simp, fun e he => nomatch he⟩
  simp only [hit, hincr, if_true, Redis.expire_of_get hcreated, Function.update_idem]
  rfl

/-- A hit on a key that exists. -/
theorem hit_counted {redis : Redis T} {h : Hit T} {now : T} {counter : Counter T}
    (hget : redis.get (fullKey h.key) now = some counter) (hpos : 0 < counter.count) :
    hit redis h now = (decide (((counter.count + 1 : ℕ) : ℤ) ≤ h.limit),
      ⟨Function.update redis.store (fullKey h.key)
        (some ⟨counter.count + 1, counter.expiresAt⟩)⟩) := by
  have hincr : redis.incr (fullKey h.key) now = (counter.count + 1,
      ⟨Function.update redis.store (fullKey h.key)
        (some ⟨counter.count + 1, counter.expiresAt⟩)⟩) := by
    rw [Redis.incr_eq, hget]
    rfl
  have hne : counter.count + 1 ≠ 1 := by omega
  simp only [hit, hincr, if_neg hne]

/-- Where a call of `hit` stands. One that was answered 1 has its EXPIRE to send. -/
inductive Phase : Type
  | waiting
  | created
  | returned (allowed : Bool)
  | stopped
deriving DecidableEq

/-- Redis with its clock, the calls of all processes, and the INCR commands so far,
newest first. The last is history that no command reads. -/
structure State (ι T : Type) where
  redis : Redis T
  clock : T
  phase : ι → Phase
  log : List (ι × Tick T)

/-- A call sends its next command, or it stops where it is: by an exception, a
cancellation or a crash. -/
inductive Action (ι T : Type) : Type
  | command (i : ι) (now : T)
  | stop (i : ι)

def Action.caller {ι : Type} : Action ι T → ι
  | .command i _ => i
  | .stop i => i

namespace State
variable {ι : Type} [DecidableEq ι]

def initial (clock : T) : State ι T := ⟨.empty, clock, fun _ => .waiting, []⟩

section
variable (calls : ι → Hit T) (s : State ι T)

/-- `count = await self._redis.incr(full_key)`, and what follows without a command. -/
def sendIncr (i : ι) (now : T) : State ι T :=
  let found := s.redis.get (fullKey (calls i).key) now
  let counted := s.redis.incr (fullKey (calls i).key) now
  ⟨counted.2, now, Function.update s.phase i (if counted.1 = 1 then .created
    else .returned (decide ((counted.1 : ℤ) ≤ (calls i).limit))),
    (i, ⟨now, counted.1, found.isNone⟩) :: s.log⟩

/-- `await self._redis.expire(full_key, window_seconds)` of a call that was answered 1. -/
def sendExpire (i : ι) (now : T) : State ι T :=
  ⟨s.redis.expire (fullKey (calls i).key) (calls i).windowSeconds now, now,
    Function.update s.phase i (.returned (decide (1 ≤ (calls i).limit))), s.log⟩

def halt (i : ι) : State ι T := { s with phase := Function.update s.phase i .stopped }

/-- Commands are executed one at a time and the clock does not go back. -/
def step : Action ι T → Option (State ι T)
  | .command i now =>
    if now < s.clock then none
    else match s.phase i with
      | .waiting => some (s.sendIncr calls i now)
      | .created => some (s.sendExpire calls i now)
      | _ => none
  | .stop i =>
    match s.phase i with
    | .waiting => some (s.halt i)
    | .created => some (s.halt i)
    | _ => none

def run (as : List (Action ι T)) : Option (State ι T) :=
  as.foldlM (fun s a => s.step calls a) s

end

/-- What a step does. -/
inductive Stepped (calls : ι → Hit T) (s : State ι T) : Action ι T → State ι T → Prop
  | incr (i : ι) (now : T) (hclock : s.clock ≤ now) (hphase : s.phase i = .waiting) :
      Stepped calls s (.command i now) (s.sendIncr calls i now)
  | expire (i : ι) (now : T) (hclock : s.clock ≤ now) (hphase : s.phase i = .created) :
      Stepped calls s (.command i now) (s.sendExpire calls i now)
  | stop (i : ι) (hphase : s.phase i = .waiting ∨ s.phase i = .created) :
      Stepped calls s (.stop i) (s.halt i)

variable {calls : ι → Hit T} {s t : State ι T}

omit [AddCommGroup T] in
theorem sendIncr_store_other {i : ι} {now : T} {key : String} (hkey : key ≠ (calls i).key) :
    (s.sendIncr calls i now).redis.store (fullKey key) = s.redis.store (fullKey key) :=
  Redis.incr_store_other fun he => hkey (fullKey_injective he)

theorem sendExpire_store_other {i : ι} {now : T} {key : String} (hkey : key ≠ (calls i).key) :
    (s.sendExpire calls i now).redis.store (fullKey key) = s.redis.store (fullKey key) :=
  Redis.expire_store_other (fun he => hkey (fullKey_injective he)) _

theorem step_iff {a : Action ι T} : s.step calls a = some t ↔ Stepped calls s a t := by
  constructor
  · intro h
    cases a with
    | command i now =>
      simp only [step] at h
      split at h
      · cases h
      · rename_i hclock
        split at h
        · rename_i hphase
          exact Option.some.inj h ▸ .incr i now (not_lt.mp hclock) hphase
        · rename_i hphase
          exact Option.some.inj h ▸ .expire i now (not_lt.mp hclock) hphase
        · cases h
    | stop i =>
      simp only [step] at h
      split at h
      · rename_i hphase
        exact Option.some.inj h ▸ .stop i (Or.inl hphase)
      · rename_i hphase
        exact Option.some.inj h ▸ .stop i (Or.inr hphase)
      · cases h
  · intro h
    cases h with
    | incr i now hclock hphase => simp [step, not_lt.mpr hclock, hphase]
    | expire i now hclock hphase => simp [step, not_lt.mpr hclock, hphase]
    | stop i hphase => rcases hphase with hphase | hphase <;> simp [step, hphase]

@[simp] theorem run_nil : s.run calls [] = some s := rfl

theorem run_cons (a : Action ι T) (as : List (Action ι T)) :
    s.run calls (a :: as) = (s.step calls a).bind fun t => t.run calls as := by
  simp [run, List.foldlM_cons]

theorem run_append (as bs : List (Action ι T)) :
    s.run calls (as ++ bs) = (s.run calls as).bind fun t => t.run calls bs := by
  simp [run, List.foldlM_append]

theorem run_invariant {I : List (Action ι T) → State ι T → Prop} {as : List (Action ι T)}
    (hr : s.run calls as = some t) (hs : I [] s)
    (hstep : ∀ pre a u u', pre ++ [a] <+: as → s.run calls pre = some u → I pre u →
      u.step calls a = some u' → I (pre ++ [a]) u') : I as t :=
  Runs.invariant hr hs hstep

end State

section
variable {ι : Type} [DecidableEq ι] {calls : ι → Hit T} {s : State ι T}

/-- The commands of a call that no other call interrupts. -/
def hitCommands (redis : Redis T) (h : Hit T) (i : ι) (now : T) : List (Action ι T) :=
  if (redis.incr (fullKey h.key) now).1 = 1 then [.command i now, .command i now]
  else [.command i now]

/-- A call whose two commands follow each other is `hit`. -/
theorem State.run_hitCommands {i : ι} {now : T} (hclock : s.clock ≤ now)
    (hphase : s.phase i = .waiting) :
    s.run calls (hitCommands s.redis (calls i) i now) =
      some ⟨(hit s.redis (calls i) now).2, now,
        Function.update s.phase i (.returned (hit s.redis (calls i) now).1),
        (s.sendIncr calls i now).log⟩ := by
  have hincr : s.step calls (.command i now) = some (s.sendIncr calls i now) :=
    step_iff.mpr (.incr i now hclock hphase)
  by_cases hone : (s.redis.incr (fullKey (calls i).key) now).1 = 1
  · have hcreated : (s.sendIncr calls i now).phase i = .created := by
      simp only [sendIncr, hone, if_true, Function.update_self]
    have hexpire : (s.sendIncr calls i now).step calls (.command i now) =
        some ((s.sendIncr calls i now).sendExpire calls i now) :=
      step_iff.mpr (.expire i now le_rfl hcreated)
    rw [hitCommands, if_pos hone, run_cons, hincr, Option.bind_some, run_cons, hexpire,
      Option.bind_some, run_nil]
    simp only [sendExpire, sendIncr, hit, hone, if_true, Function.update_idem]
    rfl
  · rw [hitCommands, if_neg hone, run_cons, hincr, Option.bind_some, run_nil]
    simp only [sendIncr, hit, if_neg hone]

/-- The commands of calls that are made one at a time, with their times. -/
def oneAtATime (calls : ι → Hit T) : Redis T → List (ι × T) → List (Action ι T)
  | _, [] => []
  | redis, (i, now) :: turns =>
    hitCommands redis (calls i) i now ++ oneAtATime calls (hit redis (calls i) now).2 turns

/-- Such calls return what `hit` answers to their sequence. -/
theorem State.run_oneAtATime {turns : List (ι × T)} (hnodup : (turns.map Prod.fst).Nodup)
    (hmono : (turns.map Prod.snd).Pairwise (· ≤ ·)) (hclock : ∀ x ∈ turns, s.clock ≤ x.2)
    (hwaiting : ∀ x ∈ turns, s.phase x.1 = .waiting) :
    ∃ t, s.run calls (oneAtATime calls s.redis turns) = some t ∧
      (∀ i ∉ turns.map Prod.fst, t.phase i = s.phase i) ∧
      turns.map (fun x => t.phase x.1) =
        (answers s.redis (turns.map fun x => (calls x.1, x.2))).map .returned := by
  induction turns generalizing s with
  | nil => exact ⟨s, rfl, fun _ _ => rfl, rfl⟩
  | cons x turns ih =>
    obtain ⟨i, now⟩ := x
    rw [List.map_cons, List.nodup_cons] at hnodup
    rw [List.map_cons, List.pairwise_cons] at hmono
    have hhit : s.run calls (hitCommands s.redis (calls i) i now) = _ :=
      State.run_hitCommands (hclock _ List.mem_cons_self) (hwaiting _ List.mem_cons_self)
    generalize hu : (State.mk _ _ _ _ : State ι T) = u at hhit
    have hother : ∀ j, j ≠ i → u.phase j = s.phase j := fun j hj => by
      rw [← hu]
      exact Function.update_of_ne hj _ _
    have hlater : ∀ y ∈ turns, y.1 ≠ i := by
      rintro y hy rfl
      exact hnodup.1 (List.mem_map.mpr ⟨y, hy, rfl⟩)
    obtain ⟨t, ht, hsame, hanswers⟩ := ih (s := u) hnodup.2 hmono.2
      (fun y hy => by rw [← hu]; exact hmono.1 y.2 (List.mem_map.mpr ⟨y, hy, rfl⟩))
      fun y hy => (hother y.1 (hlater y hy)).trans (hwaiting y (List.mem_cons_of_mem _ hy))
    have hredis : u.redis = (hit s.redis (calls i) now).2 := by rw [← hu]
    have hreturned : t.phase i = .returned (hit s.redis (calls i) now).1 := by
      rw [hsame i hnodup.1, ← hu]
      exact Function.update_self _ _ _
    refine ⟨t, ?_, fun j hj => ?_, ?_⟩
    · rw [oneAtATime, run_append, hhit, Option.bind_some, ← hredis]
      exact ht
    · rw [List.map_cons, List.mem_cons, not_or] at hj
      exact (hsame j hj.2).trans (hother j hj.1)
    · rw [List.map_cons, List.map_cons, answers, List.map_cons, hreturned, ← hredis, hanswers]

end

end RedisRateLimiter

end EnvVault
