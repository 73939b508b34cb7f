import EnvVault.RateLimiters
import Mathlib.Algebra.Order.Group.Int

/-!
# The windows of the limiters

What the limiters count on one key is a log of fixed windows, whatever happens on other
keys. A window of the dictionary is open for its length exactly. One of Redis is open
from the INCR that created the counter until its expiry, so longer when the EXPIRE is late.
-/
namespace EnvVault
open EnvVault.FixedWindow

variable {T : Type} [AddCommGroup T] [LinearOrder T]

/-- The entry of a key holds the window that is open or was open last. -/
def MemoryWindow (w : T) (entry : Option (ℕ × T)) (log : List (Tick T)) : Prop :=
  entry = none ∧ log = [] ∨ ∃ opened count,
    Windowed w (fun a b => b < a + w) opened count log ∧ entry = some (count, opened + w)

theorem MemoryWindow.hit {w : T} {limiter : MemoryRateLimiter T} {x : Hit T} {now : T}
    {log : List (Tick T)} (h : MemoryWindow w (limiter.windows x.key) log)
    (hw : x.windowSeconds = w) (hlog : ∀ y ∈ log, y.time ≤ now) (hnow : 0 ≤ now) :
    MemoryWindow w ((limiter.hit x now).2.windows x.key) (limiter.tick x now :: log) := by
  subst hw
  rcases h with ⟨hnone, rfl⟩ | ⟨opened, count, hwin, hsome⟩
  · have hover : ((limiter.windows x.key).getD (0, 0)).2 ≤ now := by
      rw [hnone]
      exact hnow
    have htick : limiter.tick x now = ⟨now, 1, true⟩ := by
      simp [MemoryRateLimiter.tick, MemoryRateLimiter.window, hnone, hnow]
    rw [MemoryRateLimiter.hit_over hover, htick]
    exact Or.inr ⟨now, 1, .first now, Function.update_self _ _ _⟩
  · by_cases hover : opened + x.windowSeconds ≤ now
    · have hover' : ((limiter.windows x.key).getD (0, 0)).2 ≤ now := by
        rw [hsome]
        exact hover
      have htick : limiter.tick x now = ⟨now, 1, true⟩ := by
        simp [MemoryRateLimiter.tick, MemoryRateLimiter.window, hsome, hover]
      rw [MemoryRateLimiter.hit_over hover', htick]
      exact Or.inr ⟨now, 1, .reopens hwin hlog hover, Function.update_self _ _ _⟩
    · have htick : limiter.tick x now = ⟨now, count + 1, false⟩ := by
        simp [MemoryRateLimiter.tick, MemoryRateLimiter.window, hsome, hover]
      rw [MemoryRateLimiter.hit_in_window hsome (not_le.mp hover), htick]
      exact Or.inr ⟨opened, count + 1, .continues hwin hlog (not_le.mp hover),
        Function.update_self _ _ _⟩

/-- A hit leaves the entries of other keys alone. -/
theorem MemoryRateLimiter.hit_other (limiter : MemoryRateLimiter T) (x : Hit T) (now : T)
    {key : String} (h : key ≠ x.key) :
    (limiter.hit x now).2.windows key = limiter.windows key :=
  Function.update_of_ne h _ _

theorem MemoryWindow.ticks {w : T} {limiter : MemoryRateLimiter T} {key : String}
    {log : List (Tick T)} (h : MemoryWindow w (limiter.windows key) log)
    {hits : List (Hit T × T)} (hw : ∀ x ∈ hits, x.1.windowSeconds = w)
    (hmono : (hits.map Prod.snd).Pairwise (· ≤ ·)) (hpos : ∀ x ∈ hits, 0 ≤ x.2)
    (hlog : ∀ y ∈ log, ∀ x ∈ hits, y.time ≤ x.2) : ∃ limiter' : MemoryRateLimiter T,
      MemoryWindow w (limiter'.windows key)
        ((onKey id key (limiter.ticks hits)).reverse ++ log) := by
  induction hits generalizing limiter log with
  | nil => exact ⟨limiter, h⟩
  | cons x hits ih =>
    have hnow := hpos x List.mem_cons_self
    have hlater : ∀ y ∈ hits, x.2 ≤ y.2 := fun y hy =>
      (List.pairwise_cons.mp hmono).1 y.2 (List.mem_map_of_mem hy)
    have hmono' := (List.pairwise_cons.mp hmono).2
    rw [MemoryRateLimiter.ticks, onKey_cons]
    dsimp only [id]
    by_cases hkey : x.1.key = key
    · have hhit := MemoryWindow.hit (x := x.1) (hkey ▸ h) (hw x List.mem_cons_self)
        (fun y hy => hlog y hy x List.mem_cons_self) hnow
      rw [hkey] at hhit
      rw [if_pos hkey, List.reverse_cons, List.append_assoc]
      refine ih hhit (fun y hy => hw y (List.mem_cons_of_mem _ hy)) hmono'
        (fun y hy => hpos y (List.mem_cons_of_mem _ hy)) fun y hy z hz => ?_
      rcases List.mem_cons.mp hy with rfl | hy
      · exact hlater z hz
      · exact hlog y hy z (List.mem_cons_of_mem _ hz)
    · have hsame := limiter.hit_other x.1 x.2 (Ne.symm hkey)
      rw [if_neg hkey]
      exact ih (hsame ▸ h) (fun y hy => hw y (List.mem_cons_of_mem _ hy)) hmono'
        (fun y hy => hpos y (List.mem_cons_of_mem _ hy))
        fun y hy z hz => hlog y hy z (List.mem_cons_of_mem _ hz)

/-- What is answered is whether the count is within the limit. -/
theorem MemoryRateLimiter.answers_eq (limiter : MemoryRateLimiter T) (limit : ℕ)
    (hits : List (Hit T × T)) (hlimit : ∀ x ∈ hits, x.1.limit = limit) :
    (limiter.ticks hits).map (fun x => allowed limit x.2) = limiter.answers hits := by
  induction hits generalizing limiter with
  | nil => rfl
  | cons x hits ih =>
    have hanswer : allowed limit (limiter.tick x.1 x.2) = (limiter.hit x.1 x.2).1 := by
      simp only [allowed, tick, hit, hlimit x List.mem_cons_self]
      exact decide_eq_decide.mpr Int.ofNat_le.symm
    rw [ticks, answers, List.map_cons, hanswer,
      ih _ fun y hy => hlimit y (List.mem_cons_of_mem _ hy)]

/-- The answers on one key are those to the hits on it alone. -/
theorem MemoryRateLimiter.answers_on_key {limiter limiter' : MemoryRateLimiter T} {key : String}
    (h : limiter.windows key = limiter'.windows key) (hits : List (Hit T × T)) :
    ((hits.zip (limiter.answers hits)).filter fun x => x.1.1.key = key).map Prod.snd =
      limiter'.answers (hits.filter fun x => x.1.key = key) := by
  induction hits generalizing limiter limiter' with
  | nil => rfl
  | cons x hits ih =>
    rw [answers, List.zip_cons_cons]
    by_cases hkey : x.1.key = key
    · have hentry : limiter.windows x.1.key = limiter'.windows x.1.key := hkey ▸ h
      have hwindow : limiter.window x.1 x.2 = limiter'.window x.1 x.2 := by
        simp only [window, hentry]
      have hanswer : (limiter.hit x.1 x.2).1 = (limiter'.hit x.1 x.2).1 := by
        simp only [hit, hwindow]
      have hafter : (limiter.hit x.1 x.2).2.windows key =
          (limiter'.hit x.1 x.2).2.windows key := by
        simp only [hit, hwindow, hkey, Function.update_self]
      rw [List.filter_cons_of_pos (by simpa using hkey),
        List.filter_cons_of_pos (by simpa using hkey), List.map_cons, answers, ← hanswer, ih hafter]
    · rw [List.filter_cons_of_neg (by simpa using hkey),
        List.filter_cons_of_neg (by simpa using hkey)]
      exact ih ((limiter.hit_other x.1 x.2 (Ne.symm hkey)).trans h)

/-- What holds of the answers of the dictionary on one key. -/
structure MemoryLaw (limit : ℕ) (w : T) (hits : List (Hit T × T)) (key : String) : Prop where
  windows : WindowLaw limit w (fun a b => b < a + w)
    (onKey id key (MemoryRateLimiter.new.ticks hits)).reverse
  answers : (MemoryRateLimiter.new.ticks hits).map (fun x => allowed limit x.2) =
    MemoryRateLimiter.new.answers hits
  independent : ((hits.zip (MemoryRateLimiter.new.answers hits)).filter
      fun x => x.1.1.key = key).map Prod.snd =
    MemoryRateLimiter.new.answers (hits.filter fun x => x.1.key = key)

theorem memory_law [IsOrderedAddMonoid T] (limit : ℕ) (w : T) {hits : List (Hit T × T)}
    (hhits : ∀ x ∈ hits, x.1.limit = limit ∧ x.1.windowSeconds = w)
    (hmono : (hits.map Prod.snd).Pairwise (· ≤ ·)) (hpos : ∀ x ∈ hits, 0 ≤ x.2) (key : String) :
    MemoryLaw limit w hits key := by
  have hstart : MemoryWindow w ((MemoryRateLimiter.new (T := T)).windows key) [] :=
    Or.inl ⟨rfl, rfl⟩
  obtain ⟨limiter', hend⟩ := hstart.ticks (fun x hx => (hhits x hx).2) hmono hpos
    fun y hy => nomatch hy
  rw [List.append_nil] at hend
  refine ⟨?_, MemoryRateLimiter.answers_eq _ limit hits fun x hx => (hhits x hx).1,
    MemoryRateLimiter.answers_on_key rfl hits⟩
  rcases hend with ⟨-, hnil⟩ | ⟨opened, count, hwin, -⟩
  · rw [hnil]
    exact .nil limit w _
  · exact hwin.law limit

namespace RedisRateLimiter
variable {ι : Type} [DecidableEq ι]

/-- The counter of a key counts the window that is open or was open last; without an
expiry it is open. -/
def RedisWindow (w : T) (stored : Option (Counter T)) (log : List (Tick T)) : Prop :=
  stored = none ∧ log = [] ∨ ∃ opened count expiresAt,
    Windowed w (fun _ _ => True) opened count log ∧ stored = some ⟨count, expiresAt⟩ ∧
      ∀ e ∈ expiresAt, opened + w ≤ e

theorem RedisWindow.incr {w : T} {redis : Redis T} {key : String} {now : T} {log : List (Tick T)}
    (h : RedisWindow w (redis.store key) log) (hlog : ∀ y ∈ log, y.time ≤ now) :
    RedisWindow w ((redis.incr key now).2.store key)
      (⟨now, (redis.incr key now).1, (redis.get key now).isNone⟩ :: log) := by
  have hafter : (redis.incr key now).2.store key =
      some ⟨((redis.get key now).getD ⟨0, none⟩).count + 1,
        ((redis.get key now).getD ⟨0, none⟩).expiresAt⟩ := Function.update_self _ _ _
  rw [hafter, Redis.incr_eq]
  cases hget : redis.get key now with
  | some counter =>
    obtain ⟨hstored, -⟩ := Redis.get_eq_some.mp hget
    rcases h with ⟨hnone, -⟩ | ⟨opened, count, expiresAt, hwin, hsome, hexpiry⟩
    · rw [hnone] at hstored
      cases hstored
    · obtain rfl : (⟨count, expiresAt⟩ : Counter T) = counter :=
        Option.some.inj (hsome.symm.trans hstored)
      exact Or.inr ⟨opened, count + 1, expiresAt, .continues hwin hlog trivial, rfl, hexpiry⟩
  | none =>
    have habsent := Redis.get_eq_none.mp hget
    have hnone : ∀ e ∈ (none : Option T), now + w ≤ e := fun e he => nomatch he
    rcases h with ⟨-, rfl⟩ | ⟨opened, count, expiresAt, hwin, hsome, hexpiry⟩
    · exact Or.inr ⟨now, 1, none, .first now, rfl, hnone⟩
    · obtain ⟨e, he, hle⟩ := habsent _ hsome
      exact Or.inr ⟨now, 1, none, .reopens hwin hlog ((hexpiry e he).trans hle), rfl, hnone⟩

theorem RedisWindow.expire [IsOrderedAddMonoid T] {w : T} {redis : Redis T} {key : String}
    {now : T} {log : List (Tick T)} (h : RedisWindow w (redis.store key) log)
    (hlog : ∀ y ∈ log, y.time ≤ now) :
    RedisWindow w ((redis.expire key w now).store key) log := by
  cases hget : redis.get key now with
  | none =>
    rw [Redis.expire_of_absent hget]
    exact h
  | some counter =>
    obtain ⟨hstored, -⟩ := Redis.get_eq_some.mp hget
    rw [Redis.expire_of_get hget]
    rcases h with ⟨hnone, -⟩ | ⟨opened, count, expiresAt, hwin, hsome, hexpiry⟩
    · rw [hnone] at hstored
      cases hstored
    · obtain rfl : (⟨count, expiresAt⟩ : Counter T) = counter :=
        Option.some.inj (hsome.symm.trans hstored)
      obtain ⟨y, hy, hyo⟩ := hwin.opened_mem
      refine Or.inr ⟨opened, count, some (now + w), hwin, Function.update_self _ _ _, ?_⟩
      intro e he
      rw [← Option.some.inj he, ← hyo]
      exact add_le_add_left (hlog y hy) w

variable {calls : ι → Hit T} {s t : State ι T}

/-- The action is a command. -/
def Action.Sends : Action ι T → Prop
  | .command _ _ => True
  | .stop _ => False

/-- The first command of every call, newest first. -/
def firstCommands (as : List (Action ι T)) : List (ι × T) :=
  as.foldl (fun sent a => match a with
    | .command i now => if i ∈ sent.map Prod.fst then sent else (i, now) :: sent
    | .stop _ => sent) []

omit [AddCommGroup T] [LinearOrder T] in
theorem firstCommands_snoc (as : List (Action ι T)) (i : ι) (now : T) :
    firstCommands (as ++ [.command i now]) =
      if i ∈ (firstCommands as).map Prod.fst then firstCommands as
      else (i, now) :: firstCommands as := by
  rw [firstCommands, List.foldl_append]
  rfl

/-- The actions of one call. -/
def sentBy (i : ι) (as : List (Action ι T)) : List (Action ι T) := as.filter fun a => a.caller = i

omit [AddCommGroup T] [LinearOrder T] in
@[simp] theorem sentBy_snoc_self (i : ι) (as : List (Action ι T)) (now : T) :
    sentBy i (as ++ [.command i now]) = sentBy i as ++ [.command i now] := by
  simp [sentBy, Action.caller]

omit [AddCommGroup T] [LinearOrder T] in
theorem sentBy_snoc_other {i j : ι} (hj : j ≠ i) (as : List (Action ι T)) (now : T) :
    sentBy j (as ++ [.command i now]) = sentBy j as := by
  simp [sentBy, Action.caller, hj.symm]

/-- How far a call is, by what it has sent and how it was counted: only the call that was
counted as the first one has a second command to send. -/
inductive Progress (limit : ℕ) (i : ι) (sent : List (Action ι T)) (counted : List (ι × Tick T)) :
    Phase → Prop
  | waiting (hsent : sent = []) (hcounted : counted = []) : Progress limit i sent counted .waiting
  | created (x : Tick T) (hsent : sent = [.command i x.time]) (hcounted : counted = [(i, x)])
      (hone : x.count = 1) : Progress limit i sent counted .created
  | returned (x : Tick T) (hsent : sent ≠ []) (hcounted : counted = [(i, x)]) :
      Progress limit i sent counted (.returned (allowed limit x))

/-- The state of Redis after these actions holds the windows of its log, which has the first
command of every call, and every call is as far as its commands have brought it. -/
structure RedisInv (limit : ℕ) (w : T) (calls : ι → Hit T) (as : List (Action ι T))
    (s : State ι T) : Prop where
  times : ∀ x ∈ s.log, x.2.time ≤ s.clock
  window : ∀ key, RedisWindow w (s.redis.store (fullKey key))
    (onKey (fun i => (calls i).key) key s.log)
  commands : s.log.map (fun x => (x.1, x.2.time)) = firstCommands as
  progress : ∀ i, Progress limit i (sentBy i as) (s.log.filter fun x => x.1 = i) (s.phase i)

namespace RedisInv
variable {limit : ℕ} {w now : T} {as : List (Action ι T)} {i : ι}

/-- The callers of the log have sent a command. -/
theorem mem_firstCommands_iff (h : RedisInv limit w calls as s) (i : ι) :
    i ∈ (firstCommands as).map Prod.fst ↔ s.log.filter (fun x => x.1 = i) ≠ [] := by
  rw [← h.commands, List.map_map, List.mem_map]
  simp only [ne_eq, List.filter_eq_nil_iff, decide_eq_true_eq, not_forall, not_not,
    Function.comp_apply, exists_prop]

/-- The calls that a command of another call leaves where they are. -/
theorem progress_other (h : RedisInv limit w calls as s) {j : ι} (hj : j ≠ i) (p : Phase) :
    Progress limit j (sentBy j (as ++ [.command i now])) (s.log.filter fun x => x.1 = j)
      (Function.update s.phase i p j) := by
  rw [sentBy_snoc_other hj, Function.update_of_ne hj]
  exact h.progress j

theorem onKey_times (h : RedisInv limit w calls as s) (hclock : s.clock ≤ now) (key : String) :
    ∀ y ∈ onKey (fun i => (calls i).key) key s.log, y.time ≤ now := by
  intro y hy
  obtain ⟨k, hk⟩ := mem_onKey hy
  exact (h.times _ hk).trans hclock

/-- The INCR of a call counts it. -/
theorem sendIncr (h : RedisInv limit w calls as s) (hlimit : (calls i).limit = limit)
    (hclock : s.clock ≤ now) (hphase : s.phase i = .waiting) :
    RedisInv limit w calls (as ++ [.command i now]) (s.sendIncr calls i now) := by
  have hwaiting := h.progress i
  rw [hphase] at hwaiting
  cases hwaiting with
  | waiting hsent hcounted =>
    have hnew : i ∉ (firstCommands as).map Prod.fst := fun hmem =>
      (h.mem_firstCommands_iff i).mp hmem hcounted
    refine ⟨fun x hx => ?_, fun key => ?_, ?_, fun j => ?_⟩
    · rcases List.mem_cons.mp hx with rfl | hx
      · exact le_rfl
      · exact (h.times x hx).trans hclock
    · dsimp only [State.sendIncr]
      rw [onKey_cons]
      by_cases hkey : (calls i).key = key
      · subst hkey
        rw [if_pos rfl]
        exact (h.window _).incr (h.onKey_times hclock _)
      · rw [if_neg hkey, Redis.incr_store_other fun he => hkey (fullKey_injective he).symm]
        exact h.window key
    · rw [firstCommands_snoc, if_neg hnew, ← h.commands]
      rfl
    · dsimp only [State.sendIncr]
      by_cases hj : j = i
      · subst hj
        rw [Function.update_self, List.filter_cons_of_pos (by simp), hcounted, sentBy_snoc_self,
          hsent]
        by_cases hone : (s.redis.incr (fullKey (calls j).key) now).1 = 1
        · rw [if_pos hone]
          exact .created _ rfl rfl hone
        · rw [if_neg hone, hlimit]
          have hanswer : decide (((s.redis.incr (fullKey (calls j).key) now).1 : ℤ) ≤ limit) =
              allowed limit ⟨now, (s.redis.incr (fullKey (calls j).key) now).1,
                (s.redis.get (fullKey (calls j).key) now).isNone⟩ :=
            decide_eq_decide.mpr Int.ofNat_le
          rw [hanswer]
          exact .returned _ (List.cons_ne_nil _ _) rfl
      · rw [List.filter_cons_of_neg (by simpa using Ne.symm hj)]
        exact h.progress_other hj _

/-- The EXPIRE of a call that was counted as the first one. -/
theorem sendExpire [IsOrderedAddMonoid T] (h : RedisInv limit w calls as s)
    (hcall : (calls i).limit = limit ∧ (calls i).windowSeconds = w) (hclock : s.clock ≤ now)
    (hphase : s.phase i = .created) :
    RedisInv limit w calls (as ++ [.command i now]) (s.sendExpire calls i now) := by
  have hcreated := h.progress i
  rw [hphase] at hcreated
  cases hcreated with
  | created x hsent hcounted hone =>
    have hknown : i ∈ (firstCommands as).map Prod.fst :=
      (h.mem_firstCommands_iff i).mpr (by rw [hcounted]; exact List.cons_ne_nil _ _)
    refine ⟨fun x hx => (h.times x hx).trans hclock, fun key => ?_, ?_, fun j => ?_⟩
    · dsimp only [State.sendExpire]
      by_cases hkey : (calls i).key = key
      · subst hkey
        rw [hcall.2]
        exact (h.window _).expire (h.onKey_times hclock _)
      · rw [Redis.expire_store_other fun he => hkey (fullKey_injective he).symm]
        exact h.window key
    · rw [firstCommands_snoc, if_pos hknown]
      exact h.commands
    · dsimp only [State.sendExpire]
      by_cases hj : j = i
      · subst hj
        have hanswer : decide (1 ≤ (calls j).limit) = allowed limit x := by
          rw [hcall.1, allowed, hone]
          exact decide_eq_decide.mpr (by omega)
        rw [Function.update_self, hcounted, hanswer]
        exact .returned x (by simp) rfl
      · exact h.progress_other hj _

theorem step [IsOrderedAddMonoid T] (h : RedisInv limit w calls as s)
    (hcalls : ∀ i, (calls i).limit = limit ∧ (calls i).windowSeconds = w) {a : Action ι T}
    (ha : a.Sends) (hs : s.step calls a = some t) : RedisInv limit w calls (as ++ [a]) t := by
  cases State.step_iff.mp hs with
  | incr i now hclock hphase => exact h.sendIncr (hcalls i).1 hclock hphase
  | expire i now hclock hphase => exact h.sendExpire (hcalls i) hclock hphase
  | stop i hphase => exact ha.elim

theorem initial (limit : ℕ) (w clock : T) :
    RedisInv limit w calls [] (State.initial clock) := by
  refine ⟨fun x hx => ?_, fun key => Or.inl ⟨rfl, rfl⟩, rfl, fun i => .waiting rfl rfl⟩
  cases hx

theorem run [IsOrderedAddMonoid T] {clock : T}
    (hcalls : ∀ i, (calls i).limit = limit ∧ (calls i).windowSeconds = w)
    (ha : ∀ a ∈ as, a.Sends) (hr : (State.initial clock).run calls as = some s) :
    RedisInv limit w calls as s :=
  State.run_invariant (I := RedisInv limit w calls) hr (.initial limit w clock)
    fun _ a _ _ hpre _ hu hstep => hu.step hcalls (ha a (Runs.action_mem hpre)) hstep

end RedisInv

/-- The two states do not differ in what concerns one key; the second has the earlier clock. -/
structure SameOn (calls : ι → Hit T) (key : String) (s s' : State ι T) : Prop where
  store : s'.redis.store (fullKey key) = s.redis.store (fullKey key)
  clock : s'.clock ≤ s.clock
  phase : ∀ i, (calls i).key = key → s'.phase i = s.phase i
  log : onKey (fun i => (calls i).key) key s'.log = onKey (fun i => (calls i).key) key s.log

variable {key : String} {s' : State ι T}

omit [AddCommGroup T] [DecidableEq ι] in
theorem SameOn.get (h : SameOn calls key s s') (now : T) :
    s'.redis.get (fullKey key) now = s.redis.get (fullKey key) now := by
  simp only [Redis.get, h.store]

omit [AddCommGroup T] in
theorem SameOn.update_phase (h : SameOn calls key s s') (i : ι) (p : Phase) :
    ∀ j, (calls j).key = key → Function.update s'.phase i p j = Function.update s.phase i p j := by
  intro j hj
  by_cases hji : j = i
  · subst hji
    rw [Function.update_self, Function.update_self]
  · rw [Function.update_of_ne hji, Function.update_of_ne hji]
    exact h.phase j hj

/-- A step of a call on the key is the same in both states. -/
theorem SameOn.step (h : SameOn calls key s s') {a : Action ι T} (ha : (calls a.caller).key = key)
    (hs : s.step calls a = some t) : ∃ t', s'.step calls a = some t' ∧ SameOn calls key t t' := by
  cases State.step_iff.mp hs with
  | incr i now hclock hphase =>
    obtain rfl : (calls i).key = key := ha
    refine ⟨_, State.step_iff.mpr (.incr i now (h.clock.trans hclock)
      ((h.phase i rfl).trans hphase)), ?_, le_rfl, ?_, ?_⟩
    · simp only [State.sendIncr, Redis.incr_eq, h.get, Function.update_self]
    · simp only [State.sendIncr, Redis.incr_eq, h.get]
      exact h.update_phase i _
    · simp only [State.sendIncr, Redis.incr_eq, h.get, onKey_cons, if_true, h.log]
  | expire i now hclock hphase =>
    obtain rfl : (calls i).key = key := ha
    refine ⟨_, State.step_iff.mpr (.expire i now (h.clock.trans hclock)
      ((h.phase i rfl).trans hphase)), ?_, le_rfl, h.update_phase i _, h.log⟩
    simp only [State.sendExpire]
    cases hget : s.redis.get (fullKey (calls i).key) now with
    | none =>
      rw [Redis.expire_of_absent hget, Redis.expire_of_absent ((h.get now).trans hget)]
      exact h.store
    | some counter =>
      rw [Redis.expire_of_get hget, Redis.expire_of_get ((h.get now).trans hget)]
      simp only [Function.update_self]
  | stop i hphase =>
    obtain rfl : (calls i).key = key := ha
    have hsame := h.phase i rfl
    exact ⟨_, State.step_iff.mpr (.stop i (by rw [hsame]; exact hphase)), h.store, h.clock,
      h.update_phase i _, h.log⟩

/-- A step of a call on another key does not concern this one. -/
theorem SameOn.step_other (h : SameOn calls key s s') {a : Action ι T}
    (ha : (calls a.caller).key ≠ key) (hs : s.step calls a = some t) : SameOn calls key t s' := by
  have hkey : fullKey key ≠ fullKey (calls a.caller).key := fun he => ha (fullKey_injective he).symm
  have hphase : ∀ p i, (calls i).key = key → s'.phase i = Function.update s.phase a.caller p i := by
    intro p i hi
    have hne : i ≠ a.caller := by
      rintro rfl
      exact ha hi
    rw [Function.update_of_ne hne]
    exact h.phase i hi
  cases State.step_iff.mp hs with
  | incr i now hclock _ =>
    refine ⟨?_, h.clock.trans hclock, hphase _, ?_⟩
    · simp only [State.sendIncr]
      exact h.store.trans (Redis.incr_store_other hkey).symm
    · have hi : (calls i).key ≠ key := ha
      simp only [State.sendIncr, onKey_cons]
      rw [if_neg hi]
      exact h.log
  | expire i now hclock _ =>
    refine ⟨?_, h.clock.trans hclock, hphase _, h.log⟩
    simp only [State.sendExpire]
    exact h.store.trans (Redis.expire_store_other hkey _).symm
  | stop i _ => exact ⟨h.store, h.clock, hphase _, h.log⟩

/-- A run without the calls on other keys. -/
theorem SameOn.run (h : SameOn calls key s s') {as : List (Action ι T)}
    (hr : s.run calls as = some t) :
    ∃ t', s'.run calls (as.filter fun a => (calls a.caller).key = key) = some t' ∧
      SameOn calls key t t' := by
  induction as generalizing s s' with
  | nil =>
    obtain rfl : s = t := by simpa using hr
    exact ⟨s', rfl, h⟩
  | cons a as ih =>
    rw [State.run_cons, Option.bind_eq_some_iff] at hr
    obtain ⟨u, hu, hr⟩ := hr
    by_cases ha : (calls a.caller).key = key
    · obtain ⟨u', hu', hsame⟩ := h.step ha hu
      obtain ⟨t', ht', hend⟩ := ih hsame hr
      refine ⟨t', ?_, hend⟩
      rw [List.filter_cons_of_pos (by simpa using ha), State.run_cons, hu']
      exact ht'
    · obtain ⟨t', ht', hend⟩ := ih (h.step_other ha hu) hr
      refine ⟨t', ?_, hend⟩
      rw [List.filter_cons_of_neg (by simpa using ha)]
      exact ht'

/-- What holds of the hits on one key after a run from an empty store. -/
structure RedisLaw (limit : ℕ) (w : T) (calls : ι → Hit T) (clock : T) (as : List (Action ι T))
    (s : State ι T) (key : String) : Prop where
  windows : WindowLaw limit w (fun _ _ => True) (onKey (fun i => (calls i).key) key s.log)
  /-- The hits of the log are the calls that have sent a command, as they sent the first. -/
  commands : s.log.map (fun x => (x.1, x.2.time)) = firstCommands as
  /-- Each of them is counted once and returns whether its count is within the limit, the
  first one of a window after its second command. -/
  counted : ∀ i now, .command i now ∈ as → ∃ x, (s.log.filter fun y => y.1 = i) = [(i, x)] ∧
    (s.phase i = .returned (allowed limit x) ∨
      s.phase i = .created ∧ x.count = 1 ∧ sentBy i as = [.command i x.time])
  answers : ∀ i b, s.phase i = .returned b → ∃ x, (i, x) ∈ s.log ∧ b = allowed limit x
  independent : ∃ s', (State.initial clock).run calls
      (as.filter fun a => (calls a.caller).key = key) = some s' ∧
    onKey (fun i => (calls i).key) key s'.log = onKey (fun i => (calls i).key) key s.log ∧
    ∀ i, (calls i).key = key → s'.phase i = s.phase i

namespace RedisInv
variable {limit : ℕ} {w : T} {as : List (Action ι T)}

theorem windowLaw [IsOrderedAddMonoid T] (h : RedisInv limit w calls as s) (key : String) :
    WindowLaw limit w (fun _ _ => True) (onKey (fun i => (calls i).key) key s.log) := by
  rcases h.window key with ⟨-, hnil⟩ | ⟨opened, count, expiresAt, hwin, -⟩
  · rw [hnil]
    exact .nil limit w _
  · exact hwin.law limit

/-- A call that has sent a command is counted once. -/
theorem counted (h : RedisInv limit w calls as s) {i : ι} {now : T}
    (hsent : .command i now ∈ as) : ∃ x, (s.log.filter fun y => y.1 = i) = [(i, x)] ∧
      (s.phase i = .returned (allowed limit x) ∨ s.phase i = .created ∧ x.count = 1 ∧
        sentBy i as = [.command i x.time]) := by
  have hmem : .command i now ∈ sentBy i as :=
    List.mem_filter.mpr ⟨hsent, by simp [Action.caller]⟩
  have hprogress := h.progress i
  generalize hphase : s.phase i = p at hprogress
  cases hprogress with
  | waiting hnone hcounted =>
    rw [hnone] at hmem
    cases hmem
  | created x hone hcounted hcount => exact ⟨x, hcounted, Or.inr ⟨rfl, hcount, hone⟩⟩
  | returned x hany hcounted => exact ⟨x, hcounted, Or.inl rfl⟩

theorem answered (h : RedisInv limit w calls as s) {i : ι} {b : Bool}
    (hreturned : s.phase i = .returned b) : ∃ x, (i, x) ∈ s.log ∧ b = allowed limit x := by
  have hprogress := h.progress i
  rw [hreturned] at hprogress
  cases hprogress with
  | returned x hany hcounted =>
    have hmem : (i, x) ∈ s.log.filter fun y => y.1 = i := by
      rw [hcounted]
      exact List.mem_singleton_self _
    exact ⟨x, (List.mem_filter.mp hmem).1, rfl⟩

end RedisInv

theorem redis_law [IsOrderedAddMonoid T] {limit : ℕ} {w clock : T}
    (hcalls : ∀ i, (calls i).limit = limit ∧ (calls i).windowSeconds = w)
    {as : List (Action ι T)} (ha : ∀ a ∈ as, a.Sends)
    (hr : (State.initial clock).run calls as = some s) (key : String) :
    RedisLaw limit w calls clock as s key := by
  have hend : RedisInv limit w calls as s := .run hcalls ha hr
  have hstart : SameOn calls key (State.initial (T := T) clock) (State.initial clock) :=
    ⟨rfl, le_rfl, fun _ _ => rfl, rfl⟩
  obtain ⟨s', hs', hsame⟩ := hstart.run hr
  exact ⟨hend.windowLaw key, hend.commands, fun _ _ => hend.counted, fun _ _ => hend.answered,
    s', hs', hsame.log, hsame.phase⟩

end RedisRateLimiter

/-- For every limit and window, over any sequence of hits on the dictionary and any
interleaving of the commands to Redis: on every key at most twice the limit is allowed in
an interval as long as the window, of the hits of one window the first ones are allowed up
to the limit, and the answers are those without the hits on other keys. -/
theorem limiters_bounded [IsOrderedAddMonoid T] {ι : Type} [DecidableEq ι] (limit : ℕ) (w : T) :
    (∀ hits : List (String × T), (hits.map Prod.snd).Pairwise (· ≤ ·) → (∀ x ∈ hits, 0 ≤ x.2) →
      ∀ key, MemoryLaw limit w (hits.map fun x => (⟨x.1, limit, w⟩, x.2)) key) ∧
    ∀ (keyOf : ι → String) (clock : T) (as : List (RedisRateLimiter.Action ι T))
      (s : RedisRateLimiter.State ι T), (∀ a ∈ as, a.Sends) →
      (RedisRateLimiter.State.initial clock).run (fun i => ⟨keyOf i, limit, w⟩) as = some s →
        ∀ key, RedisRateLimiter.RedisLaw limit w (fun i => ⟨keyOf i, limit, w⟩) clock as s key := by
  constructor
  · intro hits hmono hpos key
    refine memory_law limit w (fun x hx => ?_) ?_ (fun x hx => ?_) key
    · obtain ⟨y, -, rfl⟩ := List.mem_map.mp hx
      exact ⟨rfl, rfl⟩
    · rw [List.map_map]
      exact hmono
    · obtain ⟨y, hy, rfl⟩ := List.mem_map.mp hx
      exact hpos y hy
  · intro keyOf clock as s ha hr key
    refine RedisRateLimiter.redis_law (fun i => ?_) ha hr key
    exact ⟨rfl, rfl⟩

/-- The second of two calls is counted before the first one has sent its EXPIRE. -/
def lateExpire : List (RedisRateLimiter.Action Bool ℤ) :=
  [.command false 5, .command true 6, .command false 7]

theorem limiters_bounded_two :
    (MemoryLaw 1 (60 : ℤ) [(⟨"a", 1, 60⟩, 5), (⟨"a", 1, 60⟩, 6)] "a" ∧
      MemoryRateLimiter.new.answers [(⟨"a", 1, 60⟩, (5 : ℤ)), (⟨"a", 1, 60⟩, 6)] = [true, false]) ∧
    ∃ s, (RedisRateLimiter.State.initial 0).run (fun _ => ⟨"a", 1, 60⟩) lateExpire = some s ∧
      s.phase false = .returned true ∧ s.phase true = .returned false ∧
      RedisRateLimiter.RedisLaw 1 60 (fun _ => ⟨"a", 1, 60⟩) 0 lateExpire s "a" := by
  obtain ⟨hmemory, hredis⟩ := limiters_bounded (ι := Bool) 1 (60 : ℤ)
  refine ⟨⟨hmemory [("a", 5), ("a", 6)] (by decide) (by decide) "a", by decide⟩, ?_⟩
  have hrun : ((RedisRateLimiter.State.initial 0).run (fun _ => ⟨"a", 1, 60⟩) lateExpire).map
      (fun s => (s.phase false, s.phase true)) = some (.returned true, .returned false) := by decide
  obtain ⟨s, hs, hanswers⟩ := Option.map_eq_some_iff.mp hrun
  simp only [Prod.mk.injEq] at hanswers
  refine ⟨s, hs, hanswers.1, hanswers.2, hredis (fun _ => "a") 0 lateExpire s ?_ hs "a"⟩
  simp [lateExpire, RedisRateLimiter.Action.Sends]

end EnvVault
