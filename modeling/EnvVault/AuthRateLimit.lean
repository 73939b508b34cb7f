import EnvVault.RateLimiters
import Mathlib.Algebra.Order.Group.Int
import Mathlib.Data.List.DropRight
import Mathlib.Data.Set.Basic

/-!
# The rate limit of the authentication routes

`rate_limit_auth` counts the requests to register, login and refresh by the address of
the client, in the limiter that `lifespan` has installed. The address is the first hop
of `X-Forwarded-For`, and a request that comes before `lifespan` has run is counted in a
limiter of its own.
-/
namespace EnvVault

/-- The whitespace that `str.strip` removes. -/
def isSpace (c : Char) : Bool :=
  let n := c.toNat
  decide (9 ≤ n ∧ n ≤ 13 ∨ 28 ≤ n ∧ n ≤ 32 ∨ n = 0x85 ∨ n = 0xa0 ∨ n = 0x1680 ∨
    0x2000 ≤ n ∧ n ≤ 0x200a ∨ n = 0x2028 ∨ n = 0x2029 ∨ n = 0x202f ∨ n = 0x205f ∨ n = 0x3000)

def strip (s : List Char) : List Char := (s.dropWhile isSpace).rdropWhile isSpace

/-- What the application reads of a request: the values of its `X-Forwarded-For` headers
and the host of its TCP peer. -/
structure HttpRequest where
  forwardedFor : List String
  clientHost : Option String

/-- `forwarded.split(",")[0].strip()` -/
def firstHop (forwarded : String) : String :=
  String.ofList (strip (forwarded.toList.takeWhile (· ≠ ',')))

/-- `headers.get` returns the first value, and an empty one counts as none. -/
def clientIp (request : HttpRequest) : String :=
  let forwarded := request.forwardedFor.head?.getD ""
  if forwarded ≠ "" then firstHop forwarded else request.clientHost.getD "unknown"

/-- The peer reaches the application, or it reaches a proxy that appends the address of
the peer to whatever was sent. -/
inductive Topology : Type
  | direct (peer : String)
  | proxied (proxy peer : String)

/-- The request as the application gets it, by the header values that the client sends. -/
def Topology.deliver : Topology → List String → HttpRequest
  | .direct peer, values => ⟨values, some peer⟩
  | .proxied proxy peer, values =>
    ⟨[values.foldr (fun value rest => value ++ (", " ++ rest)) peer], some proxy⟩

/-- The text of an address: it has neither a comma nor whitespace. -/
def IsAddress (s : String) : Prop := s ≠ "" ∧ ∀ c ∈ s.toList, c ≠ ',' ∧ isSpace c = false

theorem strip_of_no_space {s : List Char} (h : ∀ c ∈ s, isSpace c = false) : strip s = s := by
  have hdrop : ∀ l : List Char, (∀ c ∈ l, isSpace c = false) → l.dropWhile isSpace = l := by
    intro l hl
    cases l with
    | nil => rfl
    | cons c l => rw [List.dropWhile_cons_of_neg (by simp [hl c])]
  rw [strip, hdrop s h, List.rdropWhile, hdrop _ fun c hc => h c (List.mem_reverse.mp hc),
    List.reverse_reverse]

theorem firstHop_address {s : String} (h : IsAddress s) : firstHop s = s := by
  have htake : s.toList.takeWhile (· ≠ ',') = s.toList :=
    List.takeWhile_eq_self_iff.mpr fun c hc => by simpa using (h.2 c hc).1
  rw [firstHop, htake, strip_of_no_space fun c hc => (h.2 c hc).2, String.ofList_toList]

/-- The first hop is what the sender of the first value wrote, whatever was appended. -/
theorem firstHop_append (value rest : String) :
    firstHop (value ++ (", " ++ rest)) = firstHop value := by
  have hcomma : (", " ++ rest).toList.takeWhile (· ≠ ',') = [] := by simp
  have htake : (value ++ (", " ++ rest)).toList.takeWhile (· ≠ ',') =
      value.toList.takeWhile (· ≠ ',') := by
    rw [String.toList_append, List.takeWhile_append, hcomma, List.append_nil]
    split
    · rename_i hall
      exact ((List.takeWhile_prefix _).eq_of_length hall).symm
    · rfl
  rw [firstHop, htake, firstHop]

/-- What a client is known by: the first hop that it sends, or its own address. -/
def sentAddress (peer : String) : List String → String
  | [] => peer
  | value :: _ => firstHop value

theorem clientIp_direct (peer : String) {values : List String} (h : values.head? ≠ some "") :
    clientIp (Topology.deliver (.direct peer) values) = sentAddress peer values := by
  cases values with
  | nil => rfl
  | cons value values => exact if_pos fun he => h (congrArg some he)

theorem clientIp_proxied (proxy : String) {peer : String} (hpeer : IsAddress peer)
    {values : List String} (h : values.head? ≠ some "") :
    clientIp (Topology.deliver (.proxied proxy peer) values) = sentAddress peer values := by
  cases values with
  | nil => exact (if_pos hpeer.1).trans (firstHop_address hpeer)
  | cons value values =>
    have hne : value ≠ "" := fun he => h (congrArg some he)
    have happend : value ++ (", " ++ values.foldr (fun v rest => v ++ (", " ++ rest)) peer) ≠
        "" := by
      simp [hne]
    exact (if_pos happend).trans (firstHop_append _ _)

variable {T : Type} [AddCommGroup T] [LinearOrder T]

/-- `settings.RATE_LIMIT_BACKEND` -/
inductive RateLimitBackend : Type
  | redis
  | memory
deriving DecidableEq

/-- The settings of the rate limit and their defaults; the default window is a minute. -/
structure RateLimitSettings (T : Type) where
  enabled : Bool := true
  backend : RateLimitBackend := .redis
  authRequests : ℤ := 20
  authWindowSeconds : T

/-- A limiter object; a `RedisRateLimiter` has its counters in Redis. -/
inductive RateLimiter (T : Type) : Type
  | noOp
  | memory (limiter : MemoryRateLimiter T)
  | redis (store : Redis T)

namespace RateLimiter

def hit (limiter : RateLimiter T) (h : Hit T) (now : T) : Bool × RateLimiter T :=
  match limiter with
  | .noOp => (true, .noOp)
  | .memory limiter => ((limiter.hit h now).1, .memory (limiter.hit h now).2)
  | .redis store =>
    ((RedisRateLimiter.hit store h now).1, .redis (RedisRateLimiter.hit store h now).2)

/-- A hit on this key is counted as the first one of a window. -/
def countsFirst (limiter : RateLimiter T) (key : String) (now : T) : Bool :=
  match limiter with
  | .noOp => false
  | .memory limiter => decide (((limiter.windows key).getD (0, 0)).2 ≤ now)
  | .redis store => (store.get (fullKey key) now).isNone

end RateLimiter

/-- The limiter that `lifespan` installs on `app.state`, with what Redis holds then. -/
def lifespan (settings : RateLimitSettings T) (stored : Redis T) : RateLimiter T :=
  if settings.enabled then
    match settings.backend with
    | .memory => .memory .new
    | .redis => .redis stored
  else .noOp

/-- The installed limiter; before there is one, each request gets a new limiter. -/
def getRateLimiter (settings : RateLimitSettings T) (installed : Option (RateLimiter T)) :
    RateLimiter T :=
  match installed with
  | some limiter => limiter
  | none => if settings.enabled then .memory .new else .noOp

/-- The HTTPException of a refused request. -/
structure TooManyRequests (T : Type) where
  statusCode : ℕ := 429
  detail : String := "Rate limit exceeded. Try again later."
  retryAfter : T
deriving DecidableEq

def authKey (ip : String) : String := "auth:" ++ ip

theorem authKey_injective : Function.Injective authKey := fun a b h => by
  simpa [authKey, String.append_right_inj] using h

def authHit (settings : RateLimitSettings T) (request : HttpRequest) : Hit T :=
  ⟨authKey (clientIp request), settings.authRequests, settings.authWindowSeconds⟩

/-- `rate_limit_auth`, with the installed limiter after it. -/
def rateLimitAuth (settings : RateLimitSettings T) (installed : Option (RateLimiter T))
    (request : HttpRequest) (now : T) :
    Except (TooManyRequests T) Unit × Option (RateLimiter T) :=
  if settings.enabled then
    let counted := (getRateLimiter settings installed).hit (authHit settings request) now
    (if counted.1 then .ok () else .error { retryAfter := settings.authWindowSeconds },
      installed.map fun _ => counted.2)
  else (.ok (), installed)

/-- A request of the client: the header values it sends, and when it is counted. -/
structure Attempt (T : Type) where
  values : List String
  now : T

/-- What became of a request, and whether it was counted as the first of a window. -/
structure Outcome (T : Type) where
  now : T
  first : Bool
  passed : Bool

/-- The requests of one peer, one after the other. -/
def serve (settings : RateLimitSettings T) (topology : Topology) :
    Option (RateLimiter T) → List (Attempt T) → List (Outcome T)
  | _, [] => []
  | installed, attempt :: attempts =>
    let request := topology.deliver attempt.values
    let served := rateLimitAuth settings installed request attempt.now
    ⟨attempt.now,
      (getRateLimiter settings installed).countsFirst (authKey (clientIp request)) attempt.now,
      served.1.isOk⟩ :: serve settings topology served.2 attempts

/-- The requests before and after `lifespan` has installed the limiter. -/
def serveAll (settings : RateLimitSettings T) (topology : Topology) (stored : Redis T)
    (before after : List (Attempt T)) : List (Outcome T) :=
  serve settings topology none before ++
    serve settings topology (some (lifespan settings stored)) after

/-- The requests that pass in the window from `start` on. -/
def passedIn (w start : T) (outcomes : List (Outcome T)) : ℕ :=
  outcomes.countP fun x => decide (x.passed = true ∧ start ≤ x.now ∧ x.now < start + w)

/-- In no window that starts with a hit that was counted first, more requests pass than
the limit. -/
def WithinLimit (settings : RateLimitSettings T) (outcomes : List (Outcome T)) : Prop :=
  ∀ x ∈ outcomes, x.first = true →
    passedIn settings.authWindowSeconds x.now outcomes ≤ settings.authRequests.toNat

instance (settings : RateLimitSettings T) (outcomes : List (Outcome T)) :
    Decidable (WithinLimit settings outcomes) :=
  inferInstanceAs (Decidable (∀ _ ∈ _, _ → _))

namespace RedisRateLimiter
variable {redis : Redis T} {h : Hit T} {now : T}

/-- After a hit its key exists. -/
theorem hit_exists [IsOrderedAddMonoid T] (hw : 0 < h.windowSeconds) :
    ∃ counter, (hit redis h now).2.get (fullKey h.key) now = some counter := by
  have hkept : ∀ e ∈ ((redis.get (fullKey h.key) now).getD ⟨0, none⟩).expiresAt, now < e := by
    cases hget : redis.get (fullKey h.key) now with
    | none => exact nofun
    | some counter => exact (Redis.get_eq_some.mp hget).2
  have hincr : (redis.incr (fullKey h.key) now).2.get (fullKey h.key) now =
      some ⟨((redis.get (fullKey h.key) now).getD ⟨0, none⟩).count + 1,
        ((redis.get (fullKey h.key) now).getD ⟨0, none⟩).expiresAt⟩ :=
    Redis.get_eq_some.mpr ⟨Function.update_self _ _ _, hkept⟩
  unfold hit
  dsimp only
  split
  · rw [Redis.expire_of_get hincr]
    refine ⟨_, Redis.get_eq_some.mpr ⟨Function.update_self _ _ _, fun e he => ?_⟩⟩
    rw [← Option.some.inj he]
    exact lt_add_of_pos_right now hw
  · exact ⟨_, hincr⟩

theorem hit_store_other {other : String} (hkey : other ≠ fullKey h.key) :
    (hit redis h now).2.store other = redis.store other := by
  unfold hit
  dsimp only
  split
  · exact (Redis.expire_store_other hkey _).trans (Redis.incr_store_other hkey)
  · exact Redis.incr_store_other hkey

end RedisRateLimiter

namespace RateLimiter
variable {limiter : RateLimiter T} {h : Hit T} {now : T}

/-- The window of the key that is open until `expiresAt`, with the hits counted in it. -/
def Counts (limiter : RateLimiter T) (key : String) (count : ℕ) (expiresAt : T) : Prop :=
  match limiter with
  | .noOp => False
  | .memory limiter => limiter.windows key = some (count, expiresAt)
  | .redis store => 0 < count ∧ store.store (fullKey key) = some ⟨count, some expiresAt⟩

theorem hit_first (hfirst : limiter.countsFirst h.key now = true) :
    (limiter.hit h now).1 = decide (1 ≤ h.limit) ∧
      (limiter.hit h now).2.Counts h.key 1 (now + h.windowSeconds) := by
  cases limiter with
  | noOp => cases hfirst
  | memory limiter =>
    rw [hit, MemoryRateLimiter.hit_over (of_decide_eq_true hfirst)]
    exact ⟨rfl, Function.update_self _ _ _⟩
  | redis store =>
    rw [hit, RedisRateLimiter.hit_absent (Option.isNone_iff_eq_none.mp hfirst)]
    exact ⟨rfl, one_pos, Function.update_self _ _ _⟩

theorem hit_counted {count : ℕ} {expiresAt : T} (hc : limiter.Counts h.key count expiresAt)
    (hin : now < expiresAt) :
    (limiter.hit h now).1 = decide (((count + 1 : ℕ) : ℤ) ≤ h.limit) ∧
      (limiter.hit h now).2.Counts h.key (count + 1) expiresAt := by
  cases limiter with
  | noOp => exact hc.elim
  | memory limiter =>
    rw [hit, MemoryRateLimiter.hit_in_window hc hin]
    exact ⟨rfl, Function.update_self _ _ _⟩
  | redis store =>
    have hget : store.get (fullKey h.key) now = some ⟨count, some expiresAt⟩ :=
      Redis.get_eq_some.mpr ⟨hc.2, fun e he => Option.some.inj he ▸ hin⟩
    rw [hit, RedisRateLimiter.hit_counted hget hc.1]
    exact ⟨rfl, Nat.succ_pos _, Function.update_self _ _ _⟩

theorem countsFirst_of_counts {key : String} {count : ℕ} {expiresAt : T}
    (hc : limiter.Counts key count expiresAt) (hin : now < expiresAt) :
    limiter.countsFirst key now = false := by
  cases limiter with
  | noOp => rfl
  | memory limiter =>
    have hwindow : limiter.windows key = some (count, expiresAt) := hc
    simpa [countsFirst, hwindow] using hin
  | redis store =>
    have hget : store.get (fullKey key) now = some ⟨count, some expiresAt⟩ :=
      Redis.get_eq_some.mpr ⟨hc.2, fun e he => Option.some.inj he ▸ hin⟩
    rw [countsFirst, hget]
    rfl

/-- After a hit the window of its key is open. -/
theorem hit_not_first [IsOrderedAddMonoid T] (hw : 0 < h.windowSeconds) :
    (limiter.hit h now).2.countsFirst h.key now = false := by
  have hlate : now < now + h.windowSeconds := lt_add_of_pos_right now hw
  cases limiter with
  | noOp => rfl
  | memory limiter =>
    by_cases hover : ((limiter.windows h.key).getD (0, 0)).2 ≤ now
    · simp only [hit, MemoryRateLimiter.hit_over hover, countsFirst, Function.update_self]
      simpa using hlate
    · simp only [hit, MemoryRateLimiter.hit, MemoryRateLimiter.window, if_neg hover, countsFirst,
        Function.update_self]
      simpa using hover
  | redis store =>
    obtain ⟨counter, hcounter⟩ : ∃ counter, (RedisRateLimiter.hit store h now).2.get
        (fullKey h.key) now = some counter := RedisRateLimiter.hit_exists hw
    rw [hit, countsFirst, hcounter]
    rfl

/-- A hit does not concern the other keys. -/
theorem countsFirst_hit_other {key : String} (hkey : key ≠ h.key) (t : T) :
    (limiter.hit h now).2.countsFirst key t = limiter.countsFirst key t := by
  cases limiter with
  | noOp => rfl
  | memory limiter =>
    simp only [hit, MemoryRateLimiter.hit, countsFirst, Function.update_of_ne hkey]
  | redis store =>
    have hstore : (RedisRateLimiter.hit store h now).2.store (fullKey key) =
        store.store (fullKey key) :=
      RedisRateLimiter.hit_store_other fun he => hkey (fullKey_injective he)
    simp only [hit, countsFirst, Redis.get, hstore]

/-- A limiter that counts lets nobody pass when the limit is not positive. -/
theorem hit_le_limit (hne : limiter ≠ .noOp) (hpass : (limiter.hit h now).1 = true) :
    1 ≤ h.limit := by
  cases limiter with
  | noOp => exact absurd rfl hne
  | memory limiter =>
    have := of_decide_eq_true hpass
    omega
  | redis store =>
    have := of_decide_eq_true hpass
    rw [Redis.incr_eq] at this
    simp only at this
    omega

theorem hit_ne_noOp (hne : limiter ≠ .noOp) : (limiter.hit h now).2 ≠ .noOp := by
  cases limiter with
  | noOp => exact absurd rfl hne
  | memory limiter => exact nofun
  | redis store => exact nofun

end RateLimiter

section
variable {settings : RateLimitSettings T} {topology : Topology}

/-- The key that the requests with these header values are counted under. -/
def keyOf (topology : Topology) (values : List String) : String :=
  authKey (clientIp (topology.deliver values))

/-- With the limit enabled a request passes if its hit is allowed. -/
theorem rateLimitAuth_enabled (henabled : settings.enabled = true)
    (installed : Option (RateLimiter T)) (request : HttpRequest) (now : T) :
    (rateLimitAuth settings installed request now).1.isOk =
        ((getRateLimiter settings installed).hit (authHit settings request) now).1 ∧
      (rateLimitAuth settings installed request now).2 = installed.map fun _ =>
        ((getRateLimiter settings installed).hit (authHit settings request) now).2 := by
  simp only [rateLimitAuth, henabled, if_true, and_true]
  cases ((getRateLimiter settings installed).hit (authHit settings request) now).1 <;> rfl

/-- A request in the limiter that is installed. -/
theorem serve_installed (henabled : settings.enabled = true) (limiter : RateLimiter T)
    (a : Attempt T) (as : List (Attempt T)) :
    serve settings topology (some limiter) (a :: as) =
      ⟨a.now, limiter.countsFirst (keyOf topology a.values) a.now,
        (limiter.hit (authHit settings (topology.deliver a.values)) a.now).1⟩ ::
      serve settings topology
        (some (limiter.hit (authHit settings (topology.deliver a.values)) a.now).2) as := by
  obtain ⟨hpassed, hafter⟩ := rateLimitAuth_enabled henabled (some limiter)
    (topology.deliver a.values) a.now
  rw [serve, hpassed, hafter]
  rfl

/-- A request before a limiter is installed: it is the first hit of a new one. -/
theorem serve_early (henabled : settings.enabled = true) (a : Attempt T) (ha : 0 ≤ a.now)
    (as : List (Attempt T)) : serve settings topology none (a :: as) =
      ⟨a.now, true, decide (1 ≤ settings.authRequests)⟩ :: serve settings topology none as := by
  obtain ⟨hpassed, hafter⟩ := rateLimitAuth_enabled henabled none (topology.deliver a.values) a.now
  have hnew : getRateLimiter settings (none : Option (RateLimiter T)) = .memory .new :=
    if_pos henabled
  have hfirst : (RateLimiter.memory (MemoryRateLimiter.new : MemoryRateLimiter T)).countsFirst
      (keyOf topology a.values) a.now = true := decide_eq_true ha
  have hanswer := (RateLimiter.hit_first (h := authHit settings (topology.deliver a.values))
    hfirst).1
  rw [serve, hpassed, hafter, hnew, hanswer]
  exact congrArg (fun first => Outcome.mk a.now first _ :: _) hfirst

theorem serve_now (installed : Option (RateLimiter T)) (as : List (Attempt T)) :
    (serve settings topology installed as).map Outcome.now = as.map Attempt.now := by
  induction as generalizing installed with
  | nil => rfl
  | cons a as ih => simp only [serve, List.map_cons, ih]

theorem serve_time {installed : Option (RateLimiter T)} {as : List (Attempt T)} {x : Outcome T}
    (hx : x ∈ serve settings topology installed as) : ∃ a ∈ as, a.now = x.now := by
  have hmem := List.mem_map_of_mem (f := Outcome.now) hx
  rw [serve_now] at hmem
  exact List.mem_map.mp hmem

omit [LinearOrder T] in
theorem passedIn_cons [LinearOrder T] (w start : T) (x : Outcome T) (xs : List (Outcome T)) :
    passedIn w start (x :: xs) = passedIn w start xs +
      if x.passed = true ∧ start ≤ x.now ∧ x.now < start + w then 1 else 0 := by
  simp [passedIn, List.countP_cons]

theorem passedIn_cons_le (w start now : T) (first : Bool) (p : Prop) [Decidable p]
    (xs : List (Outcome T)) :
    passedIn w start (⟨now, first, decide p⟩ :: xs) ≤ passedIn w start xs + if p then 1 else 0 := by
  rw [passedIn_cons]
  by_cases hp : p
  · rw [if_pos hp]
    split <;> omega
  · simp [hp]

theorem passedIn_eq_zero {w start : T} {xs : List (Outcome T)}
    (h : ∀ x ∈ xs, ¬ (x.passed = true ∧ start ≤ x.now ∧ x.now < start + w)) :
    passedIn w start xs = 0 :=
  List.countP_eq_zero.mpr fun x hx => by simpa using h x hx

/-- While a window is open, the requests on its key pass as long as the count is below the
limit. -/
theorem passedIn_of_counts (henabled : settings.enabled = true) {key : String}
    {limiter : RateLimiter T} {count : ℕ} {start : T} {as : List (Attempt T)}
    (hkey : ∀ a ∈ as, keyOf topology a.values = key) (hmono : (as.map Attempt.now).Pairwise (· ≤ ·))
    (hc : limiter.Counts key count (start + settings.authWindowSeconds)) :
    passedIn settings.authWindowSeconds start (serve settings topology (some limiter) as) ≤
      settings.authRequests.toNat - count := by
  induction as generalizing limiter count with
  | nil => exact Nat.zero_le _
  | cons a as ih =>
    rw [List.map_cons, List.pairwise_cons] at hmono
    by_cases hin : a.now < start + settings.authWindowSeconds
    · obtain rfl : keyOf topology a.values = key := hkey a List.mem_cons_self
      have hhit := RateLimiter.hit_counted (h := authHit settings (topology.deliver a.values))
        hc hin
      have hanswer : _ = decide (((count + 1 : ℕ) : ℤ) ≤ settings.authRequests) := hhit.1
      have hrest := ih (fun b hb => hkey b (List.mem_cons_of_mem _ hb)) hmono.2 hhit.2
      rw [serve_installed henabled, hanswer]
      refine (passedIn_cons_le _ _ _ _ _ _).trans ?_
      split <;> omega
    · refine (passedIn_eq_zero fun x hx => ?_).trans_le (Nat.zero_le _)
      obtain ⟨b, hb, hnow⟩ := serve_time hx
      have hlate : start + settings.authWindowSeconds ≤ b.now := by
        rcases List.mem_cons.mp hb with rfl | hb
        · exact not_lt.mp hin
        · exact (not_lt.mp hin).trans (hmono.1 _ (List.mem_map_of_mem hb))
      rintro ⟨-, -, hlt⟩
      exact absurd (hnow ▸ hlt) (not_lt.mpr hlate)

/-- As long as the window of the key is open, no hit is counted first. -/
theorem first_later [IsOrderedAddMonoid T] (henabled : settings.enabled = true)
    (hw : 0 < settings.authWindowSeconds) {key : String} {limiter : RateLimiter T} {t : T}
    {as : List (Attempt T)} (hkey : ∀ a ∈ as, keyOf topology a.values = key)
    (hmono : (t :: as.map Attempt.now).Pairwise (· ≤ ·)) (hopen : limiter.countsFirst key t = false)
    {x : Outcome T} (hx : x ∈ serve settings topology (some limiter) as) (hfirst : x.first = true) :
    t < x.now := by
  induction as generalizing limiter t with
  | nil => cases hx
  | cons a as ih =>
    rw [List.map_cons, List.pairwise_cons] at hmono
    have hle : t ≤ a.now := hmono.1 _ List.mem_cons_self
    obtain rfl : keyOf topology a.values = key := hkey a List.mem_cons_self
    rw [serve_installed henabled] at hx
    rcases List.mem_cons.mp hx with rfl | hx
    · rcases hle.lt_or_eq with hlt | rfl
      · exact hlt
      · rw [hopen] at hfirst
        cases hfirst
    · have hopen' : (limiter.hit (authHit settings (topology.deliver a.values)) a.now).2.countsFirst
          (authHit settings (topology.deliver a.values)).key a.now = false :=
        RateLimiter.hit_not_first hw
      exact hle.trans_lt (ih (fun b hb => hkey b (List.mem_cons_of_mem _ hb)) hmono.2 hopen' hx)

/-- The requests on one key stay within the limit. -/
theorem withinLimit_of_one_key [IsOrderedAddMonoid T] (henabled : settings.enabled = true)
    (hw : 0 < settings.authWindowSeconds) {key : String} (limiter : RateLimiter T)
    {as : List (Attempt T)} (hkey : ∀ a ∈ as, keyOf topology a.values = key)
    (hmono : (as.map Attempt.now).Pairwise (· ≤ ·)) :
    WithinLimit settings (serve settings topology (some limiter) as) := by
  induction as generalizing limiter with
  | nil => exact nofun
  | cons a as ih =>
    obtain rfl : keyOf topology a.values = key := hkey a List.mem_cons_self
    have hkey' : ∀ b ∈ as, keyOf topology b.values = keyOf topology a.values :=
      fun b hb => hkey b (List.mem_cons_of_mem _ hb)
    have hmono' := (List.pairwise_cons.mp hmono).2
    rw [serve_installed henabled]
    intro x hx hfirst
    rcases List.mem_cons.mp hx with rfl | hx
    · have hhit := RateLimiter.hit_first (h := authHit settings (topology.deliver a.values)) hfirst
      have hanswer : _ = decide (1 ≤ settings.authRequests) := hhit.1
      have hrest : _ ≤ settings.authRequests.toNat - 1 :=
        passedIn_of_counts henabled hkey' hmono' hhit.2
      rw [hanswer]
      refine (passedIn_cons_le _ a.now _ _ _ _).trans ?_
      split <;> omega
    · have hopen : (limiter.hit (authHit settings (topology.deliver a.values)) a.now).2.countsFirst
          (authHit settings (topology.deliver a.values)).key a.now = false :=
        RateLimiter.hit_not_first hw
      have hlater := first_later henabled hw hkey' hmono hopen hx hfirst
      have hout : ¬ x.now ≤ a.now := not_le.mpr hlater
      rw [passedIn_cons, if_neg fun hin => hout hin.2.1]
      exact ih _ hkey' hmono' x hx hfirst

/-- Where the limit is not positive, nobody passes. -/
theorem not_passed (henabled : settings.enabled = true) (hlimit : settings.authRequests ≤ 0)
    {installed : Option (RateLimiter T)} (hne : installed ≠ some .noOp) {as : List (Attempt T)}
    {x : Outcome T} (hx : x ∈ serve settings topology installed as) : x.passed = false := by
  induction as generalizing installed with
  | nil => cases hx
  | cons a as ih =>
    have hcounts : getRateLimiter settings installed ≠ .noOp := by
      cases installed with
      | none =>
        rw [getRateLimiter, if_pos henabled]
        exact nofun
      | some limiter => exact fun he => hne (congrArg some he)
    have hrefused : ((getRateLimiter settings installed).hit
        (authHit settings (topology.deliver a.values)) a.now).1 = false := by
      by_contra hpass
      have hpos := RateLimiter.hit_le_limit hcounts (Bool.eq_true_of_not_eq_false hpass)
      exact absurd hpos (by simp only [authHit]; omega)
    obtain ⟨hpassed, hafter⟩ := rateLimitAuth_enabled henabled installed
      (topology.deliver a.values) a.now
    rcases List.mem_cons.mp hx with rfl | hx
    · exact hpassed.trans hrefused
    · refine ih ?_ hx
      rw [hafter]
      cases installed with
      | none => exact nofun
      | some limiter =>
        exact fun he => RateLimiter.hit_ne_noOp hcounts (Option.some.inj he)

omit [AddCommGroup T] [LinearOrder T] in
theorem lifespan_ne_noOp (henabled : settings.enabled = true) (stored : Redis T) :
    lifespan settings stored ≠ .noOp := by
  rw [lifespan, if_pos henabled]
  split <;> exact nofun

end

section
variable {settings : RateLimitSettings T} {topology : Topology}

/-- Every request before a limiter is installed passes. -/
theorem serve_early_replicate (henabled : settings.enabled = true)
    (hlimit : 1 ≤ settings.authRequests) (values : List String) (n : ℕ) :
    serve settings topology none (List.replicate n ⟨values, (0 : T)⟩) =
      List.replicate n ⟨0, true, true⟩ := by
  induction n with
  | zero => rfl
  | succ n ih =>
    rw [List.replicate_succ, serve_early henabled _ le_rfl, ih, decide_eq_true hlimit]
    rfl

/-- The hits that are left in a window pass; the other keys do not notice them. -/
theorem serve_replicate (henabled : settings.enabled = true) (values : List String)
    (as : List (Attempt T)) {w : T} (hw : 0 < w) {limiter : RateLimiter T} {count : ℕ}
    (hc : limiter.Counts (keyOf topology values) count w) {n : ℕ}
    (hn : ((count + n : ℕ) : ℤ) ≤ settings.authRequests) :
    ∃ limiter', serve settings topology (some limiter)
        (List.replicate n ⟨values, 0⟩ ++ as) =
          List.replicate n ⟨0, false, true⟩ ++ serve settings topology (some limiter') as ∧
      ∀ key, key ≠ keyOf topology values →
        limiter'.countsFirst key 0 = limiter.countsFirst key 0 := by
  induction n generalizing limiter count with
  | zero => exact ⟨limiter, rfl, fun _ _ => rfl⟩
  | succ n ih =>
    have hhit := RateLimiter.hit_counted (h := authHit settings (topology.deliver values)) hc hw
    have hanswer : _ = decide (((count + 1 : ℕ) : ℤ) ≤ settings.authRequests) := hhit.1
    have hnot := RateLimiter.countsFirst_of_counts hc hw
    obtain ⟨limiter', hserve, hother⟩ := ih hhit.2 (by omega)
    refine ⟨limiter', ?_, fun key hkey => ?_⟩
    · rw [List.replicate_succ, List.cons_append, serve_installed henabled, hserve, hanswer,
        decide_eq_true (by omega), hnot]
      rfl
    · exact (hother key hkey).trans (RateLimiter.countsFirst_hit_other hkey 0)

/-- With two keys one more request passes than the limit allows. -/
theorem serve_two_keys (henabled : settings.enabled = true) (hlimit : 1 ≤ settings.authRequests)
    (hw : 0 < settings.authWindowSeconds) {values others : List String}
    (hne : keyOf topology others ≠ keyOf topology values) :
    serve settings topology (some (lifespan settings .empty))
      (List.replicate settings.authRequests.toNat ⟨values, (0 : T)⟩ ++ [⟨others, 0⟩]) =
        ⟨0, true, true⟩ :: (List.replicate (settings.authRequests.toNat - 1) ⟨0, false, true⟩ ++
          [⟨0, true, true⟩]) := by
  have hfirst : ∀ key, (lifespan settings (.empty : Redis T)).countsFirst key 0 = true := by
    intro key
    rw [lifespan, if_pos henabled]
    split
    · exact decide_eq_true le_rfl
    · rfl
  obtain ⟨n, hn⟩ : ∃ n, settings.authRequests.toNat = n + 1 := ⟨settings.authRequests.toNat - 1, by
    omega⟩
  have hhit := RateLimiter.hit_first (h := authHit settings (topology.deliver values)) (hfirst _)
  have hanswer : _ = decide (1 ≤ settings.authRequests) := hhit.1
  have hc : ((lifespan settings (.empty : Redis T)).hit
      (authHit settings (topology.deliver values)) 0).2.Counts (keyOf topology values) 1
        settings.authWindowSeconds := by
    have hwindow := hhit.2
    rw [zero_add] at hwindow
    exact hwindow
  have hleft : ((1 + n : ℕ) : ℤ) ≤ settings.authRequests := by omega
  obtain ⟨limiter', hserve, hother⟩ := serve_replicate henabled values [⟨others, 0⟩] hw hc hleft
  have hfirst' : limiter'.countsFirst (keyOf topology others) 0 = true := by
    rw [hother _ hne, RateLimiter.countsFirst_hit_other hne]
    exact hfirst _
  have hanswer' : _ = decide (1 ≤ settings.authRequests) :=
    (RateLimiter.hit_first (h := authHit settings (topology.deliver others)) hfirst').1
  rw [hn, List.replicate_succ, List.cons_append, serve_installed henabled, hfirst, hanswer, hserve,
    serve_installed henabled, hfirst', hanswer', decide_eq_true hlimit, Nat.add_sub_cancel]
  rfl

end

/-- What a client can send, before and after `lifespan` has installed the limiter, stays
within the limit: whatever Redis holds, in every sequence of such requests. -/
def Limited (settings : RateLimitSettings T) (topology : Topology)
    (early late : Set (List String)) : Prop :=
  ∀ (stored : Redis T) (before after : List (Attempt T)),
    (∀ a ∈ before, a.values ∈ early) → (∀ a ∈ after, a.values ∈ late) →
      ((before ++ after).map Attempt.now).Pairwise (· ≤ ·) → (∀ a ∈ before ++ after, 0 ≤ a.now) →
        WithinLimit settings (serveAll settings topology stored before after)

section
variable {settings : RateLimitSettings T} {topology : Topology} {early late : Set (List String)}

/-- All the requests of a sequence pass at its start, one more than the limit. -/
theorem WithinLimit.elim (hw : 0 < settings.authWindowSeconds)
    {xs : List (Outcome T)} (hlength : xs.length = settings.authRequests.toNat)
    (hxs : ∀ x ∈ xs, x.passed = true ∧ x.now = 0)
    (h : WithinLimit settings (⟨0, true, true⟩ :: xs)) : False := by
  have hcount : passedIn settings.authWindowSeconds 0 (⟨0, true, true⟩ :: xs) =
      settings.authRequests.toNat + 1 := by
    rw [← hlength, ← List.length_cons]
    refine List.countP_eq_length.mpr fun x hx => ?_
    rcases List.mem_cons.mp hx with rfl | hx
    · simpa using hw
    · obtain ⟨hpassed, hnow⟩ := hxs x hx
      simpa [hpassed, hnow] using hw
  have hle := h _ List.mem_cons_self rfl
  rw [hcount] at hle
  omega

/-- A client that is held to the limit sends nothing before the limiter is installed. -/
theorem Limited.early_empty (h : Limited settings topology early late)
    (henabled : settings.enabled = true) (hlimit : 1 ≤ settings.authRequests)
    (hw : 0 < settings.authWindowSeconds) : early = ∅ := by
  refine Set.eq_empty_iff_forall_notMem.mpr fun values hvalues => ?_
  have hlimited := h .empty (List.replicate (settings.authRequests.toNat + 1) ⟨values, 0⟩) []
    (fun a ha => List.eq_of_mem_replicate ha ▸ hvalues) nofun (by simp)
    (fun a ha => by rw [List.append_nil] at ha; rw [List.eq_of_mem_replicate ha])
  rw [serveAll, serve_early_replicate henabled hlimit, serve, List.append_nil,
    List.replicate_succ] at hlimited
  refine hlimited.elim hw (List.length_replicate) fun x hx => ?_
  rw [List.eq_of_mem_replicate hx]
  exact ⟨rfl, rfl⟩

/-- The values that it sends later make one address. -/
theorem Limited.one_address (h : Limited settings topology early late)
    (henabled : settings.enabled = true) (hlimit : 1 ≤ settings.authRequests)
    (hw : 0 < settings.authWindowSeconds) : ∀ values ∈ late, ∀ others ∈ late,
      clientIp (topology.deliver values) = clientIp (topology.deliver others) := by
  intro values hvalues others hothers
  by_contra hne
  have hsent : ∀ a ∈ List.replicate settings.authRequests.toNat (⟨values, 0⟩ : Attempt T) ++
      [⟨others, 0⟩], a.values ∈ late ∧ a.now = 0 := by
    intro a ha
    rcases List.mem_append.mp ha with ha | ha
    · rw [List.eq_of_mem_replicate ha]
      exact ⟨hvalues, rfl⟩
    · rw [List.mem_singleton.mp ha]
      exact ⟨hothers, rfl⟩
  have hmono := List.pairwise_of_forall_mem_list (r := fun a b : Attempt T => a.now ≤ b.now)
    fun a ha b hb => ((hsent a ha).2.trans (hsent b hb).2.symm).le
  have hlimited := h .empty [] _ nofun (fun a ha => (hsent a ha).1) (List.pairwise_map.mpr hmono)
    (fun a ha => (hsent a ha).2.ge)
  rw [serveAll, serve, List.nil_append, serve_two_keys henabled hlimit hw
    fun he => hne (authKey_injective he).symm] at hlimited
  refine hlimited.elim hw ?_ fun x hx => ?_
  · simp only [List.length_append, List.length_replicate, List.length_singleton]
    omega
  · rcases List.mem_append.mp hx with hx | hx
    · rw [List.eq_of_mem_replicate hx]
      exact ⟨rfl, rfl⟩
    · rw [List.mem_singleton.mp hx]
      exact ⟨rfl, rfl⟩

/-- Requests on one key, all when the limiter is installed. -/
theorem limited_of_one_address [IsOrderedAddMonoid T] (henabled : settings.enabled = true)
    (hw : 0 < settings.authWindowSeconds) (h : ∀ values ∈ late, ∀ others ∈ late,
      clientIp (topology.deliver values) = clientIp (topology.deliver others)) :
    Limited settings topology ∅ late := by
  intro stored before after hbefore hafter hmono _
  obtain rfl : before = [] := List.eq_nil_iff_forall_not_mem.mpr fun a ha => (hbefore a ha).elim
  rw [serveAll, serve, List.nil_append]
  cases after with
  | nil => exact nofun
  | cons a after =>
    have hkey : ∀ b ∈ a :: after, keyOf topology b.values = keyOf topology a.values :=
      fun b hb => congrArg authKey (h _ (hafter b hb) _ (hafter a List.mem_cons_self))
    exact withinLimit_of_one_key henabled hw _ hkey hmono

theorem limited_iff_one_address [IsOrderedAddMonoid T] (henabled : settings.enabled = true)
    (hlimit : 1 ≤ settings.authRequests) (hw : 0 < settings.authWindowSeconds) :
    Limited settings topology ∅ late ↔ ∀ values ∈ late, ∀ others ∈ late,
      clientIp (topology.deliver values) = clientIp (topology.deliver others) :=
  ⟨fun h => h.one_address henabled hlimit hw, limited_of_one_address henabled hw⟩

theorem limited_of_nobody_passes (henabled : settings.enabled = true)
    (hlimit : settings.authRequests ≤ 0) : Limited settings topology early late := by
  intro stored before after _ _ _ _ x hx _
  rw [passedIn_eq_zero fun y hy => ?_]
  · exact Nat.zero_le _
  · have hnot : y.passed = false := by
      rcases List.mem_append.mp hy with hy | hy
      · exact not_passed henabled hlimit (Option.some_ne_none _).symm hy
      · exact not_passed henabled hlimit
          (fun he => lifespan_ne_noOp henabled stored (Option.some.inj he)) hy
    simp [hnot]

theorem limited_of_no_window [IsOrderedAddMonoid T] (hw : settings.authWindowSeconds ≤ 0) :
    Limited settings topology early late := by
  intro stored before after _ _ _ _ x hx _
  rw [passedIn_eq_zero fun y hy => ?_]
  · exact Nat.zero_le _
  · rintro ⟨-, hle, hlt⟩
    exact absurd (hle.trans_lt hlt) (not_lt.mpr (add_le_of_nonpos_right hw))

end

/-- Where the limit is enabled, a client with a choice of header values is held to it, in
every sequence of requests, if and only if all requests come when the limiter is installed
and all values make the same address, or there is nothing to evade: no request may pass,
or a window has no length. -/
theorem auth_limit_iff [IsOrderedAddMonoid T] (settings : RateLimitSettings T)
    (henabled : settings.enabled = true) (topology : Topology) (early late : Set (List String)) :
    Limited settings topology early late ↔
      settings.authRequests ≤ 0 ∨ settings.authWindowSeconds ≤ 0 ∨
        early = ∅ ∧ ∀ values ∈ late, ∀ others ∈ late,
          clientIp (topology.deliver values) = clientIp (topology.deliver others) := by
  constructor
  · intro h
    rcases le_or_gt settings.authRequests 0 with hlimit | hlimit
    · exact Or.inl hlimit
    · rcases le_or_gt settings.authWindowSeconds 0 with hw | hw
      · exact Or.inr (Or.inl hw)
      · exact Or.inr (Or.inr ⟨h.early_empty henabled hlimit hw, h.one_address henabled hlimit hw⟩)
  · rintro (hlimit | hw | ⟨rfl, hone⟩)
    · exact limited_of_nobody_passes henabled hlimit
    · exact limited_of_no_window hw
    · rcases le_or_gt settings.authWindowSeconds 0 with hw | hw
      · exact limited_of_no_window hw
      · exact limited_of_one_address henabled hw hone

/-- The defaults of `Settings`. -/
def defaultSettings : RateLimitSettings ℤ := { authWindowSeconds := 60 }

theorem auth_limit_iff_silent :
    Limited defaultSettings (.proxied "10.0.0.2" "203.0.113.9") ∅ {[]} :=
  (auth_limit_iff defaultSettings rfl (.proxied "10.0.0.2" "203.0.113.9") ∅ {[]}).mpr
    (Or.inr (Or.inr ⟨rfl, by rintro values rfl others rfl; rfl⟩))

/-- Twenty requests with one header value, and one with another one. -/
def spoofed : List (Attempt ℤ) :=
  List.replicate 20 ⟨["198.51.100.1"], 0⟩ ++ [⟨["198.51.100.2"], 0⟩]

/-- One peer sends 21 requests at a time and all of them pass: with two header values,
without a proxy and behind one, and without any header before the limiter is installed. -/
theorem spoofed_address_passes :
    ¬ WithinLimit defaultSettings
      (serveAll defaultSettings (.direct "203.0.113.9") .empty [] spoofed) ∧
    ¬ WithinLimit defaultSettings
      (serveAll defaultSettings (.proxied "10.0.0.2" "203.0.113.9") .empty [] spoofed) ∧
    ¬ WithinLimit defaultSettings
      (serveAll defaultSettings (.direct "203.0.113.9") .empty (List.replicate 21 ⟨[], 0⟩) []) := by
  decide +kernel

/-- A proxy that appends the address of the peer makes no difference: with or without it a
client is held to the limit if and only if it is always known by the same address, where any
header that it sends counts as its address. -/
theorem proxy_makes_no_difference [IsOrderedAddMonoid T] (settings : RateLimitSettings T)
    (henabled : settings.enabled = true) (hlimit : 1 ≤ settings.authRequests)
    (hw : 0 < settings.authWindowSeconds) (proxy peer : String) (hpeer : IsAddress peer)
    (late : Set (List String)) (hlate : ∀ values ∈ late, values.head? ≠ some "") :
    (Limited settings (.direct peer) ∅ late ↔ Limited settings (.proxied proxy peer) ∅ late) ∧
    (Limited settings (.proxied proxy peer) ∅ late ↔
      ∀ values ∈ late, ∀ others ∈ late, sentAddress peer values = sentAddress peer others) := by
  have hdirect : Limited settings (.direct peer) ∅ late ↔
      ∀ values ∈ late, ∀ others ∈ late, sentAddress peer values = sentAddress peer others := by
    rw [limited_iff_one_address henabled hlimit hw]
    refine forall₂_congr fun values hvalues => forall₂_congr fun others hothers => ?_
    rw [clientIp_direct peer (hlate values hvalues), clientIp_direct peer (hlate others hothers)]
  have hproxied : Limited settings (.proxied proxy peer) ∅ late ↔
      ∀ values ∈ late, ∀ others ∈ late, sentAddress peer values = sentAddress peer others := by
    rw [limited_iff_one_address henabled hlimit hw]
    refine forall₂_congr fun values hvalues => forall₂_congr fun others hothers => ?_
    rw [clientIp_proxied proxy hpeer (hlate values hvalues),
      clientIp_proxied proxy hpeer (hlate others hothers)]
  exact ⟨hdirect.trans hproxied.symm, hproxied⟩

/-- Behind a proxy: a client that sends nothing or its own address, and one that sends two
addresses in turn. -/
theorem proxy_makes_no_difference_sent :
    Limited defaultSettings (.proxied "10.0.0.2" "203.0.113.9") ∅ {[], ["203.0.113.9"]} ∧
    ¬ Limited defaultSettings (.proxied "10.0.0.2" "203.0.113.9") ∅
      {["198.51.100.1"], ["198.51.100.2"]} := by
  have hpeer : IsAddress "203.0.113.9" := ⟨by decide, by simp [isSpace]⟩
  have hsame := proxy_makes_no_difference defaultSettings rfl (by decide) (by decide) "10.0.0.2" _
    hpeer {[], ["203.0.113.9"]} (by rintro values (rfl | rfl) <;> decide)
  have htwo := proxy_makes_no_difference defaultSettings rfl (by decide) (by decide) "10.0.0.2" _
    hpeer {["198.51.100.1"], ["198.51.100.2"]} (by rintro values (rfl | rfl) <;> decide)
  refine ⟨hsame.2.mpr ?_, fun h => ?_⟩
  · have hall : ∀ values ∈ ({[], ["203.0.113.9"]} : Set (List String)),
        sentAddress "203.0.113.9" values = "203.0.113.9" := by
      rintro values (rfl | rfl)
      · rfl
      · decide +kernel
    exact fun values hvalues others hothers =>
      (hall values hvalues).trans (hall others hothers).symm
  · exact absurd (htwo.2.mp h _ (Or.inl rfl) _ (Or.inr rfl)) (by decide +kernel)

end EnvVault
