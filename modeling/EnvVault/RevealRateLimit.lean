import EnvVault.AuthRateLimit
import EnvVault.LimiterAgreement
import EnvVault.LimiterWindows
import EnvVault.Schema

/-!
# The rate limit of the reveals

`rate_limit_reveal` counts the reveals by user, in the limiter in which `rate_limit_auth`
counts the clients by address. The two kinds of keys never meet, so the reveals of a user
are decided as if there were nothing else in the limiter.
-/
namespace EnvVault
open EnvVault.FixedWindow

variable {T : Type} [AddCommGroup T] [LinearOrder T]

/-- The settings of both limits; the default window of the reveals is a minute as well. -/
structure RevealSettings (T : Type) extends RateLimitSettings T where
  revealRequests : ℤ := 30
  revealWindowSeconds : T

def revealKey (userId : UUID) : String := "reveal:" ++ toString userId

theorem revealKey_injective : Function.Injective revealKey := by
  intro u v h
  have htext : Nat.repr u = Nat.repr v := by simpa [revealKey, String.append_right_inj] using h
  have hdigits : Nat.toDigits 10 u = Nat.toDigits 10 v := by
    rw [← Nat.toList_repr, htext, Nat.toList_repr]
  rw [← Nat.ofDigitChars_ten_toDigits (n := u), hdigits, Nat.ofDigitChars_ten_toDigits]

/-- Whatever a client sends for its address, it is not counted as a user. -/
theorem revealKey_ne_authKey (userId : UUID) (ip : String) : revealKey userId ≠ authKey ip := by
  intro h
  have hlist := congrArg String.toList h
  simp [revealKey, authKey] at hlist

def revealHit (settings : RevealSettings T) (userId : UUID) : Hit T :=
  ⟨revealKey userId, settings.revealRequests, settings.revealWindowSeconds⟩

/-- `rate_limit_reveal`, with the installed limiter after it. -/
def rateLimitReveal (settings : RevealSettings T) (installed : Option (RateLimiter T))
    (userId : UUID) (now : T) : Except (TooManyRequests T) Unit × Option (RateLimiter T) :=
  if settings.enabled then
    let counted := (getRateLimiter settings.toRateLimitSettings installed).hit
      (revealHit settings userId) now
    (if counted.1 then .ok () else .error { retryAfter := settings.revealWindowSeconds },
      installed.map fun _ => counted.2)
  else (.ok (), installed)

/-- A request to register, login or refresh, or a reveal of a user. -/
inductive LimitedRequest : Type
  | auth (request : HttpRequest)
  | reveal (userId : UUID)

namespace LimitedRequest

def hit (settings : RevealSettings T) : LimitedRequest → Hit T
  | auth request => authHit settings.toRateLimitSettings request
  | reveal userId => revealHit settings userId

def check (settings : RevealSettings T) (installed : Option (RateLimiter T)) (now : T) :
    LimitedRequest → Except (TooManyRequests T) Unit × Option (RateLimiter T)
  | auth request => rateLimitAuth settings.toRateLimitSettings installed request now
  | reveal userId => rateLimitReveal settings installed userId now

def isRevealOf (userId : UUID) : LimitedRequest → Bool
  | auth _ => false
  | reveal u => decide (u = userId)

end LimitedRequest

/-- Requests with the times at which they are counted. -/
abbrev Traffic (T : Type) : Type := List (LimitedRequest × T)

/-- Which requests pass, one after the other. -/
def passes (settings : RevealSettings T) : Option (RateLimiter T) → Traffic T → List Bool
  | _, [] => []
  | installed, (request, now) :: traffic =>
    let checked := request.check settings installed now
    checked.1.isOk :: passes settings checked.2 traffic

/-- The reveals of a user, with their times and whether they pass. -/
def revealsOf (userId : UUID) (traffic : Traffic T) (answers : List Bool) : List (T × Bool) :=
  ((traffic.zip answers).filter fun x => x.1.1.isRevealOf userId).map fun x => (x.1.2, x.2)

def Traffic.hits (settings : RevealSettings T) (traffic : Traffic T) : List (Hit T × T) :=
  traffic.map fun x => (x.1.hit settings, x.2)

section
variable {settings : RevealSettings T}

omit [AddCommGroup T] [LinearOrder T] in
theorem hit_key_iff (settings : RevealSettings T) (userId : UUID) (x : LimitedRequest) :
    (x.hit settings).key = revealKey userId ↔ x.isRevealOf userId = true := by
  cases x with
  | auth request =>
    simp only [LimitedRequest.hit, authHit, LimitedRequest.isRevealOf, Bool.false_eq_true,
      iff_false]
    exact (revealKey_ne_authKey userId _).symm
  | reveal u =>
    simp only [LimitedRequest.hit, revealHit, LimitedRequest.isRevealOf, decide_eq_true_eq]
    exact revealKey_injective.eq_iff

omit [AddCommGroup T] [LinearOrder T] in
theorem isOk_ite (b : Bool) (e : TooManyRequests T) :
    (if b then Except.ok () else Except.error e).isOk = b := by
  cases b <;> rfl

/-- A request passes if its hit is allowed. -/
theorem check_installed (henabled : settings.enabled = true) (limiter : RateLimiter T)
    (x : LimitedRequest) (now : T) :
    (x.check settings (some limiter) now).1.isOk = (limiter.hit (x.hit settings) now).1 ∧
      (x.check settings (some limiter) now).2 = some (limiter.hit (x.hit settings) now).2 := by
  cases x with
  | auth request => exact rateLimitAuth_enabled henabled (some limiter) request now
  | reveal userId =>
    simp only [LimitedRequest.check, rateLimitReveal, henabled, if_true]
    exact ⟨isOk_ite _ _, rfl⟩

theorem passes_memory (henabled : settings.enabled = true) (memory : MemoryRateLimiter T)
    (traffic : Traffic T) :
    passes settings (some (.memory memory)) traffic = memory.answers (traffic.hits settings) := by
  induction traffic generalizing memory with
  | nil => rfl
  | cons x traffic ih =>
    obtain ⟨hpassed, hafter⟩ := check_installed henabled (.memory memory) x.1 x.2
    rw [passes, hpassed, hafter]
    exact congrArg _ (ih _)

theorem passes_redis (henabled : settings.enabled = true) (store : Redis T)
    (traffic : Traffic T) :
    passes settings (some (.redis store)) traffic =
      RedisRateLimiter.answers store (traffic.hits settings) := by
  induction traffic generalizing store with
  | nil => rfl
  | cons x traffic ih =>
    obtain ⟨hpassed, hafter⟩ := check_installed henabled (.redis store) x.1 x.2
    rw [passes, hpassed, hafter]
    exact congrArg _ (ih _)

/-- Whichever limiter `lifespan` installs, it answers as the dictionary does. -/
theorem passes_lifespan (henabled : settings.enabled = true) (traffic : Traffic T)
    (hpos : ∀ x ∈ traffic, 0 ≤ x.2) :
    passes settings (some (lifespan settings.toRateLimitSettings .empty)) traffic =
      MemoryRateLimiter.new.answers (traffic.hits settings) := by
  have hagree : LimitersAgree (T := T) .new .empty := by
    refine ⟨fun _ => rfl, fun key window h => ?_⟩
    cases h
  have hnow : ∀ x ∈ traffic.hits settings, 0 ≤ x.2 := by
    intro x hx
    obtain ⟨y, hy, rfl⟩ := List.mem_map.mp hx
    exact hpos y hy
  rw [lifespan, if_pos henabled]
  cases settings.backend with
  | memory => exact passes_memory henabled _ traffic
  | redis => rw [passes_redis henabled, hagree.answers _ hnow]

end

omit [AddCommGroup T] [LinearOrder T] in
theorem hits_filter (settings : RevealSettings T) (userId : UUID) (traffic : Traffic T) :
    (Traffic.hits settings (traffic.filter fun x => x.1.isRevealOf userId)) =
      (traffic.hits settings).filter fun x => x.1.key = revealKey userId := by
  simp only [Traffic.hits, List.filter_map]
  refine congrArg _ (List.filter_congr fun x _ => ?_)
  rw [Bool.eq_iff_iff, ← hit_key_iff settings]
  simp

/-- The hits on one key are counted as if they came alone. -/
theorem MemoryRateLimiter.ticks_on_key {limiter limiter' : MemoryRateLimiter T} {key : String}
    (h : limiter.windows key = limiter'.windows key) (hits : List (Hit T × T)) :
    onKey id key (limiter.ticks hits) =
      onKey id key (limiter'.ticks (hits.filter fun x => x.1.key = key)) := by
  induction hits generalizing limiter limiter' with
  | nil => rfl
  | cons x hits ih =>
    rw [ticks, onKey_cons]
    dsimp only [id]
    by_cases hkey : x.1.key = key
    · have hentry : limiter.windows x.1.key = limiter'.windows x.1.key := hkey ▸ h
      have hwindow : limiter.window x.1 x.2 = limiter'.window x.1 x.2 := by
        simp only [window, hentry]
      have htick : limiter.tick x.1 x.2 = limiter'.tick x.1 x.2 := by
        simp only [tick, hwindow, hentry]
      have hafter : (limiter.hit x.1 x.2).2.windows key =
          (limiter'.hit x.1 x.2).2.windows key := by
        simp only [hit, hwindow, hkey, Function.update_self]
      rw [List.filter_cons_of_pos (by simpa using hkey), ticks, onKey_cons]
      dsimp only [id]
      rw [if_pos hkey, if_pos hkey, htick, ih hafter]
    · rw [List.filter_cons_of_neg (by simpa using hkey), if_neg hkey]
      exact ih ((limiter.hit_other x.1 x.2 (Ne.symm hkey)).trans h)

/-- A reveal passes if its count is within the limit. -/
theorem revealsOf_answers (settings : RevealSettings T) (userId : UUID)
    (limiter : MemoryRateLimiter T) (traffic : Traffic T) :
    revealsOf userId traffic (limiter.answers (traffic.hits settings)) =
      (onKey id (revealKey userId) (limiter.ticks (traffic.hits settings))).map
        fun x => (x.time, allowed settings.revealRequests.toNat x) := by
  induction traffic generalizing limiter with
  | nil => rfl
  | cons x traffic ih =>
    have htail := ih (limiter.hit (x.1.hit settings) x.2).2
    rw [revealsOf] at htail
    rw [Traffic.hits, List.map_cons, MemoryRateLimiter.answers, MemoryRateLimiter.ticks,
      onKey_cons, revealsOf, List.zip_cons_cons]
    dsimp only [id]
    by_cases hkey : (x.1.hit settings).key = revealKey userId
    · have hreveal := (hit_key_iff settings userId x.1).mp hkey
      have hlimit : (x.1.hit settings).limit = settings.revealRequests := by
        cases hx : x.1 with
        | auth request => rw [hx] at hreveal; cases hreveal
        | reveal u => rfl
      have hanswer : (limiter.hit (x.1.hit settings) x.2).1 =
          allowed settings.revealRequests.toNat (limiter.tick (x.1.hit settings) x.2) := by
        simp only [MemoryRateLimiter.hit, MemoryRateLimiter.tick, allowed, hlimit]
        refine decide_eq_decide.mpr ?_
        omega
      rw [if_pos hkey, List.filter_cons_of_pos (by simpa using hreveal), List.map_cons,
        List.map_cons, ← hanswer]
      exact congrArg _ htail
    · have hother : ¬ x.1.isRevealOf userId = true := fun h =>
        hkey ((hit_key_iff settings userId x.1).mpr h)
      rw [if_neg hkey, List.filter_cons_of_neg (by simpa using hother)]
      exact htail

/-- The reveals of a user and whether they pass, in the limiter that `lifespan` installs. -/
def servedReveals (settings : RevealSettings T) (userId : UUID) (traffic : Traffic T) :
    List (T × Bool) :=
  revealsOf userId traffic
    (passes settings (some (lifespan settings.toRateLimitSettings .empty)) traffic)

/-- What holds of the reveals of a user. -/
structure RevealLaw (settings : RevealSettings T) (userId : UUID) (traffic : Traffic T) :
    Prop where
  /-- Other users and clients have no part in it. -/
  alone : servedReveals settings userId traffic =
    servedReveals settings userId (traffic.filter fun x => x.1.isRevealOf userId)
  /-- In an interval as long as the window twice the limit passes at most. -/
  bounded : ∀ a, (servedReveals settings userId traffic).countP (fun x =>
    decide (x.2 = true ∧ a ≤ x.1 ∧ x.1 < a + settings.revealWindowSeconds)) ≤
      2 * settings.revealRequests.toNat
  /-- A refused reveal is one more than the limit among those of the last window length. -/
  fair : ∀ before now after, servedReveals settings userId traffic =
    before ++ (now, false) :: after → settings.revealRequests <
      ((before ++ [(now, false)]).countP fun x =>
        decide (now < x.1 + settings.revealWindowSeconds) : ℕ)

section
variable {settings : RevealSettings T} {traffic : Traffic T}

/-- The ticks of the reveals of a user, whatever else is counted. -/
theorem servedReveals_eq (henabled : settings.enabled = true) (hpos : ∀ x ∈ traffic, 0 ≤ x.2)
    (userId : UUID) : servedReveals settings userId traffic =
      (onKey id (revealKey userId) (MemoryRateLimiter.new.ticks
        ((traffic.hits settings).filter fun x => x.1.key = revealKey userId))).map
          fun x => (x.time, allowed settings.revealRequests.toNat x) := by
  rw [servedReveals, passes_lifespan henabled traffic hpos, revealsOf_answers,
    MemoryRateLimiter.ticks_on_key rfl]

/-- The counter of a user is one of windows of the configured length. -/
theorem reveal_window [IsOrderedAddMonoid T] (hmono : (traffic.map Prod.snd).Pairwise (· ≤ ·))
    (hpos : ∀ x ∈ traffic, 0 ≤ x.2) (userId : UUID) {log : List (Tick T)}
    (hlog : log = onKey id (revealKey userId) (MemoryRateLimiter.new.ticks
      ((traffic.hits settings).filter fun x => x.1.key = revealKey userId)))
    (hne : log ≠ []) : ∃ opened count, Windowed settings.revealWindowSeconds
      (fun a b => b < a + settings.revealWindowSeconds) opened count log.reverse := by
  have hstart : MemoryWindow settings.revealWindowSeconds
      ((MemoryRateLimiter.new (T := T)).windows (revealKey userId)) [] := Or.inl ⟨rfl, rfl⟩
  have htimes : (traffic.hits settings).map Prod.snd = traffic.map Prod.snd := by
    simp [Traffic.hits]
  have hsub : ((traffic.hits settings).filter fun x => x.1.key = revealKey userId).Sublist
      (traffic.hits settings) := List.filter_sublist
  have hlength : ∀ x ∈ (traffic.hits settings).filter fun x => x.1.key = revealKey userId,
      x.1.windowSeconds = settings.revealWindowSeconds := by
    intro x hx
    obtain ⟨hmem, hkey⟩ := List.mem_filter.mp hx
    obtain ⟨⟨request, now⟩, -, rfl⟩ := List.mem_map.mp hmem
    have hreveal := (hit_key_iff settings userId request).mp (of_decide_eq_true hkey)
    cases request with
    | auth request => cases hreveal
    | reveal u => rfl
  have hsince : ∀ x ∈ (traffic.hits settings).filter fun x => x.1.key = revealKey userId,
      0 ≤ x.2 := by
    intro x hx
    obtain ⟨y, hy, rfl⟩ := List.mem_map.mp (hsub.subset hx)
    exact hpos y hy
  obtain ⟨limiter', hend⟩ := hstart.ticks hlength ((htimes ▸ hmono).sublist (hsub.map _)) hsince
    fun y hy => absurd hy List.not_mem_nil
  rw [List.append_nil, ← hlog] at hend
  rcases hend with ⟨-, hnil⟩ | ⟨opened, count, hwin, -⟩
  · exact absurd (List.reverse_eq_nil_iff.mp hnil) hne
  · exact ⟨opened, count, hwin⟩

/-- However the requests of clients and users are mixed, in memory or in Redis, each user
has a limit of its own. -/
theorem reveals_limited_per_user [IsOrderedAddMonoid T] (henabled : settings.enabled = true)
    (hw : 0 < settings.revealWindowSeconds) (hmono : (traffic.map Prod.snd).Pairwise (· ≤ ·))
    (hpos : ∀ x ∈ traffic, 0 ≤ x.2) (userId : UUID) : RevealLaw settings userId traffic := by
  have hserved := servedReveals_eq henabled hpos userId
  obtain ⟨log, hlog⟩ : ∃ log, log = onKey id (revealKey userId) (MemoryRateLimiter.new.ticks
      ((traffic.hits settings).filter fun x => x.1.key = revealKey userId)) := ⟨_, rfl⟩
  rw [← hlog] at hserved
  refine ⟨?_, fun a => ?_, fun before now after heq => ?_⟩
  · have hposAlone : ∀ x ∈ traffic.filter fun x => x.1.isRevealOf userId, 0 ≤ x.2 := fun x hx =>
      hpos x (List.mem_of_mem_filter hx)
    rw [hserved, hlog, servedReveals_eq henabled hposAlone, hits_filter, List.filter_filter]
    simp
  · by_cases hne : log = []
    · rw [hserved, hne]
      simp
    · obtain ⟨opened, count, hwin⟩ := reveal_window hmono hpos userId hlog hne
      have hinside := (hwin.inside_le a settings.revealRequests.toNat).2.2
      rw [inside, List.countP_reverse] at hinside
      rw [hserved, List.countP_map]
      refine le_of_eq_of_le (List.countP_congr fun x _ => ?_) hinside
      simp only [Function.comp_apply, allowed, decide_eq_true_eq]
      tauto
  · rw [hserved, List.map_eq_append_iff] at heq
    obtain ⟨earlier, rest, rfl, rfl, hrest⟩ := heq
    obtain ⟨x, later, rfl, hx, -⟩ := List.map_eq_cons_iff.mp hrest
    obtain ⟨opened, count, hwin⟩ := reveal_window hmono hpos userId hlog (by simp)
    rw [List.reverse_append, List.reverse_cons, List.append_assoc, List.singleton_append] at hwin
    obtain ⟨opened', count', hwin'⟩ := hwin.of_append (List.cons_ne_nil _ _)
    obtain ⟨hcount, hlast⟩ := hwin'.head_in_window hw
    obtain ⟨rfl, hrefused⟩ := Prod.mk.inj hx
    -- the hits of the window that refused it are no older than the window
    have hover : settings.revealRequests.toNat < count' := by
      rw [← hcount]
      exact not_le.mp (of_decide_eq_false hrefused)
    have hrecent : (x :: earlier.reverse).countP (fun y => decide (opened' ≤ y.time)) ≤
        (x :: earlier.reverse).countP fun y =>
          decide (x.time < y.time + settings.revealWindowSeconds) := by
      refine List.countP_mono_left fun y _ hy => decide_eq_true ?_
      exact hlast.trans_le (add_le_add_left (of_decide_eq_true hy) _)
    have hsame : ((earlier.map fun y => (y.time, allowed settings.revealRequests.toNat y)) ++
        [(x.time, false)]).countP (fun y =>
          decide (x.time < y.1 + settings.revealWindowSeconds)) =
        (x :: earlier.reverse).countP fun y =>
          decide (x.time < y.time + settings.revealWindowSeconds) := by
      simp only [List.countP_append, List.countP_map, List.countP_cons, List.countP_nil,
        List.countP_reverse, Function.comp_def]
      omega
    have hcounted := hwin'.count_le
    rw [hsame]
    omega

end

/-- Two reveals a minute. -/
def twoReveals : RevealSettings ℤ :=
  { authWindowSeconds := 60, revealRequests := 2, revealWindowSeconds := 60 }

/-- A client passes itself off as the key of a user. -/
def mixedTraffic : Traffic ℤ :=
  [(.reveal 5, 0), (.auth ⟨["reveal:5"], some "203.0.113.9"⟩, 1), (.reveal 6, 2), (.reveal 5, 3),
    (.reveal 5, 59), (.reveal 5, 60)]

theorem reveals_limited_per_user_mixed : RevealLaw twoReveals 5 mixedTraffic ∧
    servedReveals twoReveals 5 mixedTraffic =
      [(0, true), (3, true), (59, false), (60, true)] :=
  ⟨reveals_limited_per_user rfl (by decide) (by decide) (by decide) 5, by decide +kernel⟩

end EnvVault
