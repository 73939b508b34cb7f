import EnvVault.AccessTokens
import EnvVault.RouteMediation
import EnvVault.SessionHistory

/-!
# Authenticated requests

A request comes with its `Authorization` header, and the routes with a current user are
handled for the subject of its token. The tokens are those that the logins and refreshes of
the same run have answered with.
-/
namespace EnvVault
open EnvVault.Relational EnvVault.Transactions

namespace Request

/-- The routes of `get_auth_uow` have no current user. -/
def anonymous : Request → Bool
  | register .. | login .. | refresh .. | logout .. => true
  | _ => false

/-- A request from its header on. The key that stands for the current user of an anonymous
route is not used. -/
def serve (jwt : Jwt) (server : Server) (credentials : Option HTTPAuthorizationCredentials)
    (r : Request) : Tx Response :=
  if r.anonymous then r.handle server 0
  else do
    let found ← getCurrentUser jwt server credentials
    match found with
    | .error e => return ⟨e.statusCode, .detail e.detail⟩
    | .ok user => r.handle server user.id

/-- The user for whom a request is handled. -/
def actor (jwt : Jwt) (credentials : Option HTTPAuthorizationCredentials) : UUID :=
  (subjectOf jwt credentials).getD 0

theorem handle_anonymous {r : Request} (h : r.anonymous = true) (server : Server) (u v : UUID) :
    r.handle server u = r.handle server v := by
  cases r
  case register => rfl
  case login => rfl
  case refresh => rfl
  case logout => rfl
  all_goals cases h

theorem orgId_anonymous {r : Request} (h : r.anonymous = true) : r.orgId = none := by
  cases r <;> first | rfl | cases h

end Request

section
variable {jwt : Jwt} {server : Server} {credentials : Option HTTPAuthorizationCredentials}

theorem reads_getCurrentUser : (getCurrentUser jwt server credentials).Reads fun found =>
    match found with
    | .error e => e.statusCode = 401
    | .ok user => subjectOf jwt credentials = some user.id := by
  unfold getCurrentUser
  split
  · exact rfl
  · rename_i c hc
    refine .bind reads_readInput fun clock _ => ?_
    split
    · exact rfl
    · rename_i payload hdecode
      split
      · trivial
      · rename_i userId hsub
        obtain ⟨hcredentials, hscheme⟩ := Option.filter_eq_some_iff.mp hc
        have hnames : Names jwt credentials clock.now userId :=
          ⟨c, payload, hcredentials, eq_of_beq hscheme, hdecode, hsub⟩
        refine .bind (reads_get .users _) fun found hfound => ?_
        cases hactive : found.filter User.isActive with
        | none => exact rfl
        | some user =>
          obtain ⟨hfound', -⟩ := Option.filter_eq_some_iff.mp hactive
          show subjectOf jwt credentials = some user.id
          rw [hnames.subjectOf_eq, ← hfound user hfound']
          rfl

/-- The answer to a request whose service call is not made. -/
def Request.TurnsAway (r : Request) (response : Response) : Prop :=
  response.status = 401 ∨ r.Declines response

/-- Around the service call for the subject of the token there are only queries. -/
theorem Request.wraps_serve {r : Request} :
    Prog.Wraps r.TurnsAway r.Answers
      ((r.call server (actor jwt credentials)).program server.deployment)
      (r.serve jwt server credentials) := by
  have hhandle : Prog.Wraps r.TurnsAway r.Answers
      ((r.call server (actor jwt credentials)).program server.deployment)
      (r.handle server (actor jwt credentials)) :=
    wraps_handle.mono fun _ h => Or.inr h
  unfold serve
  split
  · rename_i hanonymous
    rw [handle_anonymous hanonymous server 0 (actor jwt credentials)]
    exact hhandle
  · refine Prog.Reads.bind_readsThen reads_getCurrentUser fun found hfound => ?_
    cases found with
    | error e => exact .here _ (Or.inl ⟨_, rfl, Or.inl hfound⟩)
    | ok user =>
      have hactor : actor jwt credentials = user.id := by
        rw [actor, hfound, Option.getD_some]
      show Prog.Wraps _ _ _ (r.handle server user.id)
      rw [← hactor]
      exact hhandle

end

section
variable {n : ℕ} (jwt : Jwt) (server : Server)
  (credentials : Fin n → Option HTTPAuthorizationCredentials) (requests : Fin n → Request)

/-- All requests waiting to be served. -/
def serving (W : VaultWorld n) : Sys n Input Db RowWrite Exn Response :=
  Sys.initial W fun i => (requests i).serve jwt server (credentials i)

/-- The service calls of the requests, for the subjects of their tokens. -/
def servedCalls (i : Fin n) : ServiceCall :=
  (requests i).call server (Request.actor jwt (credentials i))

variable {jwt server credentials requests} {W : VaultWorld n} {as : Schedule n}
  {t : Sys n Input Db RowWrite Exn Response}

theorem serving_matches
    (hr : (serving jwt server credentials requests W).run vaultEngine as = some t) :
    ∃ bs s, (waiting server.deployment (servedCalls jwt server credentials requests) W).run
        vaultEngine bs = some s ∧
      t.Matches (fun i => (requests i).TurnsAway) (fun i => (requests i).Answers)
        (fun i => (servedCalls jwt server credentials requests i).program server.deployment) s :=
  (Sys.Matches.initial fun _ => Request.wraps_serve).run
    (fun _ _ _ h hf => freshInput_sublist h hf) (sampleInput 0) hr

theorem serving_valid (hb : Begins W)
    (hr : (serving jwt server credentials requests W).run vaultEngine as = some t) :
    vaultSchema.Valid t.world.db := by
  obtain ⟨bs, s, hs, hm⟩ := serving_matches hr
  exact hm.db ▸ hb.valid_run hs

end

/-- The access token was created with a clock that these inputs supplied. -/
def Stamped (security : SecurityModules) (past : List Input) (pair : TokenPair) : Prop :=
  ∃ inp ∈ past, pair.accessToken = security.createAccessToken pair.user.id inp.now

/-- A request of the run was answered with this pair of tokens. -/
def Grants {n : ℕ} (t : Sys n Input Db RowWrite Exn Response) (pair : TokenPair) : Prop :=
  ∃ i response, (t.call i).prog = .ret response ∧ response.body = .reply (.tokens pair)

section
variable {n : ℕ} {i : Fin n} {d : Deployment} {uow : UnitOfWork} {l : Local Db RowWrite}
  {W : VaultWorld n}

theorem Stamped.mono {security : SecurityModules} {past past' : List Input} {pair : TokenPair}
    (h : Stamped security past pair) (hpast : past <:+ past') : Stamped security past' pair := by
  obtain ⟨inp, hinp, heq⟩ := h
  exact ⟨inp, hpast.subset hinp, heq⟩

theorem wlp_issueTokenPair_stamped {security : SecurityModules} (user : User) :
    wlp (Contract.free n vaultEngine) i ((AuthService.issueTokenPair security uow user.id).bind
        fun tokens => .ret (⟨user, tokens.1, tokens.2⟩ : TokenPair))
      (fun pair _ V => Stamped security V.past pair) (fun _ _ _ => True) l W := by
  have hX : ∀ (e : Exn) (l' : Local Db RowWrite) (V : VaultWorld n), True := fun _ _ _ => trivial
  refine wlp_bind ?_
  refine wlp_free_bind hX fun inp l' V _ => ?_
  refine wlp_free_bind hX fun row l' V _ => ?_
  refine wlp_free_bind hX fun _ l' V _ => ?_
  refine wlp_statement_bind hX (A := fun _ => True) (fun _ _ _ h => h) trivial
    fun V clock ws a _ _ _ hf => ?_
  simp only [Except.ok.injEq, Prod.mk.injEq] at hf
  obtain ⟨rfl, rfl⟩ := hf
  intro U hU U' hU'
  exact ⟨clock, (hU.past.trans hU'.past).subset List.mem_cons_self, rfl⟩

theorem wlp_login_stamped {security : SecurityModules} (email password : String) :
    wlp (Contract.free n vaultEngine) i (AuthService.login security uow email password)
      (fun pair _ V => Stamped security V.past pair) (fun _ _ _ => True) l W := by
  have hX : ∀ (e : Exn) (l' : Local Db RowWrite) (V : VaultWorld n), True := fun _ _ _ => trivial
  refine wlp_free_bind hX fun user l' V _ => ?_
  refine wlp_free_bind hX fun _ l' V _ => ?_
  cases user with
  | none => exact wlp_raise hX
  | some user =>
    refine wlp_free_bind hX fun _ l' V _ => ?_
    exact wlp_issueTokenPair_stamped user

theorem wlp_refresh_stamped {security : SecurityModules} (raw : String) :
    wlp (Contract.free n vaultEngine) i (AuthService.refresh security uow raw)
      (fun pair _ V => Stamped security V.past pair) (fun _ _ _ => True) l W := by
  have hX : ∀ (e : Exn) (l' : Local Db RowWrite) (V : VaultWorld n), True := fun _ _ _ => trivial
  have hrefuse : ∀ (p : Tx Unit) (e : Exn) (l' : Local Db RowWrite) (V : VaultWorld n),
      wlp (Contract.free n vaultEngine) i (p.bind fun _ => UnitOfWork.commit.bind fun _ => .raise e)
        (fun (pair : TokenPair) _ V => Stamped security V.past pair) (fun _ _ _ => True) l' V :=
    fun p e l' V => wlp_free_bind hX fun _ l' V _ => wlp_free_bind hX fun _ l' V _ => wlp_raise hX
  refine wlp_free_bind hX fun stored l' V _ => ?_
  cases stored with
  | none => exact wlp_raise hX
  | some stored =>
    show wlp _ _ (if stored.revokedAt.isSome then _ else _) _ _ _ _
    split
    · exact hrefuse _ _ _ _
    · refine wlp_free_bind hX fun clock l' V _ => ?_
      split
      · exact hrefuse _ _ _ _
      · refine wlp_free_bind hX fun user l' V _ => ?_
        split
        · exact hrefuse _ _ _ _
        · refine wlp_free_bind hX fun _ l' V _ => ?_
          exact wlp_issueTokenPair_stamped _

/-- Only a login or a refresh returns a pair of tokens. -/
theorem wlp_operation_stamped {currentUser : UUID} (r : Request) :
    wlp (Contract.free n vaultEngine) i (r.operation d uow currentUser)
      (fun reply _ V => ∀ pair, reply = .tokens pair → Stamped d.security V.past pair)
      (fun _ _ _ => True) l W := by
  have hX : ∀ (e : Exn) (l' : Local Db RowWrite) (V : VaultWorld n), True := fun _ _ _ => trivial
  have htokens : ∀ p : Tx TokenPair,
      wlp (Contract.free n vaultEngine) i p (fun pair _ V => Stamped d.security V.past pair)
        (fun _ _ _ => True) l W →
      wlp (Contract.free n vaultEngine) i (Reply.tokens <$> p)
        (fun reply _ V => ∀ pair, reply = .tokens pair → Stamped d.security V.past pair)
        (fun _ _ _ => True) l W := by
    intro p hp
    refine wlp_bind (wlp_mono (fun pair _ V h U hU => ?_) (fun _ _ _ h => h) hp)
    intro pair' heq
    obtain rfl := Reply.tokens.inj heq
    exact h.mono hU.past
  cases r
  case login => exact htokens _ (wlp_login_stamped _ _)
  case refresh => exact htokens _ (wlp_refresh_stamped _)
  all_goals
    refine wlp_free_bind hX fun _ _ _ _ _ _ pair heq => ?_
    cases heq

theorem Request.Presents.tokens {r : Request} {reply : Reply} {body : Body} {pair : TokenPair}
    (h : r.Presents reply body) (hbody : body = .reply (.tokens pair)) : reply = .tokens pair := by
  subst hbody
  cases r
  case rotateSecret =>
    obtain ⟨s, -, hs⟩ := h
    cases hs
  case revealSecret =>
    cases reply
    case value =>
      obtain ⟨keyName, hvalue⟩ := h
      cases hvalue
    all_goals exact (Body.reply.inj h).symm
  all_goals exact (Body.reply.inj h).symm

theorem wlp_handle_stamped {server : Server} {currentUser : UUID} (r : Request) :
    wlp (Contract.free n vaultEngine) i (r.handle server currentUser)
      (fun response _ V => ∀ pair, response.body = .reply (.tokens pair) →
        Stamped server.deployment.security V.past pair) (fun _ _ _ => True) l W := by
  have hX : ∀ (e : Exn) (l' : Local Db RowWrite) (V : VaultWorld n), True := fun _ _ _ => trivial
  have hrun : ∀ (l' : Local Db RowWrite) (V : VaultWorld n),
      wlp (Contract.free n vaultEngine) i (r.run server currentUser)
        (fun response _ V => ∀ pair, response.body = .reply (.tokens pair) →
          Stamped server.deployment.security V.past pair) (fun _ _ _ => True) l' V := by
    intro l' V
    rw [Request.run_eq]
    refine wlp_bind (wlp_mono (fun reply l' V h => ?_) (fun _ _ _ h => h)
      (wlp_operation_stamped r))
    refine wlp_reads (Request.reads_answers reply) hX
      (A := fun V => ∀ pair, reply = .tokens pair →
        Stamped server.deployment.security V.past pair)
      (fun _ _ hV hA pair heq => (hA pair heq).mono hV.past) h ?_
    intro response seen U hanswers _ hU pair hbody
    exact hU pair (hanswers.2.tokens hbody)
  unfold Request.handle
  split
  · exact hrun l W
  · refine wlp_free_bind hX fun membership l' V _ => ?_
    split
    · intro U hU pair hbody
      cases hbody
    · exact hrun l' V

theorem wlp_serve_stamped {jwt : Jwt} {server : Server}
    {credentials : Option HTTPAuthorizationCredentials} (r : Request) :
    wlp (Contract.free n vaultEngine) i (r.serve jwt server credentials)
      (fun response _ V => ∀ pair, response.body = .reply (.tokens pair) →
        Stamped server.deployment.security V.past pair) (fun _ _ _ => True) l W := by
  unfold Request.serve
  split
  · exact wlp_handle_stamped r
  · refine wlp_free_bind (fun _ _ _ => trivial) fun found l' V _ => ?_
    split
    · intro U hU pair hbody
      cases hbody
    · exact wlp_handle_stamped r

end

section
variable {n : ℕ} {jwt : Jwt} {server : Server}
  {credentials : Fin n → Option HTTPAuthorizationCredentials} {requests : Fin n → Request}
  {W : VaultWorld n} {as : Schedule n} {t : Sys n Input Db RowWrite Exn Response}

/-- Every access token of a run was created in it, for the user of its pair. -/
theorem stamped_of_grants
    (hr : (serving jwt server credentials requests W).run vaultEngine as = some t)
    {pair : TokenPair} (hgrants : Grants t pair) :
    Stamped server.deployment.security t.world.past pair := by
  obtain ⟨i, response, hret, hbody⟩ := hgrants
  refine Contract.free_run (R := fun _ response _ V => ∀ pair,
    response.body = .reply (.tokens pair) → Stamped server.deployment.security V.past pair)
    (fun i V _ => wlp_serve_stamped (requests i)) ⟨?_, ?_⟩ hr hret pair hbody
  · intro _ response seen V inp h pair hpair
    exact (h pair hpair).mono (List.suffix_cons _ _)
  · intro _ response seen V k ws h pair hpair
    exact h pair hpair

end

/-- The token carries the claims of an access token that a request of the run was answered
with, for this user and at this time. -/
def IssuedTo {n : ℕ} (jwt : Jwt) (expireMinutes : ℕ) (t : Sys n Input Db RowWrite Exn Response)
    (token : String) (userId : UUID) (time : Timestamp) : Prop :=
  ∃ pair inp, Grants t pair ∧ pair.user.id = userId ∧ inp ∈ t.world.past ∧ inp.now = time ∧
    pair.accessToken = createAccessToken jwt expireMinutes userId none time ∧
    jwt.signed token = jwt.signed pair.accessToken

/-- When a token that was created at this time expires. -/
def expiresAt (expireMinutes : ℕ) (time : Timestamp) : Timestamp :=
  (time + expireMinutes * (60 * second)) / second * second

/-- The server signs its access tokens with this key, and what the key has signed are tokens
that the server has answered with. -/
structure KeepsKey {n : ℕ} (jwt : Jwt) (server : Server) (expireMinutes : ℕ)
    (t : Sys n Input Db RowWrite Exn Response) (token : String) : Prop where
  creates : ∀ userId now, server.deployment.security.createAccessToken userId now =
    createAccessToken jwt expireMinutes userId none now
  unforged : ∀ claims, jwt.signed token = some claims →
    ∃ pair, Grants t pair ∧ jwt.signed pair.accessToken = some claims

section
variable {n : ℕ} {jwt : Jwt} {server : Server} {expireMinutes : ℕ}
  {credentials : Fin n → Option HTTPAuthorizationCredentials} {requests : Fin n → Request}
  {W : VaultWorld n} {as : Schedule n} {t : Sys n Input Db RowWrite Exn Response}
  {c : HTTPAuthorizationCredentials} {now : Timestamp} {userId : UUID}

/-- What the key has signed are the claims of a token of the run. -/
theorem KeepsKey.claims_eq (hkey : KeepsKey jwt server expireMinutes t c.credentials)
    (hr : (serving jwt server credentials requests W).run vaultEngine as = some t)
    {payload : TokenClaims} (hsigned : jwt.signed c.credentials = some payload) :
    ∃ userId time, IssuedTo jwt expireMinutes t c.credentials userId time ∧
      payload = accessClaims expireMinutes userId none time := by
  obtain ⟨pair, hgrants, hpair⟩ := hkey.unforged payload hsigned
  obtain ⟨inp, hinp, htoken⟩ := stamped_of_grants hr hgrants
  rw [hkey.creates] at htoken
  refine ⟨pair.user.id, inp.now, ⟨pair, inp, hgrants, rfl, hinp, rfl, htoken,
    hsigned.trans hpair.symm⟩, ?_⟩
  rw [htoken, createAccessToken, jwt.signed_encode] at hpair
  exact (Option.some.inj hpair).symm

theorem names_iff (hr : (serving jwt server credentials requests W).run vaultEngine as = some t)
    (hkey : KeepsKey jwt server expireMinutes t c.credentials)
    (hscheme : c.scheme.toLower = "bearer") : Names jwt (some c) now userId ↔
      ∃ time, IssuedTo jwt expireMinutes t c.credentials userId time ∧
        time / second * second ≤ now ∧ now < expiresAt expireMinutes time := by
  constructor
  · rintro ⟨c', payload, hc, -, hdecode, hsub⟩
    obtain rfl := Option.some.inj hc
    obtain ⟨hsigned, hfrom, huntil, -, -⟩ := decodeAccessToken_ok_iff.mp hdecode
    obtain ⟨userId', time, hissued, rfl⟩ := hkey.claims_eq hr hsigned
    obtain rfl : userId' = userId :=
      Option.some.inj ((parseKey_toString userId').symm.trans hsub)
    exact ⟨time, hissued, hfrom, huntil⟩
  · rintro ⟨time, ⟨pair, inp, -, -, -, -, htoken, hsigned⟩, hfrom, huntil⟩
    rw [htoken, createAccessToken, jwt.signed_encode] at hsigned
    exact ⟨c, _, rfl, hscheme, decodeAccessToken_ok_iff.mpr ⟨hsigned, hfrom, huntil, rfl,
      toString_ne_empty userId⟩, parseKey_toString userId⟩

/-- At any moment of any run a token is accepted for exactly the active user to whom the
server has granted it, until it expires; every other one is refused. Sessions have no part in
it: a logout leaves the access tokens of its user as they are. -/
theorem bearer_token_iff (hb : Begins W)
    (hr : (serving jwt server credentials requests W).run vaultEngine as = some t)
    (hscheme : c.scheme.toLower = "bearer")
    (hkey : KeepsKey jwt server expireMinutes t c.credentials) (inputs : ℕ → Input)
    (hclock : ∀ inp ∈ t.world.past, inp.now ≤ (inputs 0).now) :
    (∀ user, (alone inputs (getCurrentUser jwt server (some c)) t.world.db).1 = .ok (.ok user) ↔
      user ∈ t.world.db .users ∧ user.isActive = true ∧ ∃ time,
        IssuedTo jwt expireMinutes t c.credentials user.id time ∧
        (inputs 0).now < expiresAt expireMinutes time) ∧
    ((∀ user, (alone inputs (getCurrentUser jwt server (some c)) t.world.db).1 ≠ .ok (.ok user)) →
      (alone inputs (getCurrentUser jwt server (some c)) t.world.db).1 =
        .ok (.error (unauthorized "Could not validate credentials"))) := by
  have hdb := serving_valid hb hr
  -- a token that the run has issued is never from the future
  have hnames : ∀ userId, Names jwt (some c) (inputs 0).now userId ↔ ∃ time,
      IssuedTo jwt expireMinutes t c.credentials userId time ∧
        (inputs 0).now < expiresAt expireMinutes time := by
    intro userId
    rw [names_iff hr hkey hscheme]
    constructor
    · rintro ⟨time, hissued, -, huntil⟩
      exact ⟨time, hissued, huntil⟩
    · rintro ⟨time, hissued, huntil⟩
      have htime : time ≤ (inputs 0).now := by
        obtain ⟨pair, inp, -, -, hinp, rfl, -⟩ := hissued
        exact hclock inp hinp
      exact ⟨time, hissued, (Nat.div_mul_le_self _ _).trans htime, huntil⟩
  simp only [← hnames]
  cases hdecode : decodeAccessToken jwt (inputs 0).now c.credentials with
  | error e =>
    rw [getCurrentUser_undecoded server hscheme hdecode]
    refine ⟨fun user => iff_of_false ?_ ?_, fun _ => rfl⟩
    · intro hok
      cases hok
    · rintro ⟨-, -, c', payload, hc, -, hpayload, -⟩
      obtain rfl := Option.some.inj hc
      rw [hdecode] at hpayload
      cases hpayload
  | ok payload =>
    obtain ⟨userId, time, -, rfl⟩ :=
      hkey.claims_eq hr (decodeAccessToken_ok_iff.mp hdecode).1
    have hnamed : Names jwt (some c) (inputs 0).now userId :=
      ⟨c, _, rfl, hscheme, hdecode, parseKey_toString userId⟩
    obtain ⟨hactive, hinactive⟩ := getCurrentUser_decoded server hdb hnamed
    by_cases hex : ∃ user ∈ t.world.db .users, user.id = userId ∧ user.isActive = true
    · obtain ⟨user, huser, hid, hon⟩ := hex
      have haccepted := hactive user huser hid hon
      refine ⟨fun other => ⟨fun hother => ?_, ?_⟩, fun hnone => absurd haccepted (hnone user)⟩
      · obtain rfl := Except.ok.inj (Except.ok.inj (haccepted.symm.trans hother))
        exact ⟨huser, hon, hid ▸ hnamed⟩
      · rintro ⟨hother, hotherOn, hotherNamed⟩
        have hsame := hotherNamed.subjectOf_eq.symm.trans hnamed.subjectOf_eq
        exact hactive other hother (Option.some.inj hsame) hotherOn
    · have hrefused := hinactive fun user huser hid => by
        cases hon : user.isActive with
        | false => rfl
        | true => exact absurd ⟨user, huser, hid, hon⟩ hex
      refine ⟨fun user => iff_of_false ?_ ?_, fun _ => hrefused⟩
      · intro hok
        rw [hrefused] at hok
        cases hok
      · rintro ⟨huser, hon, hnames'⟩
        have hsame := hnames'.subjectOf_eq.symm.trans hnamed.subjectOf_eq
        exact hex ⟨user, huser, Option.some.inj hsame, hon⟩

end

section
variable {jwt : Jwt} {server : Server} {credentials : Option HTTPAuthorizationCredentials}
  {I : Input → Prop} {G : Db → Prop} {β : Type} {D : β → Prop}

theorem mediated_getCurrentUser_bind {k : Except HTTPException User → Tx β}
    (herror : ∀ e, e.statusCode = 401 → (k (.error e)).Mediated I G D)
    (hok : ∀ inp v, ∀ user ∈ v .users, I inp → Names jwt credentials inp.now user.id →
      user.isActive = true → G v ∨ (k (.ok user)).Mediated I G D) :
    ((getCurrentUser jwt server credentials).bind k).Mediated I G D := by
  unfold getCurrentUser
  split
  · exact herror _ rfl
  · rename_i c hc
    obtain ⟨hcredentials, hscheme⟩ := Option.filter_eq_some_iff.mp hc
    rw [Prog.bind_eq, Prog.bind_assoc]
    refine Prog.mediated_statement_bind fun clock v ws a hclock hf => Or.inr ?_
    simp only [Except.ok.injEq, Prod.mk.injEq] at hf
    obtain ⟨rfl, rfl⟩ := hf
    refine ⟨rfl, ?_⟩
    split
    · exact herror _ rfl
    · rename_i payload hdecode
      split
      · trivial
      · rename_i userId hsub
        rw [Prog.bind_eq, Prog.bind_assoc]
        refine mediated_selectOne_bind (herror _ rfl) fun v user huser hid => ?_
        obtain rfl := eq_of_beq hid
        cases hactive : user.isActive with
        | false =>
          simp only [Option.filter, hactive]
          exact Or.inr (herror _ rfl)
        | true =>
          simp only [Option.filter, hactive]
          exact hok clock v user huser hclock
            ⟨c, payload, hcredentials, eq_of_beq hscheme, hdecode, hsub⟩ hactive

/-- What serving a request on an organization has met: a clock by which the token names a
user, and that user active. -/
theorem Request.serve_mediated_active {r : Request} {orgId : UUID} (ho : r.orgId = some orgId) :
    (r.serve jwt server credentials).Mediated I
      (fun db => ∃ userId, (∃ inp, I inp ∧ Names jwt credentials inp.now userId) ∧
        Active db userId) fun response => 400 ≤ response.status := by
  unfold serve
  split
  · rename_i hanonymous
    rw [orgId_anonymous hanonymous] at ho
    cases ho
  · refine mediated_getCurrentUser_bind (fun e he => ?_) fun inp v user huser hinp hnames hon => ?_
    · show 400 ≤ e.statusCode
      omega
    · exact Or.inl ⟨user.id, ⟨inp, hinp, hnames⟩, user, huser, rfl, hon⟩

/-- And the role that the route asks for. -/
theorem Request.serve_mediated_role {r : Request} {orgId : UUID} (ho : r.orgId = some orgId) :
    (r.serve jwt server credentials).Mediated I
      (fun db => ∃ userId minimum, (∃ inp, I inp ∧ Names jwt credentials inp.now userId) ∧
        r.asks userId = some (orgId, userId, minimum) ∧ Authorized db orgId userId minimum)
      fun response => 400 ≤ response.status := by
  unfold serve
  split
  · rename_i hanonymous
    rw [orgId_anonymous hanonymous] at ho
    cases ho
  · refine mediated_getCurrentUser_bind (fun e he => ?_) fun inp v user huser hinp hnames hon => ?_
    · show 400 ≤ e.statusCode
      omega
    · obtain ⟨minimum, hasks⟩ := asks_eq user.id ho
      refine Or.inr ((handle_mediated ho hasks).mono_guard fun db hdb => ?_)
      exact ⟨user.id, minimum, ⟨inp, hinp, hnames⟩, hasks, hdb⟩

end

/-- For this user, and on this organization, the request was served: it came with a token of
the user that had not expired by some clock of the run, and it met databases in which the
user was active and had the role that the route asks for. -/
structure ServedFor {n : ℕ} (jwt : Jwt) (expireMinutes : ℕ)
    (t : Sys n Input Db RowWrite Exn Response) (i : Fin n)
    (credentials : Option HTTPAuthorizationCredentials) (r : Request) (orgId userId : UUID) :
    Prop where
  token : ∃ c time inp, credentials = some c ∧
    IssuedTo jwt expireMinutes t c.credentials userId time ∧ inp ∈ t.world.past ∧
      time / second * second ≤ inp.now ∧ inp.now < expiresAt expireMinutes time
  active : ∃ db ∈ (t.call i).seen, Active db userId
  role : ∃ minimum, r.asks userId = some (orgId, userId, minimum) ∧
    ∃ db ∈ (t.call i).seen, Authorized db orgId userId minimum

section
variable {n : ℕ} {jwt : Jwt} {server : Server} {expireMinutes : ℕ}
  {credentials : Fin n → Option HTTPAuthorizationCredentials} {requests : Fin n → Request}
  {W : VaultWorld n} {as : Schedule n} {t : Sys n Input Db RowWrite Exn Response}

/-- Whatever runs beside it: a request on an organization that was answered with success, or
that has committed anything, was served for the user to whom its token had been granted. -/
theorem served_requests_authenticated (hlog : W.log = [])
    (hr : (serving jwt server credentials requests W).run vaultEngine as = some t) {i : Fin n}
    (hkey : ∀ c, credentials i = some c → KeepsKey jwt server expireMinutes t c.credentials)
    {orgId : UUID} (ho : (requests i).orgId = some orgId)
    (hserved : (∃ ws, (i, ws) ∈ t.world.log) ∨
      ∃ response, (t.call i).prog = .ret response ∧ response.status < 400) :
    ∃ userId, ServedFor jwt expireMinutes t i (credentials i) (requests i) orgId userId := by
  have hmet : ∀ G : Db → Prop, ((requests i).serve jwt server (credentials i)).Mediated
      (fun inp => inp ∈ t.world.past) G (fun response => 400 ≤ response.status) →
        ∃ db ∈ (t.call i).seen, G db := by
    intro G hprog
    have hmediated : t.Mediated i (fun inp => inp ∈ t.world.past) G
        fun response => 400 ≤ response.status :=
      (Sys.Mediated.initial hlog hprog).run hr fun _ h => h
    rcases hserved with ⟨ws, hws⟩ | ⟨response, hret, hstatus⟩
    · exact hmediated.committed hws
    · exact hmediated.returned hret (not_le.mpr hstatus)
  obtain ⟨db, hdb, userId, ⟨inp, hinp, hnames⟩, hactive⟩ :=
    hmet _ (Request.serve_mediated_active ho)
  obtain ⟨db', hdb', userId', minimum, ⟨_, -, hnames'⟩, hasks, hrole⟩ :=
    hmet _ (Request.serve_mediated_role ho)
  obtain rfl : userId = userId' :=
    Option.some.inj (hnames.subjectOf_eq.symm.trans hnames'.subjectOf_eq)
  obtain ⟨c, payload, hc, hscheme, -⟩ := id hnames
  rw [hc] at hnames
  obtain ⟨time, hissued, hfrom, huntil⟩ := (names_iff hr (hkey c hc) hscheme).mp hnames
  exact ⟨userId, ⟨c, time, inp, hc, hissued, hinp, hfrom, huntil⟩, ⟨db, hdb, hactive⟩,
    minimum, hasks, db', hdb', hrole⟩

end

/-- A server whose tokens last a minute. -/
def tokenServer : Server :=
  ⟨{ sampleDeployment with security := { sampleDeployment.security with
    createAccessToken := fun userId now => createAccessToken sampleJwt 1 userId none now } },
    .envvaultApp, .superuser⟩

/-- A login, and a request with its token. -/
def bearerRequests : Fin 2 → Request
  | 0 => .login "ana@example.com" "h"
  | 1 => .listProjects 10

def bearer : HTTPAuthorizationCredentials := ⟨"Bearer", createAccessToken sampleJwt 1 1 none 0⟩

def bearerCredentials : Fin 2 → Option HTTPAuthorizationCredentials
  | 0 => none
  | 1 => some bearer

def bearerSteps : Schedule 2 := inTurn 10 fun
  | 0 => 8
  | 1 => 8

/-- The user of the samples, and the answer to the login. -/
def ana : User := ⟨1, "ana@example.com", some "h", none, true⟩

def anaTokens : TokenPair :=
  ⟨ana, createAccessToken sampleJwt 1 1 none 16, String.ofList (List.replicate 11 'a')⟩

theorem bearerRequests_run :
    ∃ t, (serving sampleJwt tokenServer bearerCredentials bearerRequests
        ⟨acmeDb, [], samplePast 10⟩).run vaultEngine bearerSteps = some t ∧
      Grants t anaTokens ∧ (∃ response, (t.call 1).prog = .ret response ∧ response.status = 200) ∧
      t.world.db .users = [ana] ∧ (∃ inp ∈ t.world.past, inp.now = 16) ∧
      ∀ inp ∈ t.world.past, inp.now ≤ 22 := by
  have hrun : ((serving sampleJwt tokenServer bearerCredentials bearerRequests
      ⟨acmeDb, [], samplePast 10⟩).run vaultEngine bearerSteps).map (fun t =>
        (answered t 0, (answered t 1).map Response.status, t.world.db .users,
          (t.world.past.map Input.now).contains 16,
          (t.world.past.map Input.now).all fun now => decide (now ≤ 22))) =
      some (some ⟨200, .reply (.tokens anaTokens)⟩, some 200, [ana], true, true) := by
    decide +kernel
  obtain ⟨t, ht, hfacts⟩ := Option.map_eq_some_iff.mp hrun
  simp only [Prod.mk.injEq] at hfacts
  obtain ⟨hlogin, hlist, husers, htime, hlate⟩ := hfacts
  refine ⟨t, ht, ⟨0, _, prog_of_answered hlogin, rfl⟩, ?_, husers, ?_, fun inp hinp => ?_⟩
  · obtain ⟨response, hresponse, hstatus⟩ := Option.map_eq_some_iff.mp hlist
    exact ⟨response, prog_of_answered hresponse, hstatus⟩
  · exact List.mem_map.mp (List.contains_iff_mem.mp htime)
  · exact of_decide_eq_true (List.all_eq_true.mp hlate _ (List.mem_map_of_mem hinp))

/-- The login is all that the key has signed. -/
theorem keepsKey_bearer {t : Sys 2 Input Db RowWrite Exn Response} (h : Grants t anaTokens) :
    KeepsKey sampleJwt tokenServer 1 t bearer.credentials where
  creates _ _ := rfl
  unforged claims hclaims := by
    refine ⟨anaTokens, h, ?_⟩
    rw [← hclaims]
    decide +kernel

theorem issuedTo_bearer {t : Sys 2 Input Db RowWrite Exn Response} (h : Grants t anaTokens)
    (hclock : ∃ inp ∈ t.world.past, inp.now = 16) :
    IssuedTo sampleJwt 1 t bearer.credentials 1 16 := by
  obtain ⟨inp, hinp, hnow⟩ := hclock
  exact ⟨anaTokens, inp, h, rfl, hinp, hnow, rfl, by decide +kernel⟩

/-- The token of the login is accepted a moment later. -/
theorem bearer_token_iff_ana :
    ∃ t, (serving sampleJwt tokenServer bearerCredentials bearerRequests
        ⟨acmeDb, [], samplePast 10⟩).run vaultEngine bearerSteps = some t ∧
      (alone (fun k => sampleInput (40 + k)) (getCurrentUser sampleJwt tokenServer (some bearer))
        t.world.db).1 = .ok (.ok ana) := by
  obtain ⟨t, ht, hgrants, -, husers, htime, hlate⟩ := bearerRequests_run
  have hclock : ∀ inp ∈ t.world.past, inp.now ≤ ((fun k => sampleInput (40 + k)) 0).now :=
    fun inp hinp => (hlate inp hinp).trans (by decide)
  have hlaw := bearer_token_iff opens_acme.toBegins ht (c := bearer) (by decide +kernel)
    (keepsKey_bearer hgrants) (fun k => sampleInput (40 + k)) hclock
  refine ⟨t, ht, (hlaw.1 ana).mpr ⟨?_, rfl, 16, issuedTo_bearer hgrants htime, by decide⟩⟩
  rw [husers]
  exact List.mem_singleton_self _

theorem served_requests_authenticated_ana :
    ∃ t, (serving sampleJwt tokenServer bearerCredentials bearerRequests
        ⟨acmeDb, [], samplePast 10⟩).run vaultEngine bearerSteps = some t ∧
      ∃ userId, ServedFor sampleJwt 1 t 1 (some bearer) (.listProjects 10) 10 userId := by
  obtain ⟨t, ht, hgrants, ⟨response, hret, hstatus⟩, -⟩ := bearerRequests_run
  refine ⟨t, ht, served_requests_authenticated rfl ht (i := 1) ?_ rfl
    (Or.inr ⟨response, hret, by omega⟩)⟩
  intro c hc
  obtain rfl := Option.some.inj hc
  exact keepsKey_bearer hgrants

end EnvVault
