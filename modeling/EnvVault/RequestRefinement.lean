import EnvVault.CallWrappers
import EnvVault.Reveal
import EnvVault.RouteCalls

/-!
# Requests refine service calls

The routes add queries to the operations of the services: the membership gate before an
operation and the reload of a secret after it. A run of requests is matched by a run of the
service calls alone that commits the same writes in the same order, so what holds of the
databases and commits of every run of calls holds of every run of requests.
-/
namespace EnvVault
open EnvVault.Relational EnvVault.Transactions

/-- Keys that no input before has supplied stay unused when some of those inputs are left out. -/
theorem freshInput_sublist {past past' : List Input} {inp : Input} (h : past'.Sublist past)
    (hf : freshInput past inp = true) : freshInput past' inp = true := by
  simp only [freshInput, Bool.and_eq_true, List.all_eq_true] at hf ⊢
  exact ⟨hf.1, fun q hq => hf.2 q (h.subset hq)⟩

namespace Request

/-- The service call of a request. -/
def call (server : Server) (currentUser : UUID) (r : Request) : ServiceCall :=
  ⟨r.op currentUser, r.session server currentUser⟩

/-- What the body of the answer shows of the result of the operation. -/
def Presents : Request → Reply → Body → Prop
  | rotateSecret _ _ secretId _, _, body =>
    ∃ s : Secret, s.id = secretId ∧ body = .reply (.secret s)
  | revealSecret _ _ secretId, .value value, body =>
    ∃ keyName, body = .revealed secretId keyName value
  | _, reply, body => body = .reply reply

/-- The answer to a request whose operation has returned. -/
def Answers (r : Request) (reply : Reply) (response : Response) : Prop :=
  response.status = r.successStatus ∧ r.Presents reply response.body

/-- The answer to a request that calls no operation: `get_org_uow` turns its user away. -/
def Declines (r : Request) (response : Response) : Prop :=
  r.orgId.isSome = true ∧ response = ⟨403, .detail "Not a member of this organization"⟩

/-- The user has no membership in the organization of the route. -/
def Stranger (currentUser : UUID) (r : Request) (db : Db) : Prop :=
  ∀ m ∈ db .memberships, m.userId = currentUser → some m.organizationId ≠ r.orgId

/-- The value that the body of the request carries. -/
def sentValue : Request → Option String
  | createSecret _ _ _ value => some value
  | rotateSecret _ _ _ value => some value
  | _ => none

variable {server : Server} {currentUser : UUID} {r : Request} {uow : UnitOfWork}

theorem call_plainValue : (r.call server currentUser).op.plainValue = r.sentValue := by
  cases r <;> rfl

theorem reads_reload_id (secretId : UUID) :
    (reload uow secretId).Reads fun s => s.id = secretId := by
  refine .bind (reads_get .secrets _) fun secret h => ?_
  cases secret with
  | none => trivial
  | some s => exact h s rfl

theorem reads_presents (reply : Reply) : (r.present uow reply).Reads (r.Presents reply) := by
  cases r
  case rotateSecret => exact .bind (reads_reload_id _) fun s hs => ⟨s, hs, rfl⟩
  case revealSecret =>
    cases reply
    case value value =>
      refine .bind (reads_reload_id _) fun s hs => ⟨s.keyName, ?_⟩
      rw [hs]
    all_goals exact rfl
  all_goals exact rfl

theorem reads_answers (reply : Reply) :
    (r.finish server currentUser reply).Reads (r.Answers reply) :=
  .bind (reads_presents reply) fun _ h => ⟨rfl, h⟩

/-- A route queries around one call of the services. -/
theorem wraps_handle : Prog.Wraps r.Declines r.Answers
    ((r.call server currentUser).program server.deployment) (r.handle server currentUser) := by
  have hrun : Prog.Wraps r.Declines r.Answers
      ((r.call server currentUser).program server.deployment) (r.run server currentUser) := by
    rw [run_eq]
    exact Prog.wraps_bind reads_answers
  unfold handle
  split
  · exact hrun
  · rename_i orgId ho
    refine Prog.Reads.bind_readsThen (reads_selectOne _ _) fun membership _ => ?_
    split
    · exact .here _ (Or.inl ⟨_, rfl, by rw [ho]; rfl, rfl⟩)
    · exact hrun

theorem not_declines_of_status {response : Response} (h : response.status = r.successStatus) :
    ¬ r.Declines response := by
  rintro ⟨-, rfl⟩
  cases r <;> cases h

/-- In the session of the route a user sees the memberships of its own. -/
theorem stranger_of_found {db : Db} {orgId : UUID} (ho : r.orgId = some orgId)
    (h : (r.session server currentUser).found .memberships
      (fun m : Membership => m.userId == currentUser && m.organizationId == orgId) db = []) :
    r.Stranger currentUser db := by
  intro m hm huser horg
  rw [ho, Option.some.injEq] at horg
  have hsession : (r.session server currentUser).userId = some m.userId ∧
      (r.session server currentUser).orgId = some m.organizationId := by
    rw [huser, horg, ← ho]
    cases r <;> first | exact ⟨rfl, rfl⟩ | cases ho
  have hacts : Acts (r.session server currentUser) db m := ⟨hm, Or.inr hsession⟩
  have hfound : m ∈ (r.session server currentUser).found .memberships
      (fun m : Membership => m.userId == currentUser && m.organizationId == orgId) db :=
    List.mem_filter.mpr ⟨hm, by simp [hacts.may_membership, huser, horg]⟩
  rw [h] at hfound
  exact absurd hfound List.not_mem_nil

/-- Only a stranger is turned away. -/
theorem wlp_handle_declines {n : ℕ} {i : Fin n} {W : VaultWorld n} :
    wlp (Contract.free n vaultEngine) i (r.handle server currentUser)
      (fun response l _ => r.Declines response → ∃ db ∈ l.seen, r.Stranger currentUser db)
      (fun _ _ _ => True) ⟨[], []⟩ W := by
  have hX : ∀ (e : Exn) (l : Local Db RowWrite) (V : VaultWorld n), True := fun _ _ _ => trivial
  have hrun : ∀ (l : Local Db RowWrite) (V : VaultWorld n),
      wlp (Contract.free n vaultEngine) i (r.run server currentUser)
        (fun response l _ => r.Declines response → ∃ db ∈ l.seen, r.Stranger currentUser db)
        (fun _ _ _ => True) l V := by
    intro l V
    rw [run_eq]
    refine wlp_free_bind hX fun reply l' V' _ => ?_
    exact wlp_reads (reads_finish server reply) hX stable_true trivial
      fun _ _ _ hstatus _ _ hdeclined => absurd hdeclined (not_declines_of_status hstatus)
  unfold handle
  split
  · exact hrun _ W
  · rename_i orgId ho
    refine wlp_selectOne_found_bind hX stable_true trivial (fun V _ hfound => ?_)
      fun V inp m _ _ _ _ => hrun _ _
    exact fun U _ _ => ⟨V.db, List.mem_cons_self, stranger_of_found ho hfound⟩

end Request

/-- An environment, a secret in it, a rotation and a reveal. -/
def acmeRequests : Fin 4 → Request
  | 0 => .createEnvironment 10 12 "prod"
  | 1 => .createSecret 10 28 "KEY" "one"
  | 2 => .rotateSecret 10 28 54 "two"
  | 3 => .revealSecret 10 28 54

def acmeRequestSteps : Schedule 4 := inTurn 10 fun
  | 0 => 10
  | 1 => 14
  | 2 => 15
  | 3 => 12

theorem acmeRequests_run :
    ∃ t, (handling sampleServer (fun _ => 1) acmeRequests ⟨acmeDb, [], samplePast 10⟩).run
        vaultEngine acmeRequestSteps = some t ∧
      (t.call 3).prog = .ret ⟨200, .revealed 54 "KEY" "two"⟩ := by
  have hrun : ((handling sampleServer (fun _ => 1) acmeRequests
      ⟨acmeDb, [], samplePast 10⟩).run vaultEngine acmeRequestSteps).map (fun t => answered t 3) =
      some (some ⟨200, .revealed 54 "KEY" "two"⟩) := by rfl
  obtain ⟨t, ht, hanswered⟩ := Option.map_eq_some_iff.mp hrun
  exact ⟨t, ht, prog_of_answered hanswered⟩

section
variable {n : ℕ} {server : Server} {users : Fin n → UUID} {requests : Fin n → Request}
  {W : VaultWorld n} {as : Schedule n} {t : Sys n Input Db RowWrite Exn Response}

/-- The calls of the requests. -/
def callsOf (server : Server) (users : Fin n → UUID) (requests : Fin n → Request) (i : Fin n) :
    ServiceCall :=
  (requests i).call server (users i)

theorem handling_matches (hr : (handling server users requests W).run vaultEngine as = some t) :
    ∃ bs s, (waiting server.deployment (callsOf server users requests) W).run vaultEngine bs =
        some s ∧ t.Matches (fun i => (requests i).Declines) (fun i => (requests i).Answers)
          (fun i => (callsOf server users requests i).program server.deployment) s :=
  (Sys.Matches.initial fun _ => Request.wraps_handle).run
    (fun _ _ _ h hf => freshInput_sublist h hf) (sampleInput 0) hr

/-- Whoever is turned away was a stranger at some moment of the request. -/
theorem stranger_of_declined
    (hr : (handling server users requests W).run vaultEngine as = some t) {i : Fin n}
    {response : Response} (hret : (t.call i).prog = .ret response)
    (h : (requests i).Declines response) :
    ∃ db ∈ (t.call i).seen, (requests i).Stranger (users i) db :=
  Contract.free_run (R := fun i response seen _ => (requests i).Declines response →
      ∃ db ∈ seen, (requests i).Stranger (users i) db)
    (fun _ _ _ => Request.wlp_handle_declines)
    ⟨fun _ _ _ _ _ h => h, fun _ _ _ _ _ _ h => h⟩ hr hret h

/-- A request beside its service call, in runs with the same commits. -/
structure Request.Runs (r : Request) (currentUser : UUID) (c : Call Input Db RowWrite Exn Response)
    (d : Call Input Db RowWrite Exn Reply) : Prop where
  /-- An answer shows the reply of the call, or `get_org_uow` has given it instead of the call
  to someone who had no membership. -/
  answered : ∀ response, c.prog = .ret response →
    (r.Declines response ∧ d.started = false ∧ ∃ db ∈ c.seen, r.Stranger currentUser db) ∨
      ∃ reply, d.prog = .ret reply ∧ r.Answers reply response
  /-- An exception came before the call or after its return, or is that of the call. -/
  failed : ∀ e, c.prog = .raise e →
    d.started = false ∨ d.prog = .raise e ∨ ∃ reply, d.prog = .ret reply
  /-- The exceptions of the call leave the request. -/
  raised : ∀ e, d.started = true → d.prog = .raise e → c.prog = .raise e
  seen : d.seen.Sublist c.seen

/-- A run of requests is a run of their service calls: there is one with the same database
and the same commits beside which every request ran its call. -/
theorem handling_refines_calls
    (hr : (handling server users requests W).run vaultEngine as = some t) :
    ∃ bs s, (waiting server.deployment (callsOf server users requests) W).run vaultEngine bs =
        some s ∧
      s.world.db = t.world.db ∧ s.world.log = t.world.log ∧
        ∀ i, (requests i).Runs (users i) (t.call i) (s.call i) := by
  obtain ⟨bs, s, hs, hm⟩ := handling_matches hr
  refine ⟨bs, s, hs, hm.db, hm.log, fun i => ⟨fun response hret => ?_, fun e he => ?_,
    fun e hstarted he => ?_, (hm.calls i).seen_sublist⟩⟩
  · rcases (hm.calls i).of_ret hret with ⟨hdeclined, hcall⟩ | hreply
    · exact Or.inl ⟨hdeclined, by rw [hcall]; rfl, stranger_of_declined hr hret hdeclined⟩
    · exact Or.inr hreply
  · exact (hm.calls i).of_raised he
  · exact (hm.calls i).of_raise hstarted he

/-- The user of the organization and a stranger ask for it. -/
def acmeReaders : Fin 2 → UUID
  | 0 => 1
  | 1 => 2

def acmeReading : Fin 2 → Request := fun _ => .getOrganization 10

def acmeReadingSteps : Schedule 2 := inTurn 10 fun
  | 0 => 3
  | 1 => 2

theorem handling_refines_calls_acme :
    (∃ t, (handling sampleServer (fun _ => 1) acmeRequests ⟨acmeDb, [], samplePast 10⟩).run
        vaultEngine acmeRequestSteps = some t ∧
      (t.call 3).prog = .ret ⟨200, .revealed 54 "KEY" "two"⟩ ∧
      ∃ bs s, (waiting sampleDeployment (callsOf sampleServer (fun _ => 1) acmeRequests)
          ⟨acmeDb, [], samplePast 10⟩).run vaultEngine bs = some s ∧
        s.world.db = t.world.db ∧ ∃ reply, (s.call 3).prog = .ret reply ∧
          (acmeRequests 3).Answers reply ⟨200, .revealed 54 "KEY" "two"⟩) ∧
    ∃ t, (handling sampleServer acmeReaders acmeReading ⟨acmeDb, [], samplePast 10⟩).run
        vaultEngine acmeReadingSteps = some t ∧
      (t.call 0).prog = .ret ⟨200, .reply (.organization ⟨10, "acme", "acme"⟩)⟩ ∧
      (t.call 1).prog = .ret ⟨403, .detail "Not a member of this organization"⟩ ∧
      ∃ bs s, (waiting sampleDeployment (callsOf sampleServer acmeReaders acmeReading)
          ⟨acmeDb, [], samplePast 10⟩).run vaultEngine bs = some s ∧
        (callsOf sampleServer acmeReaders acmeReading 0).op = .getOrganization 10 ∧
        (s.call 0).prog = .ret (.organization ⟨10, "acme", "acme"⟩) ∧
        (s.call 1).started = false := by
  constructor
  · obtain ⟨t, ht, hret⟩ := acmeRequests_run
    obtain ⟨bs, s, hs, hdb, -, hcalls⟩ := handling_refines_calls ht
    refine ⟨t, ht, hret, bs, s, hs, hdb, ?_⟩
    rcases (hcalls 3).answered _ hret with ⟨⟨-, hdeclined⟩, -⟩ | hreply
    · cases hdeclined
    · exact hreply
  · have hrun : ((handling sampleServer acmeReaders acmeReading
        ⟨acmeDb, [], samplePast 10⟩).run vaultEngine acmeReadingSteps).map
        (fun t => (answered t 0, answered t 1)) =
          some (some ⟨200, .reply (.organization ⟨10, "acme", "acme"⟩)⟩,
            some ⟨403, .detail "Not a member of this organization"⟩) := by rfl
    obtain ⟨t, ht, hanswers⟩ := Option.map_eq_some_iff.mp hrun
    simp only [Prod.mk.injEq] at hanswers
    have hmember := prog_of_answered hanswers.1
    have hstranger := prog_of_answered hanswers.2
    obtain ⟨bs, s, hs, -, -, hcalls⟩ := handling_refines_calls ht
    refine ⟨t, ht, hmember, hstranger, bs, s, hs, rfl, ?_, ?_⟩
    · rcases (hcalls 0).answered _ hmember with ⟨⟨-, hdeclined⟩, -⟩ | ⟨reply, hreply, -, hbody⟩
      · cases hdeclined
      · cases hbody
        exact hreply
    · rcases (hcalls 1).answered _ hstranger with ⟨-, hcall, -⟩ | ⟨reply, -, hstatus, -⟩
      · exact hcall
      · cases hstatus

/-- Whatever requests run beside a reveal, the value in its answer was sent in the body of a
request to create or rotate that secret, whose commit stored it in the version that was
current at some moment of the reveal. -/
theorem revealed_values_were_sent (ho : Opens W)
    (hr : (handling server users requests W).run vaultEngine as = some t) {i : Fin n}
    {orgId environmentId secretId id : UUID} {keyName value : String} {status : ℕ}
    (hi : requests i = .revealSecret orgId environmentId secretId)
    (hret : (t.call i).prog = .ret ⟨status, .revealed id keyName value⟩) :
    status = 200 ∧ id = secretId ∧ ∃ j ws v, (j, ws) ∈ t.world.log ∧
      (requests j).sentValue = some value ∧ .insert .secretVersions v ∈ ws ∧
      v.secretId = secretId ∧ ∃ db ∈ (t.call i).seen, ∃ s ∈ db .secrets,
        s.id = secretId ∧ s.isDeleted = false ∧ s.currentVersionId = some v.id := by
  obtain ⟨bs, s, hs, hm⟩ := handling_matches hr
  have hok := ho.ok hs
  have hop : (callsOf server users requests i).op =
      .getDecryptedValue secretId orgId (users i) := by
    rw [callsOf, hi]
    rfl
  rcases (hm.calls i).of_ret hret with ⟨hdeclined, -⟩ | ⟨reply, hreply, hanswers⟩
  · cases hdeclined.2
  · rw [hi] at hanswers
    obtain ⟨hstatus, hpresents⟩ := hanswers
    obtain ⟨plainValue, rfl⟩ : ∃ plainValue, reply = .value plainValue := by
      cases reply <;> first | exact ⟨_, rfl⟩ | cases hpresents
    obtain ⟨keyName', hbody⟩ := hpresents
    cases hbody
    obtain ⟨db, hdb, secret, hmem, hid, hlive, versionId, hpointer, hstored⟩ :=
      (hok.call i).ret secret_meets hok.inv hreply secretId orgId (users i) value hop rfl
    refine ⟨hstatus, rfl, ?_⟩
    obtain ⟨e, he, hstored⟩ := List.mem_flatMap.mp hstored
    obtain ⟨sent, hsent⟩ :
        ∃ sent, (callsOf server users requests e.1).op.plainValue = some sent := by
      cases hplain : (callsOf server users requests e.1).op.plainValue with
      | none => simp [hplain] at hstored
      | some sent => exact ⟨sent, rfl⟩
    rw [hsent] at hstored
    obtain ⟨v, hv, heq⟩ := List.mem_map.mp hstored
    obtain ⟨rfl, rfl⟩ := Prod.mk.inj heq
    rw [callsOf, Request.call_plainValue] at hsent
    rw [hm.log] at he
    obtain ⟨hinsert, hsecret⟩ := mem_versionsInserted.mp hv
    exact ⟨e.1, e.2, v, he, hsent, hinsert, hsecret, db, (hm.calls i).seen_sublist.subset hdb,
      secret, hmem, hid, hlive, hpointer⟩

theorem revealed_values_were_sent_acme :
    ∃ t, (handling sampleServer (fun _ => 1) acmeRequests ⟨acmeDb, [], samplePast 10⟩).run
        vaultEngine acmeRequestSteps = some t ∧
      ∃ j ws v, (j, ws) ∈ t.world.log ∧ (acmeRequests j).sentValue = some "two" ∧
        .insert .secretVersions v ∈ ws ∧ v.secretId = 54 := by
  obtain ⟨t, ht, hret⟩ := acmeRequests_run
  obtain ⟨-, -, j, ws, v, hlog, hsent, hinsert, hsecret, -⟩ :=
    revealed_values_were_sent opens_acme ht (i := 3) rfl hret
  exact ⟨t, ht, j, ws, v, hlog, hsent, hinsert, hsecret⟩

end

end EnvVault
