import EnvVault.CallResults
import EnvVault.ContainerDeletion

/-!
# Authorization in the service layer

The role checks of the services and their links from a resource back to the
organization, without any help of row-level security: `Op.Did` says what a call
that returned has found and written, and each of its cases stays within the
organization that the call named.
-/
namespace EnvVault
open EnvVault.Relational EnvVault.Transactions

/-- The organization that a call names, its actor, and the least role it asks for. -/
def Op.asks : Op → Option (UUID × UUID × MembershipRole)
  | .updateOrganization o u _ _ => some (o, u, .admin)
  | .deleteOrganization o u => some (o, u, .owner)
  | .listMemberships o u => some (o, u, .viewer)
  | .invite o _ _ u => some (o, u, .admin)
  | .updateRole o _ _ u => some (o, u, .admin)
  | .removeMembership o _ u => some (o, u, .admin)
  | .createProject o _ _ u _ => some (o, u, .member)
  | .listProjects o u => some (o, u, .viewer)
  | .getProject _ o u => some (o, u, .viewer)
  | .updateProject _ o u _ _ _ => some (o, u, .member)
  | .deleteProject _ o u => some (o, u, .member)
  | .createEnvironment _ o _ u => some (o, u, .member)
  | .listEnvironments _ o u => some (o, u, .viewer)
  | .getEnvironment _ o u => some (o, u, .viewer)
  | .deleteEnvironment _ o u => some (o, u, .member)
  | .createSecret _ o _ _ u => some (o, u, .member)
  | .addNewVersion _ o _ u => some (o, u, .member)
  | .listSecrets _ o u => some (o, u, .viewer)
  | .getDecryptedValue _ o u => some (o, u, .member)
  | .deleteSecret _ o u => some (o, u, .member)
  | .listAuditLogs o u _ _ => some (o, u, .viewer)
  | _ => none

theorem Op.asks_authenticates {op : Op} {a : UUID × UUID × MembershipRole}
    (h : op.asks = some a) : op.authenticates = false := by
  cases op <;> first | rfl | cases h

/-- The rows that a reply shows. -/
def Reply.rows : Reply → List (Σ t, RowOf t)
  | .user r => [⟨.users, r⟩]
  | .organization r => [⟨.organizations, r⟩]
  | .organizations rs => rs.map fun r => ⟨.organizations, r⟩
  | .membership r => [⟨.memberships, r⟩]
  | .memberships rs => rs.map fun r => ⟨.memberships, r⟩
  | .project r => [⟨.projects, r⟩]
  | .projects rs => rs.map fun r => ⟨.projects, r⟩
  | .environment r => [⟨.environments, r⟩]
  | .environments rs => rs.map fun r => ⟨.environments, r⟩
  | .secret r => [⟨.secrets, r⟩]
  | .secrets rs => rs.map fun r => ⟨.secrets, r⟩
  | .version r => [⟨.secretVersions, r⟩]
  | .auditLogs rs => rs.map fun r => ⟨.auditLogs, r⟩
  | .unit => []
  | .tokens _ => []
  | .value _ => []

/-- A plaintext that was returned is that of the current version of a live secret of
the organization, under a key of the organization. -/
def RevealsOwn (d : Deployment) (db : Db) (o : UUID) (op : Op) (reply : Reply) : Prop :=
  ∀ secretId org u plainValue, op = .getDecryptedValue secretId org u →
    reply = .value plainValue → ∃ s v k, OwnedSecret db o secretId s ∧
      v ∈ db .secretVersions ∧ s.currentVersionId = some v.id ∧ v.secretId = s.id ∧
      k ∈ db .encryptionKeys ∧ k.id = v.encryptionKeyId ∧
      InOrganization db o .secretVersions v ∧ InOrganization db o .encryptionKeys k ∧
      CryptoService.decryptSecret d.kms v.encryptedValue v.iv k.wrappedDek = .ok plainValue

/-- What the call has returned, decrypted, created, changed and removed belongs to the
organization. -/
structure StaysWithin (d : Deployment) (o : UUID) (op : Op) (reply : Reply) (db db' : Db) :
    Prop where
  returned : ∀ t, ∀ r : RowOf t, ⟨t, r⟩ ∈ reply.rows → InOrganization db' o t r
  decrypted : RevealsOwn d db o op reply
  stored : ∀ t, ∀ r ∈ db' t, r ∉ db t → InOrganization db' o t r
  lost : ∀ t, ∀ r ∈ db t, r ∉ db' t → InOrganization db o t r

section
variable {o : UUID} {db db' : Db} {ws : List RowWrite}

/-- What the write stores or takes away belongs to the organization. -/
def WritesWithin (o : UUID) (db db' : Db) : RowWrite → Prop
  | .insert t r => InOrganization db' o t r
  | .update t r =>
    InOrganization db' o t r ∧ ∀ r' ∈ db t, rowId t r' = rowId t r → InOrganization db o t r'
  | .delete t x => ∀ r ∈ db t, rowId t r = x → InOrganization db o t r

/-- A row of the later database was there before, or a write has stored it. -/
theorem stored_of_view {t : Table} {r : RowOf t} (h : r ∈ vaultSchema.view ws db t) :
    r ∈ db t ∨ .insert t r ∈ ws ∨ .update t r ∈ ws := by
  induction ws generalizing db with
  | nil => exact Or.inl h
  | cons w ws ih =>
    rw [Schema.view_cons] at h
    rcases ih h with h | h | h
    · cases w.about t with
      | insert r' =>
        rw [Schema.apply_insert_self, List.mem_append, List.mem_singleton] at h
        rcases h with h | rfl
        · exact Or.inl h
        · exact Or.inr (Or.inl List.mem_cons_self)
      | update r' =>
        rcases Schema.mem_apply_update.mp h with ⟨rfl, -⟩ | ⟨h, -⟩
        · exact Or.inr (Or.inr List.mem_cons_self)
        · exact Or.inl h
      | delete x => exact Or.inl (Schema.mem_apply_delete.mp h).1
      | other ht =>
        rw [Schema.apply_other _ ht] at h
        exact Or.inl h
    · exact Or.inr (Or.inl (List.mem_cons_of_mem _ h))
    · exact Or.inr (Or.inr (List.mem_cons_of_mem _ h))

/-- A row that is not in the later database was changed or deleted. -/
theorem lost_of_view {t : Table} {r : RowOf t} (hr : r ∈ db t)
    (h : r ∉ vaultSchema.view ws db t) :
    (∃ r', .update t r' ∈ ws ∧ rowId t r = rowId t r') ∨ .delete t (rowId t r) ∈ ws := by
  by_contra hno
  simp only [not_or, not_exists, not_and] at hno
  refine h ?_
  clear h
  induction ws generalizing db with
  | nil => exact hr
  | cons w ws ih =>
    rw [Schema.view_cons]
    refine ih ?_ ⟨fun r' hw => hno.1 r' (List.mem_cons_of_mem _ hw),
      fun hw => hno.2 (List.mem_cons_of_mem _ hw)⟩
    cases w.about t with
    | insert r' =>
      rw [Schema.apply_insert_self]
      exact List.mem_append_left _ hr
    | update r' =>
      exact Schema.mem_apply_update.mpr (Or.inr ⟨hr, hno.1 r' List.mem_cons_self⟩)
    | delete x =>
      refine Schema.mem_apply_delete.mpr ⟨hr, fun hx => hno.2 ?_⟩
      rw [← hx]
      exact List.mem_cons_self
    | other ht => rwa [Schema.apply_other _ ht]

/-- Writes within the organization, with what the reply shows. -/
theorem StaysWithin.of_writes {d : Deployment} {op : Op} {reply : Reply}
    (hreturned : ∀ t, ∀ r : RowOf t, ⟨t, r⟩ ∈ reply.rows →
      InOrganization (vaultSchema.view ws db) o t r)
    (hdecrypted : RevealsOwn d db o op reply)
    (hws : ∀ w ∈ ws, WritesWithin o db (vaultSchema.view ws db) w) :
    StaysWithin d o op reply db (vaultSchema.view ws db) where
  returned := hreturned
  decrypted := hdecrypted
  stored t r hr hnot := by
    rcases stored_of_view hr with h | h | h
    · exact absurd h hnot
    · exact hws _ h
    · exact (hws _ h).1
  lost t r hr hnot := by
    rcases lost_of_view hr hnot with ⟨r', h, hid⟩ | h
    · exact (hws _ h).2 r hr hid
    · exact hws _ h r hr rfl

end

section
variable {uow : UnitOfWork} {db : Db} {ws : List RowWrite}

/-- A DELETE finds its row or writes nothing. -/
theorem Deletes.cases {t : Table} {x : UUID} (h : Deletes uow db t x ws) :
    ws = [] ∨ (∃ r ∈ db t, rowId t r = x) ∧ vaultSchema.deleteRow t x db = .ok ws := by
  unfold Deletes at h
  split at h
  · rename_i hr
    obtain ⟨r, hr, hx, -⟩ := hr
    exact Or.inr ⟨⟨r, hr, hx⟩, h⟩
  · exact Or.inl h

/-- The DELETE of a container that succeeds takes its subtree, or nothing. -/
theorem Deletes.container {c : Container} (hdb : vaultSchema.Valid db) (hown : KeysOwn db)
    (h : Deletes uow db c.table c.id ws) {t : Table} {r : RowOf t} :
    (r ∈ vaultSchema.view ws db t → r ∈ db t) ∧
      (r ∈ db t → r ∉ vaultSchema.view ws db t → c.Subtree db t r) := by
  rcases h.cases with rfl | ⟨hx, hok⟩
  · exact ⟨id, fun hr hnot => absurd hr hnot⟩
  have hno : ¬ c.HasVersion db ∧ ¬ c.HasAudit db := by
    by_cases ha : c.HasAudit db
    · obtain ⟨a, ham, o, rfl, hao⟩ := ha
      have herr := Container.deleteRow_rejected hdb hx ⟨a, ham, hao⟩
      cases hok.symm.trans herr
    · refine ⟨fun hversion => ?_, ha⟩
      cases hok.symm.trans (Container.deleteRow_violated hdb hown hx hversion ha)
  obtain ⟨vs, hvs, hrem⟩ := Container.deleteRow_ok hdb hown hx hno.1 hno.2
  obtain rfl : vs = ws := Except.ok.inj (hvs.symm.trans hok)
  rw [hrem.mem_view hdb.keys]
  refine ⟨And.left, fun hr hnot => ?_⟩
  by_contra hsub
  exact hnot ⟨hr, hsub⟩

/-- The DELETE of a membership takes this row, or nothing. -/
theorem Deletes.membership {x : UUID} (h : Deletes uow db .memberships x ws) :
    ws = [] ∨ ws = [.delete .memberships x] := by
  rcases h.cases with rfl | ⟨hx, hok⟩
  · exact Or.inl rfl
  · right
    rw [Schema.deleteRow_eq (S := vaultSchema) (t := .memberships) hx rfl, events_memberships,
      Schema.drains_nil] at hok
    exact (Except.ok.inj hok).symm

/-- What is below a container of the organization belongs to the organization. -/
theorem Container.subtree_inOrganization (hdb : vaultSchema.Valid db) {c : Container} {o : UUID}
    (hc : c.BelongsTo db o) {t : Table} {r : RowOf t} (hr : r ∈ db t) (h : c.Subtree db t r) :
    InOrganization db o t r := by
  have henv : ∀ x, c.HasEnvironment db x → EnvironmentIn db o x := by
    intro x hx
    cases c with
    | environment e =>
      obtain rfl : x = e := hx
      exact hc
    | project p =>
      obtain ⟨e, he, hid, rfl⟩ := hx
      exact ⟨e, he, hid, hc⟩
    | organization org =>
      obtain rfl : org = o := hc
      exact hx
  cases t with
  | organizations =>
    obtain rfl : c = .organization r.id := h
    exact hc
  | memberships =>
    obtain rfl : c = .organization r.organizationId := h
    exact hc
  | projects =>
    rcases h with rfl | rfl
    · obtain ⟨p, hp, hid, ho⟩ := hc
      obtain rfl : p = r := hdb.eq_of_id (t := .projects) hp hr hid
      exact ho
    · exact hc
  | apiTokens =>
    rcases h with rfl | ⟨org, rfl, hp⟩
    · exact hc
    · obtain rfl : org = o := hc
      exact hp
  | environments => exact (Container.environment_exists hdb hr).mp (henv _ h)
  | encryptionKeys => exact henv _ h
  | secrets => exact henv _ h
  | secretVersions =>
    obtain ⟨s, hs, hid, hx⟩ := h
    exact ⟨s, hs, hid, henv _ hx⟩
  | users => exact h.elim
  | refreshTokens => exact h.elim
  | auditLogs => exact h.elim

theorem StaysWithin.of_deletes {d : Deployment} {op : Op} {c : Container} {o : UUID}
    (hdb : vaultSchema.Valid db) (hown : KeysOwn db) (hc : c.BelongsTo db o)
    (hws : Deletes uow db c.table c.id ws) :
    StaysWithin d o op .unit db (vaultSchema.view ws db) where
  returned t r h := by cases h
  decrypted := fun _ _ _ _ _ h => by cases h
  stored t r hr hnot := absurd ((hws.container hdb hown).1 hr) hnot
  lost t r hr hnot :=
    Container.subtree_inOrganization hdb hc hr ((hws.container hdb hown).2 hr hnot)

end

section
variable {d : Deployment} {uow : UnitOfWork} {db : Db} {o u : UUID}

theorem RevealsOwn.of_not_value {op : Op} {reply : Reply} (h : ∀ x, reply ≠ .value x) :
    RevealsOwn d db o op reply :=
  fun _ _ _ plainValue _ hreply => absurd hreply (h plainValue)

/-- A call that only reads. -/
theorem StaysWithin.of_reads {op : Op} {reply : Reply} (hvalue : ∀ x, reply ≠ .value x)
    (h : ∀ t, ∀ r : RowOf t, ⟨t, r⟩ ∈ reply.rows → InOrganization db o t r) :
    StaysWithin d o op reply db (vaultSchema.view [] db) :=
  .of_writes h (.of_not_value hvalue) (by simp)

/-- The rows of a reply with one row. -/
theorem forall_rows_one {t₀ : Table} {r₀ : RowOf t₀} {P : (t : Table) → RowOf t → Prop}
    (h : P t₀ r₀) : ∀ t, ∀ r : RowOf t, (⟨t, r⟩ : Σ t, RowOf t) ∈ [(⟨t₀, r₀⟩ : Σ t, RowOf t)] →
      P t r := by
  intro t r hr
  cases List.mem_singleton.mp hr
  exact h

/-- The rows of a reply with a list of rows of one table. -/
theorem forall_rows_map {t₀ : Table} {rs : List (RowOf t₀)} {P : (t : Table) → RowOf t → Prop}
    (h : ∀ r ∈ rs, P t₀ r) : ∀ t, ∀ r : RowOf t,
      (⟨t, r⟩ : Σ t, RowOf t) ∈ rs.map (fun r => (⟨t₀, r⟩ : Σ t, RowOf t)) → P t r := by
  intro t r hr
  obtain ⟨r', hr', heq⟩ := List.mem_map.mp hr
  cases heq
  exact h r' hr'

/-- A row that is updated in place stays within the organization. -/
theorem StaysWithin.of_update {op : Op} {reply : Reply} {t₀ : Table} {old new : RowOf t₀}
    (hdb : vaultSchema.Valid db) (hvalue : ∀ x, reply ≠ .value x) (hold : old ∈ db t₀)
    (hid : rowId t₀ new = rowId t₀ old) (ho : InOrganization db o t₀ old)
    (hn : InOrganization (vaultSchema.view [.update t₀ new] db) o t₀ new)
    (hreturned : ∀ t, ∀ r : RowOf t, ⟨t, r⟩ ∈ reply.rows →
      InOrganization (vaultSchema.view [.update t₀ new] db) o t r) :
    StaysWithin d o op reply db (vaultSchema.view [.update t₀ new] db) := by
  refine .of_writes hreturned (.of_not_value hvalue) fun w hw => ?_
  obtain rfl := List.mem_singleton.mp hw
  refine ⟨hn, fun r hr hrid => ?_⟩
  obtain rfl : r = old := hdb.eq_of_id hr hold (hrid.trans hid)
  exact ho

/-- A call that returned was authorized, and stayed within the organization it named. -/
theorem Op.Did.authorized {op : Op} {reply : Reply} {ws : List RowWrite}
    {minimum : MembershipRole} (hdb : vaultSchema.Valid db) (hown : KeysOwn db)
    (hcurrent : ∀ s ∈ db .secrets, ∃ v, Current db s v) (h : op.Did d uow db reply ws)
    (hasks : op.asks = some (o, u, minimum)) :
    Authorized db o u minimum ∧ StaysWithin d o op reply db (vaultSchema.view ws db) := by
  cases h with
  | createOrganization => cases hasks
  | listOrganizations => cases hasks
  | getOrganization => cases hasks
  | updateOrganization _ _ name slug r ha hr hid =>
    cases hasks
    refine ⟨ha, ?_⟩
    split
    · rename_i hsame
      rw [hsame]
      exact .of_reads (by simp) (forall_rows_one hid)
    · exact .of_update hdb (by simp) hr rfl hid hid (forall_rows_one hid)
  | deleteOrganization _ _ ws ha hws =>
    cases hasks
    exact ⟨ha, .of_deletes (c := .organization _) hdb hown rfl hws⟩
  | listMemberships _ _ ms ha hms =>
    cases hasks
    exact ⟨ha, .of_reads (by simp) (forall_rows_map fun m hm => (hms m hm).2)⟩
  | invite _ email role _ actor m ha howner hadmin huser hm hadm =>
    cases hasks
    refine ⟨⟨actor, ha⟩, .of_writes (forall_rows_one hm.1) (.of_not_value (by simp)) fun w hw => ?_⟩
    obtain rfl := List.mem_singleton.mp hw
    exact hm.1
  | roleKept _ id newRole _ m ha hm hid ho hrole =>
    cases hasks
    exact ⟨ha, .of_reads (by simp) (forall_rows_one ho)⟩
  | roleChanged _ id newRole _ actor m ha hm hid ho howner hadmin =>
    cases hasks
    exact ⟨⟨actor, ha⟩, .of_update hdb (by simp) hm rfl ho ho (forall_rows_one ho)⟩
  | removeMembership _ id _ actor m ws ha hm hid ho howner hws =>
    cases hasks
    refine ⟨⟨actor, ha⟩, .of_writes (by simp [Reply.rows]) (.of_not_value (by simp)) fun w hw => ?_⟩
    rcases hws.membership with rfl | rfl
    · cases hw
    · obtain rfl := List.mem_singleton.mp hw
      intro r hr hrid
      obtain rfl : r = m := hdb.eq_of_id (t := .memberships) hr hm (hrid.trans hid.symm)
      exact ho
  | createProject _ name slug _ description p ha ho =>
    cases hasks
    refine ⟨ha, .of_writes (forall_rows_one ho) (.of_not_value (by simp)) fun w hw => ?_⟩
    obtain rfl := List.mem_singleton.mp hw
    exact ho
  | listProjects _ _ ps ha hps =>
    cases hasks
    exact ⟨ha, .of_reads (by simp) (forall_rows_map fun p hp => (hps p hp).2)⟩
  | getProject id _ _ p ha hp hid ho =>
    cases hasks
    exact ⟨ha, .of_reads (by simp) (forall_rows_one ho)⟩
  | updateProject id _ _ name slug description p ha hp hid ho =>
    cases hasks
    refine ⟨ha, ?_⟩
    split
    · rename_i hsame
      rw [hsame]
      exact .of_reads (by simp) (forall_rows_one ho)
    · exact .of_update hdb (by simp) hp rfl ho ho (forall_rows_one ho)
  | deleteProject id _ _ ws ha hp hws =>
    cases hasks
    exact ⟨ha, .of_deletes (c := .project id) hdb hown hp hws⟩
  | createEnvironment project _ name _ e k ha hp he hk =>
    cases hasks
    have hin : ProjectIn (vaultSchema.view [.insert .environments e, .insert .encryptionKeys k] db)
        _ e.projectId := he ▸ hp
    refine ⟨ha, .of_writes (forall_rows_one hin) (.of_not_value (by simp)) fun w hw => ?_⟩
    simp only [List.mem_cons, List.not_mem_nil, or_false] at hw
    rcases hw with rfl | rfl
    · exact hin
    · exact ⟨e, List.mem_append_right _ (List.mem_singleton.mpr rfl), hk.symm, hin⟩
  | listEnvironments project _ _ es ha hp hes =>
    cases hasks
    refine ⟨ha, .of_reads (by simp) (forall_rows_map fun e he => ?_)⟩
    exact (congrArg (ProjectIn db o) (hes e he).2).mpr hp
  | getEnvironment id _ _ e ha he hid ho =>
    cases hasks
    exact ⟨ha, .of_reads (by simp) (forall_rows_one ho)⟩
  | deleteEnvironment id _ _ ws ha he hws =>
    cases hasks
    exact ⟨ha, .of_deletes (c := .environment id) hdb hown he hws⟩
  | createSecret environment _ keyName plainValue _ s v ha he hs hnew hv =>
    cases hasks
    have hin : EnvironmentIn (vaultSchema.view [.insert .secrets s, .insert .secretVersions v,
        .update .secrets (s.pointingTo v.id)] db) _ s.environmentId := hs ▸ he
    have hview : vaultSchema.view [.insert .secrets s, .insert .secretVersions v,
        .update .secrets (s.pointingTo v.id)] db .secrets =
          vaultSchema.apply (.update .secrets (s.pointingTo v.id))
            (vaultSchema.apply (.insert .secrets s) db) .secrets := rfl
    have hmem : s.pointingTo v.id ∈ vaultSchema.view [.insert .secrets s,
        .insert .secretVersions v, .update .secrets (s.pointingTo v.id)] db .secrets := by
      rw [hview]
      exact Schema.mem_apply_update.mpr (Or.inl ⟨rfl, s,
        List.mem_append_right _ (List.mem_singleton.mpr rfl), rfl⟩)
    refine ⟨ha, .of_writes (forall_rows_one hin) (.of_not_value (by simp)) fun w hw => ?_⟩
    simp only [List.mem_cons, List.not_mem_nil, or_false] at hw
    rcases hw with rfl | rfl | rfl
    · exact hin
    · exact ⟨s.pointingTo v.id, hmem, hv.symm, hin⟩
    · exact ⟨hin, fun r hr hrid => absurd hrid (hnew r hr)⟩
  | addNewVersion secretId _ plainValue _ s v ha hs hv =>
    cases hasks
    have hin : EnvironmentIn (vaultSchema.view [.insert .secretVersions v,
        .update .secrets (s.pointingTo v.id)] db) _ s.environmentId := hs.environment
    have hview : vaultSchema.view [.insert .secretVersions v,
        .update .secrets (s.pointingTo v.id)] db .secrets =
          vaultSchema.apply (.update .secrets (s.pointingTo v.id)) db .secrets := rfl
    have hmem : s.pointingTo v.id ∈ vaultSchema.view [.insert .secretVersions v,
        .update .secrets (s.pointingTo v.id)] db .secrets := by
      rw [hview]
      exact Schema.mem_apply_update.mpr (Or.inl ⟨rfl, s, hs.mem, rfl⟩)
    have hversion : SecretIn (vaultSchema.view [.insert .secretVersions v,
        .update .secrets (s.pointingTo v.id)] db) _ v.secretId :=
      ⟨s.pointingTo v.id, hmem, hv.symm, hin⟩
    refine ⟨ha, .of_writes (forall_rows_one hversion) (.of_not_value (by simp)) fun w hw => ?_⟩
    simp only [List.mem_cons, List.not_mem_nil, or_false] at hw
    rcases hw with rfl | rfl
    · exact hversion
    · refine ⟨hin, fun r hr hrid => ?_⟩
      obtain rfl : r = s := hdb.eq_of_id (t := .secrets) hr hs.mem hrid
      exact hs.environment
  | listSecrets environment _ _ ss ha he hss =>
    cases hasks
    refine ⟨ha, .of_reads (by simp) (forall_rows_map fun s hs => ?_)⟩
    exact (congrArg (EnvironmentIn db o) (hss s hs).2).mpr he
  | getDecryptedValue secretId _ _ s v k a plainValue ha hs hv hpointer hk hid hplain hao =>
    cases hasks
    refine ⟨ha, .of_writes (by simp [Reply.rows]) ?_ fun w hw => ?_⟩
    · intro secretId' _ _ plainValue' hop hreply
      cases hop
      cases hreply
      obtain ⟨v', hv'⟩ := hcurrent s hs.mem
      obtain rfl : v' = v := hdb.eq_of_id (t := .secretVersions) hv'.mem hv
        (Option.some.inj (hv'.pointer.symm.trans hpointer))
      obtain ⟨k', hk', hkid, hkenv⟩ := hown v' hv s hs.mem hv'.secret.symm
      obtain rfl : k' = k := hdb.eq_of_id (t := .encryptionKeys) hk' hk (hkid.trans hid.symm)
      exact ⟨s, v', k', hs, hv, hpointer, hv'.secret, hk, hid,
        ⟨s, hs.mem, hv'.secret.symm, hs.environment⟩,
        (congrArg (EnvironmentIn db o) hkenv).mpr hs.environment, hplain⟩
    · obtain rfl := List.mem_singleton.mp hw
      exact hao
  | deleteSecret secretId _ _ s time ha hs =>
    cases hasks
    refine ⟨ha, ?_⟩
    split
    · exact .of_update hdb (by simp) hs.mem rfl hs.environment hs.environment (by simp [Reply.rows])
    · exact .of_reads (by simp) (by simp [Reply.rows])
  | listAuditLogs _ _ limit offset entries ha hentries =>
    cases hasks
    exact ⟨ha, .of_reads (by simp) (forall_rows_map fun a hent => (hentries a hent).2)⟩

end

/-- In every state that service calls reach, and whatever the database role and the
settings of the session, a call that returns had a member of the organization it names
with at least the role it asks for as its actor, and what it returned, decrypted,
created, changed and removed belongs to that organization; a call that raises has
committed nothing. -/
theorem services_authorize_without_rls {n : ℕ} (d : Deployment) (calls : Fin n → ServiceCall)
    (W : VaultWorld n) (ho : Opens W) (as : Schedule n) (s : VaultSys n)
    (hr : (waiting d calls W).run vaultEngine as = some s) (uow : UnitOfWork) (op : Op)
    (o u : UUID) (minimum : MembershipRole) (hasks : op.asks = some (o, u, minimum))
    (inputs : ℕ → Input) :
    (∀ reply, (alone inputs (op.program d uow) s.world.db).1 = .ok reply →
      Authorized s.world.db o u minimum ∧
        StaysWithin d o op reply s.world.db (alone inputs (op.program d uow) s.world.db).2.db) ∧
    ∀ e, (alone inputs (op.program d uow) s.world.db).1 = .error e →
      (alone inputs (op.program d uow) s.world.db).2.db = s.world.db := by
  have hi := ho.vaultInv hr
  constructor
  · intro reply hreply
    obtain ⟨ws, hdid, hview⟩ := Op.alone_did hi.valid (Op.asks_authenticates hasks) hreply
    rw [hview]
    exact hdid.authorized hi.valid hi.keysOwn
      (fun r hr => (hi.current r hr).imp fun v h => h.choose_spec.1) hasks
  · exact fun e he => Op.alone_unchanged hi.valid (Op.asks_authenticates hasks) he

/-- With row-level security off, the owner reveals the secret of its organization. -/
theorem services_authorize_without_rls_reveal : ∃ s, (waiting sampleDeployment acmeCalls
    ⟨acmeDb, [], samplePast 10⟩).run vaultEngine acmeSteps = some s ∧
      Authorized s.world.db 10 1 .member ∧
      RevealsOwn sampleDeployment s.world.db 10 (.getDecryptedValue 50 10 1) (.value "two") := by
  have hrun : ((waiting sampleDeployment acmeCalls ⟨acmeDb, [], samplePast 10⟩).run vaultEngine
      acmeSteps).map (fun s => (alone (fun k => sampleInput (55 + k))
        ((Op.getDecryptedValue 50 10 1).program sampleDeployment ⟨none, none, .superuser,
          .superuser⟩) s.world.db).1) = some (.ok (.value "two")) := by rfl
  obtain ⟨s, hs, hreply⟩ := Option.map_eq_some_iff.mp hrun
  have htheorem := (services_authorize_without_rls sampleDeployment acmeCalls _ opens_acme acmeSteps
    s hs ⟨none, none, .superuser, .superuser⟩ (.getDecryptedValue 50 10 1) 10 1 .member rfl _).1 _
    hreply
  exact ⟨s, hs, htheorem.1, htheorem.2.decrypted⟩

end EnvVault
