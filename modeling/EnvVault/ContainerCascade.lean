import EnvVault.TenantIsolation

/-!
# What the deletion of a container does

The DELETE of an environment, a project or an organization with its referential
actions. The check that no version uses a deleted key stands in the queue before
the cascade that would delete the version, so a container goes together with
everything below it when there is no version, and not at all otherwise.
-/
namespace EnvVault
open EnvVault.Relational

inductive Container : Type
  | environment (id : UUID)
  | project (id : UUID)
  | organization (id : UUID)

namespace Container

def table : Container → Table
  | .environment _ => .environments
  | .project _ => .projects
  | .organization _ => .organizations

def id : Container → UUID
  | .environment id => id
  | .project id => id
  | .organization id => id

/-- An environment with this id is, or is below, the container. -/
def HasEnvironment (c : Container) (db : Db) (x : UUID) : Prop :=
  match c with
  | .environment e => x = e
  | .project p => ∃ e ∈ db .environments, e.id = x ∧ e.projectId = p
  | .organization o => EnvironmentIn db o x

/-- The container itself and the rows below it. -/
def Subtree (c : Container) (db : Db) : (t : Table) → RowOf t → Prop
  | .organizations, r => c = .organization r.id
  | .memberships, r => c = .organization r.organizationId
  | .projects, r => c = .project r.id ∨ c = .organization r.organizationId
  | .apiTokens, r =>
    c = .project r.projectId ∨ ∃ o, c = .organization o ∧ ProjectIn db o r.projectId
  | .environments, r => c.HasEnvironment db r.id
  | .encryptionKeys, r => c.HasEnvironment db r.environmentId
  | .secrets, r => c.HasEnvironment db r.environmentId
  | .secretVersions, r => ∃ s ∈ db .secrets, s.id = r.secretId ∧ c.HasEnvironment db s.environmentId
  | .users, _ => False
  | .refreshTokens, _ => False
  | .auditLogs, _ => False

end Container

/-- Every version is encrypted under a key of the environment of its secret. -/
def KeysOwn (db : Db) : Prop :=
  ∀ v ∈ db .secretVersions, ∀ s ∈ db .secrets, s.id = v.secretId →
    ∃ k ∈ db .encryptionKeys, k.id = v.encryptionKeyId ∧ k.environmentId = s.environmentId

/-- Some version is encrypted under a key of this environment. -/
def EncryptsIn (db : Db) (x : UUID) : Prop :=
  ∃ v ∈ db .secretVersions, ∃ k ∈ db .encryptionKeys, k.id = v.encryptionKeyId ∧
    k.environmentId = x

/-- The stores hold the same keys, secrets and versions. -/
structure SameSecrets (db db' : Db) : Prop where
  keys : db .encryptionKeys = db' .encryptionKeys
  secrets : db .secrets = db' .secrets
  versions : db .secretVersions = db' .secretVersions

theorem SameSecrets.keysOwn {db db' : Db} (h : SameSecrets db db') (hown : KeysOwn db') :
    KeysOwn db := by
  rw [KeysOwn, h.keys, h.secrets, h.versions]
  exact hown

theorem SameSecrets.encryptsIn {db db' : Db} (h : SameSecrets db db') (x : UUID) :
    EncryptsIn db x ↔ EncryptsIn db' x := by
  rw [EncryptsIn, EncryptsIn, h.keys, h.versions]

def secretTables : List Table := [.encryptionKeys, .secrets, .secretVersions]

theorem sameSecrets_of_cascades {db : Db} {queue : List (Event RowOf UUID)}
    (h : ∀ ev ∈ queue, ev.fk.child ∉ secretTables) :
    SameSecrets (vaultSchema.view (queue.flatMap (vaultSchema.cascadeWrites db)) db) db where
  keys := Schema.view_cascades_untouched fun ev hev he => h ev hev (by simp [he, secretTables])
  secrets := Schema.view_cascades_untouched fun ev hev he => h ev hev (by simp [he, secretTables])
  versions := Schema.view_cascades_untouched fun ev hev he => h ev hev (by simp [he, secretTables])

def environmentKeys : ForeignKey RowOf UUID :=
  ⟨.encryptionKeys, .environments, fun r : EncryptionKey => some r.environmentId, .cascade, false⟩

def environmentSecrets : ForeignKey RowOf UUID :=
  ⟨.secrets, .environments, fun r : Secret => some r.environmentId, .cascade, false⟩

def keyVersions : ForeignKey RowOf UUID :=
  ⟨.secretVersions, .encryptionKeys, fun r : SecretVersion => some r.encryptionKeyId, .noAction,
    false⟩

def secretVersions : ForeignKey RowOf UUID :=
  ⟨.secretVersions, .secrets, fun r : SecretVersion => some r.secretId, .cascade, false⟩

def projectEnvironments : ForeignKey RowOf UUID :=
  ⟨.environments, .projects, fun r : Environment => some r.projectId, .cascade, false⟩

def projectTokens : ForeignKey RowOf UUID :=
  ⟨.apiTokens, .projects, fun r : ApiToken => some r.projectId, .cascade, false⟩

def organizationMemberships : ForeignKey RowOf UUID :=
  ⟨.memberships, .organizations, fun r : Membership => some r.organizationId, .cascade, false⟩

def organizationProjects : ForeignKey RowOf UUID :=
  ⟨.projects, .organizations, fun r : Project => some r.organizationId, .cascade, false⟩

def organizationAuditLogs : ForeignKey RowOf UUID :=
  ⟨.auditLogs, .organizations, AuditLog.organizationId,
    .setNull (fun r : AuditLog => { r with organizationId := none }), false⟩

theorem events_environments (x : UUID) : vaultSchema.events .environments x =
    [⟨environmentKeys, x⟩, ⟨environmentSecrets, x⟩] := rfl

theorem events_projects (x : UUID) : vaultSchema.events .projects x =
    [⟨projectEnvironments, x⟩, ⟨projectTokens, x⟩] := rfl

theorem events_memberships (x : UUID) : vaultSchema.events .memberships x = [] := rfl

/-- The first level under an organization, but for the audit log. -/
def organizationCascades (x : UUID) : List (Event RowOf UUID) :=
  [⟨organizationMemberships, x⟩, ⟨organizationProjects, x⟩]

theorem events_organizations (x : UUID) : vaultSchema.events .organizations x =
    organizationCascades x ++ [⟨organizationAuditLogs, x⟩] := rfl

section
variable {db : Db} {xs : List UUID}

/-- The checks and cascades that the deletion of one environment leaves for the
next level. -/
def environmentChecks (db : Db) (x : UUID) : List (Event RowOf UUID) :=
  vaultSchema.cascadeEvents db ⟨environmentKeys, x⟩ ++
    vaultSchema.cascadeEvents db ⟨environmentSecrets, x⟩

theorem cascadeEvents_environments (db : Db) (xs : List UUID) :
    (xs.flatMap (vaultSchema.events .environments)).flatMap (vaultSchema.cascadeEvents db) =
      xs.flatMap (environmentChecks db) := by
  rw [List.flatMap_assoc]
  refine List.flatMap_congr fun x _ => ?_
  simp [events_environments, environmentChecks]

theorem mem_keyChecks {x : UUID} {ev : Event RowOf UUID} :
    ev ∈ vaultSchema.cascadeEvents db ⟨environmentKeys, x⟩ ↔
      ∃ k ∈ db .encryptionKeys, k.environmentId = x ∧ ev = ⟨keyVersions, k.id⟩ := by
  simp only [Schema.cascadeEvents, List.mem_flatMap, Event.mem_children]
  constructor
  · rintro ⟨k, ⟨hk, hx⟩, hev⟩
    exact ⟨k, hk, Option.some.inj hx, List.mem_singleton.mp hev⟩
  · rintro ⟨k, hk, rfl, rfl⟩
    exact ⟨k, ⟨hk, rfl⟩, List.mem_singleton.mpr rfl⟩

theorem mem_secretCascades {x : UUID} {ev : Event RowOf UUID} :
    ev ∈ vaultSchema.cascadeEvents db ⟨environmentSecrets, x⟩ ↔
      ∃ s ∈ db .secrets, s.environmentId = x ∧ ev = ⟨secretVersions, s.id⟩ := by
  simp only [Schema.cascadeEvents, List.mem_flatMap, Event.mem_children]
  constructor
  · rintro ⟨s, ⟨hs, hx⟩, hev⟩
    exact ⟨s, hs, Option.some.inj hx, List.mem_singleton.mp hev⟩
  · rintro ⟨s, hs, rfl, rfl⟩
    exact ⟨s, ⟨hs, rfl⟩, List.mem_singleton.mpr rfl⟩

/-- Where nothing is encrypted, no event of the second level finds a child. -/
theorem environmentChecks_idle (hown : KeysOwn db) {x : UUID} (hx : ¬ EncryptsIn db x) {db' : Db}
    (hv : db' .secretVersions = db .secretVersions) :
    ∀ ev ∈ environmentChecks db x, ev.children db' = [] := by
  intro ev hev
  rcases List.mem_append.mp hev with hev | hev
  · obtain ⟨k, hk, rfl, rfl⟩ := mem_keyChecks.mp hev
    refine List.eq_nil_iff_forall_not_mem.mpr fun v hvm => hx ?_
    obtain ⟨hvm, hvk⟩ := Event.mem_children.mp hvm
    exact ⟨v, hv ▸ hvm, k, hk, (Option.some.inj hvk).symm, rfl⟩
  · obtain ⟨s, hs, rfl, rfl⟩ := mem_secretCascades.mp hev
    refine List.eq_nil_iff_forall_not_mem.mpr fun v hvm => hx ?_
    obtain ⟨hvm, hvs⟩ := Event.mem_children.mp hvm
    obtain ⟨k, hk, hkv, hks⟩ := hown v (hv ▸ hvm) s hs (Option.some.inj hvs).symm
    exact ⟨v, hv ▸ hvm, k, hk, hkv, hks⟩

/-- The first environment in which something is encrypted makes its check fail: the
environments before it have nothing to cascade to. -/
theorem sweep_environmentChecks (hown : KeysOwn db) {db' : Db}
    (hv : db' .secretVersions = db .secretVersions) (h : ∃ x ∈ xs, EncryptsIn db x) :
    vaultSchema.sweep db' (xs.flatMap (environmentChecks db)) =
      .error (.violated .secretVersions) := by
  induction xs with
  | nil => obtain ⟨x, hx, -⟩ := h; cases hx
  | cons x xs ih =>
    rw [List.flatMap_cons]
    by_cases hx : EncryptsIn db x
    · rw [environmentChecks, List.append_assoc]
      refine Schema.sweep_violated (fun ev hev => ?_) ?_
      · obtain ⟨k, -, -, rfl⟩ := mem_keyChecks.mp hev
        exact ⟨rfl, rfl⟩
      · obtain ⟨v, hvm, k, hk, hkv, hkx⟩ := hx
        refine ⟨⟨keyVersions, k.id⟩, mem_keyChecks.mpr ⟨k, hk, hkx, rfl⟩, ?_⟩
        exact List.ne_nil_of_mem (Event.mem_children.mpr ⟨hv ▸ hvm, congrArg some hkv.symm⟩)
    · obtain ⟨y, hy, hey⟩ := h
      rw [Schema.sweep_append, Schema.sweep_idle (environmentChecks_idle hown hx hv)]
      dsimp only
      rw [Schema.view_nil, ih]
      rcases List.mem_cons.mp hy with rfl | hy
      · exact absurd hey hx
      · exact ⟨y, hy, hey⟩

theorem sweep_environments (hn : ∀ t, ((db t).map (rowId t)).Nodup) (hxs : xs.Nodup) :
    vaultSchema.sweep db (xs.flatMap (vaultSchema.events .environments)) =
      .ok ((xs.flatMap (vaultSchema.events .environments)).flatMap (vaultSchema.cascadeWrites db),
        xs.flatMap (environmentChecks db)) := by
  rw [← cascadeEvents_environments]
  refine Schema.sweep_cascades hn (fun ev hev => ?_) (Schema.pairwise_events hxs ?_)
  · obtain ⟨x, -, hev⟩ := List.mem_flatMap.mp hev
    simp only [events_environments, List.mem_cons, List.not_mem_nil, or_false] at hev
    rcases hev with rfl | rfl <;> exact ⟨rfl, rfl⟩
  · exact List.pairwise_pair.mpr (by decide : (Table.encryptionKeys ≠ Table.secrets))

theorem mem_events_environments {ev : Event RowOf UUID}
    (h : ev ∈ xs.flatMap (vaultSchema.events .environments)) : ev.fk ∈ vaultSchema.foreignKeys := by
  obtain ⟨x, -, h⟩ := List.mem_flatMap.mp h
  exact (Schema.mem_events.mp h).1

/-- What the deletion of environments takes along. -/
def BelowEnvironments (xs : List UUID) : (t : Table) → RowOf t → Prop
  | .encryptionKeys, r => r.environmentId ∈ xs
  | .secrets, r => r.environmentId ∈ xs
  | _, _ => False

theorem removes_environments (db : Db) (xs : List UUID) : vaultSchema.Removes db
    ((xs.flatMap (vaultSchema.events .environments)).flatMap (vaultSchema.cascadeWrites db))
    (BelowEnvironments xs) := by
  refine (Schema.Removes.cascades _).congr fun t r _ => ?_
  simp only [List.mem_flatMap, events_environments, List.mem_cons, List.not_mem_nil, or_false]
  cases t <;> simp [BelowEnvironments, environmentKeys, environmentSecrets, ForeignKey.ref,
    and_or_left, exists_or, or_and_right]

theorem versions_environments (db : Db) (xs : List UUID) : vaultSchema.view
    ((xs.flatMap (vaultSchema.events .environments)).flatMap (vaultSchema.cascadeWrites db)) db
      .secretVersions = db .secretVersions := by
  refine Schema.view_cascades_untouched fun ev hev => ?_
  obtain ⟨x, -, hev⟩ := List.mem_flatMap.mp hev
  simp only [events_environments, List.mem_cons, List.not_mem_nil, or_false] at hev
  rcases hev with rfl | rfl
  exacts [(by decide : Table.encryptionKeys ≠ .secretVersions),
    (by decide : Table.secrets ≠ .secretVersions)]

theorem mem_environmentChecks (hn : ∀ t, ((db t).map (rowId t)).Nodup) (hxs : xs.Nodup) :
    ∀ ev ∈ xs.flatMap (environmentChecks db), ev.fk ∈ vaultSchema.foreignKeys :=
  Schema.sweep_mem (sweep_environments hn hxs)

/-- Environments in which nothing is encrypted go with their keys and secrets. -/
theorem drains_environments (hn : ∀ t, ((db t).map (rowId t)).Nodup) (hxs : xs.Nodup)
    (hown : KeysOwn db) (h : ∀ x ∈ xs, ¬ EncryptsIn db x) :
    ∃ ws, vaultSchema.drains db (xs.flatMap (vaultSchema.events .environments)) = .ok ws ∧
      vaultSchema.Removes db ws (BelowEnvironments xs) := by
  refine ⟨_, ?_, removes_environments db xs⟩
  rw [Schema.drains_level fun ev => mem_events_environments, sweep_environments hn hxs]
  dsimp only
  rw [Schema.drains_level (mem_environmentChecks hn hxs), Schema.sweep_idle fun ev hev => ?_]
  · dsimp only
    rw [Schema.view_nil, Schema.drains_nil]
    simp [Except.map]
  · obtain ⟨x, hx, hev⟩ := List.mem_flatMap.mp hev
    exact environmentChecks_idle hown (h x hx) (versions_environments db xs) ev hev

/-- An environment in which something is encrypted does not go. -/
theorem drains_environments_error (hn : ∀ t, ((db t).map (rowId t)).Nodup) (hxs : xs.Nodup)
    (hown : KeysOwn db) (h : ∃ x ∈ xs, EncryptsIn db x) :
    vaultSchema.drains db (xs.flatMap (vaultSchema.events .environments)) =
      .error (.violated .secretVersions) := by
  rw [Schema.drains_level fun ev => mem_events_environments, sweep_environments hn hxs]
  dsimp only
  rw [Schema.drains_level (mem_environmentChecks hn hxs),
    sweep_environmentChecks hown (versions_environments db xs) h]
  rfl

end

section
variable {db : Db} {ps : List UUID}

def environmentsIn (db : Db) (p : UUID) : List Environment :=
  Event.children ⟨projectEnvironments, p⟩ db

theorem mem_environmentsIn {p : UUID} {e : Environment} :
    e ∈ environmentsIn db p ↔ e ∈ db .environments ∧ e.projectId = p :=
  Event.mem_children.trans (and_congr_right fun _ => Option.some_inj)

/-- The environments of these projects. -/
def environmentsOf (db : Db) (ps : List UUID) : List UUID :=
  (ps.flatMap (environmentsIn db)).map Environment.id

theorem mem_environmentsOf {x : UUID} : x ∈ environmentsOf db ps ↔
    ∃ e ∈ db .environments, e.id = x ∧ e.projectId ∈ ps := by
  simp only [environmentsOf, List.mem_map, List.mem_flatMap, mem_environmentsIn]
  constructor
  · rintro ⟨e, ⟨p, hp, he, rfl⟩, rfl⟩
    exact ⟨e, he, rfl, hp⟩
  · rintro ⟨e, he, rfl, hp⟩
    exact ⟨e, ⟨e.projectId, hp, he, rfl⟩, rfl⟩

theorem environmentsOf_congr {db' : Db} (h : db .environments = db' .environments)
    (ps : List UUID) : environmentsOf db ps = environmentsOf db' ps :=
  congrArg _ (List.flatMap_congr fun _ _ => congrArg (List.filter _) h)

theorem nodup_environmentsOf (hn : ∀ t, ((db t).map (rowId t)).Nodup) (hps : ps.Nodup) :
    (environmentsOf db ps).Nodup := by
  have hrows : (db .environments).Nodup := (hn .environments).of_map
  refine List.Nodup.map_on (fun a ha b hb hab => ?_) (List.nodup_flatMap.mpr ⟨fun p _ => ?_, ?_⟩)
  · obtain ⟨p, -, ha⟩ := List.mem_flatMap.mp ha
    obtain ⟨q, -, hb⟩ := List.mem_flatMap.mp hb
    exact List.inj_on_of_nodup_map (hn .environments) (mem_environmentsIn.mp ha).1
      (mem_environmentsIn.mp hb).1 hab
  · exact hrows.filter _
  · refine hps.imp fun {p q} hpq e hep heq => hpq ?_
    exact (mem_environmentsIn.mp hep).2.symm.trans (mem_environmentsIn.mp heq).2

theorem cascadeEvents_projects :
    (ps.flatMap (vaultSchema.events .projects)).flatMap (vaultSchema.cascadeEvents db) =
      (environmentsOf db ps).flatMap (vaultSchema.events .environments) := by
  rw [environmentsOf, List.flatMap_map, List.flatMap_assoc, List.flatMap_assoc]
  refine List.flatMap_congr fun p _ => ?_
  have htokens : vaultSchema.cascadeEvents db ⟨projectTokens, p⟩ = [] := by
    simp only [Schema.cascadeEvents, List.flatMap_eq_nil_iff]
    exact fun r _ => rfl
  simp only [events_projects, List.flatMap_cons, List.flatMap_nil, List.append_nil, htokens]
  rfl

theorem mem_events_projects {ev : Event RowOf UUID}
    (h : ev ∈ ps.flatMap (vaultSchema.events .projects)) : ev.fk ∈ vaultSchema.foreignKeys := by
  obtain ⟨x, -, h⟩ := List.mem_flatMap.mp h
  exact (Schema.mem_events.mp h).1

theorem sweep_projects (hn : ∀ t, ((db t).map (rowId t)).Nodup) (hps : ps.Nodup) :
    vaultSchema.sweep db (ps.flatMap (vaultSchema.events .projects)) =
      .ok ((ps.flatMap (vaultSchema.events .projects)).flatMap (vaultSchema.cascadeWrites db),
        (environmentsOf db ps).flatMap (vaultSchema.events .environments)) := by
  rw [← cascadeEvents_projects]
  refine Schema.sweep_cascades hn (fun ev hev => ?_) (Schema.pairwise_events hps ?_)
  · obtain ⟨x, -, hev⟩ := List.mem_flatMap.mp hev
    simp only [events_projects, List.mem_cons, List.not_mem_nil, or_false] at hev
    rcases hev with rfl | rfl <;> exact ⟨rfl, rfl⟩
  · exact List.pairwise_pair.mpr (by decide : (Table.environments ≠ Table.apiTokens))

/-- What the deletion of projects takes along. -/
def BelowProjects (db : Db) (ps : List UUID) : (t : Table) → RowOf t → Prop
  | .environments, r => r.projectId ∈ ps
  | .apiTokens, r => r.projectId ∈ ps
  | t, r => BelowEnvironments (environmentsOf db ps) t r

theorem removes_projects (db : Db) (ps : List UUID) : vaultSchema.Removes db
    ((ps.flatMap (vaultSchema.events .projects)).flatMap (vaultSchema.cascadeWrites db))
    (fun t r => (t = .environments ∨ t = .apiTokens) ∧ BelowProjects db ps t r) := by
  refine (Schema.Removes.cascades _).congr fun t r _ => ?_
  simp only [List.mem_flatMap, events_projects, List.mem_cons, List.not_mem_nil, or_false]
  cases t <;> simp [BelowProjects, projectEnvironments, projectTokens, ForeignKey.ref,
    and_or_left, exists_or, or_and_right]

theorem sameSecrets_projects (db : Db) (ps : List UUID) : SameSecrets (vaultSchema.view
    ((ps.flatMap (vaultSchema.events .projects)).flatMap (vaultSchema.cascadeWrites db)) db)
      db := by
  refine sameSecrets_of_cascades fun ev hev => ?_
  obtain ⟨x, -, hev⟩ := List.mem_flatMap.mp hev
  simp only [events_projects, List.mem_cons, List.not_mem_nil, or_false] at hev
  rcases hev with rfl | rfl
  exacts [(by decide : Table.environments ∉ secretTables),
    (by decide : Table.apiTokens ∉ secretTables)]

theorem drains_projects (hn : ∀ t, ((db t).map (rowId t)).Nodup) (hps : ps.Nodup)
    (hown : KeysOwn db) (h : ∀ x ∈ environmentsOf db ps, ¬ EncryptsIn db x) :
    ∃ ws, vaultSchema.drains db (ps.flatMap (vaultSchema.events .projects)) = .ok ws ∧
      vaultSchema.Removes db ws (BelowProjects db ps) := by
  have hsame := sameSecrets_projects db ps
  have hrem := removes_projects db ps
  obtain ⟨ws, hws, hremws⟩ := drains_environments (hrem.nodup hn) (nodup_environmentsOf hn hps)
    (hsame.keysOwn hown) (fun x hx => (not_congr (hsame.encryptsIn x)).mpr (h x hx))
  refine ⟨_, ?_, (hrem.append hremws).congr fun t r _ => ?_⟩
  · rw [Schema.drains_level fun ev => mem_events_projects, sweep_projects hn hps]
    dsimp only
    rw [hws]
    rfl
  · cases t <;> simp [BelowProjects, BelowEnvironments]

theorem drains_projects_error (hn : ∀ t, ((db t).map (rowId t)).Nodup) (hps : ps.Nodup)
    (hown : KeysOwn db) (h : ∃ x ∈ environmentsOf db ps, EncryptsIn db x) :
    vaultSchema.drains db (ps.flatMap (vaultSchema.events .projects)) =
      .error (.violated .secretVersions) := by
  have hsame := sameSecrets_projects db ps
  rw [Schema.drains_level fun ev => mem_events_projects, sweep_projects hn hps]
  dsimp only
  rw [drains_environments_error ((removes_projects db ps).nodup hn) (nodup_environmentsOf hn hps)
    (hsame.keysOwn hown) (h.imp fun x hx => ⟨hx.1, (hsame.encryptsIn x).mpr hx.2⟩)]
  rfl

end

section
variable {db : Db} {o : UUID}

def projectsIn (db : Db) (o : UUID) : List Project :=
  Event.children ⟨organizationProjects, o⟩ db

theorem mem_projectsIn {p : Project} :
    p ∈ projectsIn db o ↔ p ∈ db .projects ∧ p.organizationId = o :=
  Event.mem_children.trans (and_congr_right fun _ => Option.some_inj)

/-- The projects of an organization. -/
def projectsOf (db : Db) (o : UUID) : List UUID := (projectsIn db o).map Project.id

theorem mem_projectsOf {x : UUID} : x ∈ projectsOf db o ↔ ProjectIn db o x := by
  simp only [projectsOf, List.mem_map, mem_projectsIn, ProjectIn]
  constructor
  · rintro ⟨p, ⟨hp, ho⟩, hx⟩
    exact ⟨p, hp, hx, ho⟩
  · rintro ⟨p, hp, hx, ho⟩
    exact ⟨p, ⟨hp, ho⟩, hx⟩

theorem projectsOf_congr {db' : Db} (h : db .projects = db' .projects) (o : UUID) :
    projectsOf db o = projectsOf db' o :=
  congrArg _ (congrArg (List.filter _) h)

theorem nodup_projectsOf (hn : ∀ t, ((db t).map (rowId t)).Nodup) : (projectsOf db o).Nodup :=
  (List.filter_sublist.map _).nodup (hn .projects)

theorem cascadeEvents_organization :
    (organizationCascades o).flatMap (vaultSchema.cascadeEvents db) =
      (projectsOf db o).flatMap (vaultSchema.events .projects) := by
  have hmemberships : vaultSchema.cascadeEvents db ⟨organizationMemberships, o⟩ = [] := by
    simp only [Schema.cascadeEvents, List.flatMap_eq_nil_iff]
    exact fun r _ => rfl
  rw [projectsOf, List.flatMap_map]
  simp only [organizationCascades, List.flatMap_cons, List.flatMap_nil, List.append_nil,
    hmemberships, List.nil_append]
  rfl

theorem sweep_organizationCascades (hn : ∀ t, ((db t).map (rowId t)).Nodup) :
    vaultSchema.sweep db (organizationCascades o) =
      .ok ((organizationCascades o).flatMap (vaultSchema.cascadeWrites db),
        (projectsOf db o).flatMap (vaultSchema.events .projects)) := by
  rw [← cascadeEvents_organization]
  refine Schema.sweep_cascades hn (fun ev hev => ?_) ?_
  · simp only [organizationCascades, List.mem_cons, List.not_mem_nil, or_false] at hev
    rcases hev with rfl | rfl <;> exact ⟨rfl, rfl⟩
  · exact List.pairwise_pair.mpr (Or.inl (by decide : (Table.memberships ≠ Table.projects)))

theorem untouched_organization (db : Db) (o : UUID) {t : Table} (hm : t ≠ .memberships)
    (hp : t ≠ .projects) : vaultSchema.view
      ((organizationCascades o).flatMap (vaultSchema.cascadeWrites db)) db t = db t := by
  refine Schema.view_cascades_untouched fun ev hev => ?_
  simp only [organizationCascades, List.mem_cons, List.not_mem_nil, or_false] at hev
  rcases hev with rfl | rfl
  exacts [Ne.symm hm, Ne.symm hp]

theorem auditLogs_organization (db : Db) (o : UUID) : vaultSchema.view
    ((organizationCascades o).flatMap (vaultSchema.cascadeWrites db)) db .auditLogs =
      db .auditLogs := untouched_organization db o (by decide) (by decide)

theorem sameSecrets_organization (db : Db) (o : UUID) : SameSecrets (vaultSchema.view
    ((organizationCascades o).flatMap (vaultSchema.cascadeWrites db)) db) db :=
  ⟨untouched_organization db o (by decide) (by decide),
    untouched_organization db o (by decide) (by decide),
    untouched_organization db o (by decide) (by decide)⟩

theorem removes_organization (db : Db) (o : UUID) : vaultSchema.Removes db
    ((organizationCascades o).flatMap (vaultSchema.cascadeWrites db)) (fun t r => match t with
      | .memberships => Membership.organizationId r = o
      | .projects => Project.organizationId r = o
      | _ => False) := by
  refine (Schema.Removes.cascades _).congr fun t r _ => ?_
  simp only [organizationCascades, List.mem_cons, List.not_mem_nil, or_false]
  cases t <;> simp [organizationMemberships, organizationProjects, ForeignKey.ref, or_and_right,
    exists_or]

/-- An audit row of the organization would have to be updated, which its trigger
rejects. -/
theorem drains_organization_rejected (hn : ∀ t, ((db t).map (rowId t)).Nodup)
    (h : ∃ a ∈ db .auditLogs, a.organizationId = some o) :
    vaultSchema.drains db (vaultSchema.events .organizations o) =
      .error (.rejected .auditLogs) := by
  have hchildren : Event.children ⟨organizationAuditLogs, o⟩ (vaultSchema.view
      ((organizationCascades o).flatMap (vaultSchema.cascadeWrites db)) db) ≠ [] := by
    obtain ⟨a, ha, hao⟩ := h
    refine List.ne_nil_of_mem (Event.mem_children.mpr ⟨?_, hao⟩)
    exact (auditLogs_organization db o).symm ▸ ha
  have hfire : vaultSchema.fire ⟨organizationAuditLogs, o⟩ (vaultSchema.view
      ((organizationCascades o).flatMap (vaultSchema.cascadeWrites db)) db) =
        .error (.rejected .auditLogs) := by
    simp only [Schema.fire, if_neg hchildren]
    rfl
  rw [Schema.drains_level fun ev hev => (Schema.mem_events.mp hev).1, events_organizations,
    Schema.sweep_append, sweep_organizationCascades hn]
  dsimp only
  rw [Schema.sweep_cons_error hfire]

theorem sweep_organization (hn : ∀ t, ((db t).map (rowId t)).Nodup)
    (h : ∀ a ∈ db .auditLogs, a.organizationId ≠ some o) :
    vaultSchema.sweep db (vaultSchema.events .organizations o) =
      .ok ((organizationCascades o).flatMap (vaultSchema.cascadeWrites db),
        (projectsOf db o).flatMap (vaultSchema.events .projects)) := by
  have hidle : ∀ ev ∈ [(⟨organizationAuditLogs, o⟩ : Event RowOf UUID)], ev.children
      (vaultSchema.view ((organizationCascades o).flatMap (vaultSchema.cascadeWrites db)) db) =
        [] := by
    intro ev hev
    obtain rfl := List.mem_singleton.mp hev
    refine List.eq_nil_iff_forall_not_mem.mpr fun a ha => ?_
    obtain ⟨ha, hao⟩ := Event.mem_children.mp ha
    exact h a (auditLogs_organization db o ▸ ha) hao
  rw [events_organizations, Schema.sweep_append, sweep_organizationCascades hn]
  dsimp only
  rw [Schema.sweep_idle hidle]
  simp

/-- What the deletion of an organization takes along. -/
def BelowOrganization (db : Db) (o : UUID) : (t : Table) → RowOf t → Prop
  | .memberships, r => r.organizationId = o
  | .projects, r => r.organizationId = o
  | t, r => BelowProjects db (projectsOf db o) t r

theorem drains_organization (hn : ∀ t, ((db t).map (rowId t)).Nodup) (hown : KeysOwn db)
    (ha : ∀ a ∈ db .auditLogs, a.organizationId ≠ some o)
    (h : ∀ x ∈ environmentsOf db (projectsOf db o), ¬ EncryptsIn db x) :
    ∃ ws, vaultSchema.drains db (vaultSchema.events .organizations o) = .ok ws ∧
      vaultSchema.Removes db ws (BelowOrganization db o) := by
  have hsame := sameSecrets_organization db o
  have hrem := removes_organization db o
  have henv : environmentsOf (vaultSchema.view ((organizationCascades o).flatMap
      (vaultSchema.cascadeWrites db)) db) (projectsOf db o) = environmentsOf db (projectsOf db o) :=
    environmentsOf_congr (untouched_organization db o (by decide) (by decide)) _
  obtain ⟨ws, hws, hremws⟩ := drains_projects (hrem.nodup hn) (nodup_projectsOf hn)
    (hsame.keysOwn hown) (fun x hx => (not_congr (hsame.encryptsIn x)).mpr (h x (henv ▸ hx)))
  refine ⟨_, ?_, (hrem.append hremws).congr fun t r _ => ?_⟩
  · rw [Schema.drains_level fun ev hev => (Schema.mem_events.mp hev).1, sweep_organization hn ha]
    dsimp only
    rw [hws]
    rfl
  · cases t <;> simp [BelowOrganization, BelowProjects, BelowEnvironments, henv]

theorem drains_organization_error (hn : ∀ t, ((db t).map (rowId t)).Nodup) (hown : KeysOwn db)
    (ha : ∀ a ∈ db .auditLogs, a.organizationId ≠ some o)
    (h : ∃ x ∈ environmentsOf db (projectsOf db o), EncryptsIn db x) :
    vaultSchema.drains db (vaultSchema.events .organizations o) =
      .error (.violated .secretVersions) := by
  have hsame := sameSecrets_organization db o
  rw [Schema.drains_level fun ev hev => (Schema.mem_events.mp hev).1, sweep_organization hn ha]
  dsimp only
  rw [drains_projects_error ((removes_organization db o).nodup hn) (nodup_projectsOf hn)
    (hsame.keysOwn hown)]
  · rfl
  · obtain ⟨x, hx, hen⟩ := h
    refine ⟨x, ?_, (hsame.encryptsIn x).mpr hen⟩
    rwa [environmentsOf_congr (untouched_organization db o (by decide) (by decide))]

end

namespace Container
variable {c : Container} {db : Db}

/-- The container is there. -/
def Exists (c : Container) (db : Db) : Prop := ∃ r ∈ db c.table, rowId c.table r = c.id

/-- Some version below the container. -/
def HasVersion (c : Container) (db : Db) : Prop :=
  ∃ v ∈ db .secretVersions, c.Subtree db .secretVersions v

/-- Some audit row of the organization. -/
def HasAudit (c : Container) (db : Db) : Prop :=
  ∃ a ∈ db .auditLogs, ∃ o, c = .organization o ∧ a.organizationId = some o

/-- A version is below the container exactly when it is encrypted in one of its
environments. -/
theorem hasVersion_iff (hv : vaultSchema.Valid db) (hown : KeysOwn db) :
    c.HasVersion db ↔ ∃ x, c.HasEnvironment db x ∧ EncryptsIn db x := by
  constructor
  · rintro ⟨v, hvm, s, hs, hsv, henv⟩
    obtain ⟨k, hk, hkv, hks⟩ := hown v hvm s hs hsv
    exact ⟨s.environmentId, henv, v, hvm, k, hk, hkv, hks⟩
  · rintro ⟨x, henv, v, hvm, k, hk, hkv, rfl⟩
    obtain ⟨s, hs, hsv⟩ := parent_exists hv hvm
      (by simp [referencesOf] : (.secrets, some v.secretId) ∈ referencesOf _ v)
    obtain ⟨k', hk', hkv', hks⟩ := hown v hvm s hs hsv
    obtain rfl : k' = k := hv.eq_of_id hk' hk (hkv'.trans hkv.symm)
    exact ⟨v, hvm, s, hs, hsv, hks ▸ henv⟩

theorem apply_delete_other {t t' : Table} (h : t ≠ t') (x : UUID) (db : Db) :
    vaultSchema.apply (.delete t x) db t' = db t' :=
  vaultSchema.apply_other (w := .delete t x) h db

theorem sameSecrets_delete {t : Table} (ht : t ∉ secretTables) (x : UUID) (db : Db) :
    SameSecrets (vaultSchema.apply (.delete t x) db) db := by
  simp only [secretTables, List.mem_cons, List.not_mem_nil, or_false, not_or] at ht
  exact ⟨apply_delete_other ht.1 x db, apply_delete_other ht.2.1 x db,
    apply_delete_other ht.2.2 x db⟩

theorem nodup_delete (hv : vaultSchema.Valid db) (t : Table) (x : UUID) (t' : Table) :
    ((vaultSchema.apply (.delete t x) db t').map (rowId t')).Nodup :=
  Schema.nodup_apply hv.keys (Schema.newKeys_of_inserted rfl db) t'

theorem removes_delete (hx : c.Exists db) : vaultSchema.Removes db [.delete c.table c.id]
    (fun t r => ∃ h : t = c.table, rowId c.table (h ▸ r) = c.id) :=
  Schema.Removes.delete hx

/-- The environments that exist, with a property of their project. -/
theorem environment_exists (hv : vaultSchema.Valid db) {r : Environment}
    (hr : r ∈ db .environments) {p : UUID → Prop} :
    (∃ e ∈ db .environments, e.id = r.id ∧ p e.projectId) ↔ p r.projectId := by
  constructor
  · rintro ⟨e, he, hid, hp⟩
    rwa [← hv.eq_of_id he hr hid]
  · exact fun hp => ⟨r, hr, rfl, hp⟩

theorem mem_environmentsOf_projectsOf {o x : UUID} :
    x ∈ environmentsOf db (projectsOf db o) ↔ EnvironmentIn db o x := by
  simp only [mem_environmentsOf, mem_projectsOf, EnvironmentIn]

section
variable (hv : vaultSchema.Valid db) (hown : KeysOwn db)
include hv hown

theorem deleteRow_environment {e : UUID} (hx : (environment e).Exists db)
    (hno : ¬ (environment e).HasVersion db) :
    ∃ ws, vaultSchema.deleteRow .environments e db = .ok ws ∧
      vaultSchema.Removes db ws ((environment e).Subtree db) := by
  have hsame := sameSecrets_delete (t := .environments) (by decide) e db
  obtain ⟨ws, hws, hremws⟩ := drains_environments (nodup_delete hv .environments e)
    (List.nodup_singleton e) (hsame.keysOwn hown) (fun x hx hen => hno ((hasVersion_iff hv
      hown).mpr ⟨x, List.mem_singleton.mp hx, (hsame.encryptsIn x).mp hen⟩))
  rw [List.flatMap_singleton] at hws
  refine ⟨_, ?_, ((removes_delete hx).append hremws).congr fun t r hr => ?_⟩
  · rw [Schema.deleteRow_eq (S := vaultSchema) (t := .environments) (x := e) hx rfl,
      hws]
    rfl
  · cases t
    case secretVersions =>
      simpa [table, BelowEnvironments] using fun h => hno ⟨r, hr, h⟩
    all_goals simp [table, id, Subtree, HasEnvironment, BelowEnvironments, rowId]

theorem deleteRow_project {p : UUID} (hx : (project p).Exists db)
    (hno : ¬ (project p).HasVersion db) :
    ∃ ws, vaultSchema.deleteRow .projects p db = .ok ws ∧
      vaultSchema.Removes db ws ((project p).Subtree db) := by
  have hsame := sameSecrets_delete (t := .projects) (by decide) p db
  have henv : environmentsOf (vaultSchema.apply (.delete .projects p) db) [p] =
      environmentsOf db [p] :=
    environmentsOf_congr (apply_delete_other (by decide) p db) _
  obtain ⟨ws, hws, hremws⟩ := drains_projects (nodup_delete hv .projects p)
    (List.nodup_singleton p) (hsame.keysOwn hown) (fun x hx hen => by
      rw [henv, mem_environmentsOf] at hx
      refine hno ((hasVersion_iff hv hown).mpr ⟨x, ?_, (hsame.encryptsIn x).mp hen⟩)
      simpa [HasEnvironment] using hx)
  rw [List.flatMap_singleton] at hws
  refine ⟨_, ?_, ((removes_delete hx).append hremws).congr fun t r hr => ?_⟩
  · rw [Schema.deleteRow_eq (S := vaultSchema) (t := .projects) (x := p) hx rfl, hws]
    rfl
  · cases t
    case secretVersions =>
      simpa [table, BelowProjects, BelowEnvironments] using fun h => hno ⟨r, hr, h⟩
    case environments =>
      simpa [table, Subtree, HasEnvironment, BelowProjects] using
        (environment_exists hv hr (p := fun x => x = p)).symm
    all_goals simp [table, id, Subtree, HasEnvironment, BelowProjects, BelowEnvironments, rowId,
      henv, mem_environmentsOf, eq_comm]

theorem deleteRow_organization {o : UUID} (hx : (organization o).Exists db)
    (hno : ¬ (organization o).HasVersion db) (ha : ∀ a ∈ db .auditLogs, a.organizationId ≠ some o) :
    ∃ ws, vaultSchema.deleteRow .organizations o db = .ok ws ∧
      vaultSchema.Removes db ws ((organization o).Subtree db) := by
  have hsame := sameSecrets_delete (t := .organizations) (by decide) o db
  have hps : projectsOf (vaultSchema.apply (.delete .organizations o) db) o = projectsOf db o :=
    projectsOf_congr (apply_delete_other (by decide) o db) o
  have henv : ∀ ps, environmentsOf (vaultSchema.apply (.delete .organizations o) db) ps =
      environmentsOf db ps :=
    environmentsOf_congr (apply_delete_other (by decide) o db)
  obtain ⟨ws, hws, hremws⟩ := drains_organization (nodup_delete hv .organizations o)
    (hsame.keysOwn hown) (fun a hm => ha a (by
      rwa [apply_delete_other (by decide : Table.organizations ≠ .auditLogs)] at hm))
    (fun x hx hen => by
      rw [hps, henv, mem_environmentsOf_projectsOf] at hx
      exact hno ((hasVersion_iff hv hown).mpr ⟨x, hx, (hsame.encryptsIn x).mp hen⟩))
  refine ⟨_, ?_, ((removes_delete hx).append hremws).congr fun t r hr => ?_⟩
  · rw [Schema.deleteRow_eq (S := vaultSchema) (t := .organizations) (x := o) hx rfl, hws]
    rfl
  · cases t
    case secretVersions =>
      simpa [table, BelowOrganization, BelowProjects, BelowEnvironments]
        using fun h => hno ⟨r, hr, h⟩
    case environments =>
      simpa [table, Subtree, HasEnvironment, EnvironmentIn, BelowOrganization, BelowProjects, hps,
        mem_projectsOf] using (environment_exists hv hr (p := ProjectIn db o)).symm
    all_goals simp [table, id, Subtree, HasEnvironment, BelowOrganization, BelowProjects,
      BelowEnvironments, rowId, hps, henv, mem_projectsOf, mem_environmentsOf_projectsOf, eq_comm]

/-- Without a version below it and without an audit row, a container goes with its
subtree, and nothing else goes. -/
theorem deleteRow_ok (hx : c.Exists db) (hno : ¬ c.HasVersion db) (ha : ¬ c.HasAudit db) :
    ∃ ws, vaultSchema.deleteRow c.table c.id db = .ok ws ∧
      vaultSchema.Removes db ws (c.Subtree db) := by
  cases c with
  | environment e => exact deleteRow_environment hv hown hx hno
  | project p => exact deleteRow_project hv hown hx hno
  | organization o =>
    exact deleteRow_organization hv hown hx hno fun a ham hao => ha ⟨a, ham, o, rfl, hao⟩

theorem deleteRow_environment_violated {e : UUID} (hx : (environment e).Exists db)
    (h : (environment e).HasVersion db) :
    vaultSchema.deleteRow .environments e db = .error (.violated .secretVersions) := by
  have hsame := sameSecrets_delete (t := .environments) (by decide) e db
  have herr := drains_environments_error (nodup_delete hv .environments e) (List.nodup_singleton e)
    (hsame.keysOwn hown) (by
      obtain ⟨x, rfl, hen⟩ := (hasVersion_iff hv hown).mp h
      exact ⟨x, List.mem_singleton.mpr rfl, (hsame.encryptsIn x).mpr hen⟩)
  rw [List.flatMap_singleton] at herr
  rw [Schema.deleteRow_eq (S := vaultSchema) (t := .environments) (x := e) hx rfl, herr]
  rfl

theorem deleteRow_project_violated {p : UUID} (hx : (project p).Exists db)
    (h : (project p).HasVersion db) :
    vaultSchema.deleteRow .projects p db = .error (.violated .secretVersions) := by
  have hsame := sameSecrets_delete (t := .projects) (by decide) p db
  have herr := drains_projects_error (nodup_delete hv .projects p) (List.nodup_singleton p)
    (hsame.keysOwn hown) (by
      obtain ⟨x, ⟨e, he, hex, hep⟩, hen⟩ := (hasVersion_iff hv hown).mp h
      refine ⟨x, ?_, (hsame.encryptsIn x).mpr hen⟩
      rw [environmentsOf_congr (apply_delete_other (by decide) p db), mem_environmentsOf]
      exact ⟨e, he, hex, List.mem_singleton.mpr hep⟩)
  rw [List.flatMap_singleton] at herr
  rw [Schema.deleteRow_eq (S := vaultSchema) (t := .projects) (x := p) hx rfl, herr]
  rfl

theorem deleteRow_organization_violated {o : UUID} (hx : (organization o).Exists db)
    (h : (organization o).HasVersion db) (ha : ∀ a ∈ db .auditLogs, a.organizationId ≠ some o) :
    vaultSchema.deleteRow .organizations o db = .error (.violated .secretVersions) := by
  have hsame := sameSecrets_delete (t := .organizations) (by decide) o db
  have herr := drains_organization_error (nodup_delete hv .organizations o) (hsame.keysOwn hown)
    (fun a hm => ha a (by
      rwa [apply_delete_other (by decide : Table.organizations ≠ .auditLogs)] at hm)) (by
      obtain ⟨x, henv, hen⟩ := (hasVersion_iff hv hown).mp h
      refine ⟨x, ?_, (hsame.encryptsIn x).mpr hen⟩
      rw [projectsOf_congr (apply_delete_other (by decide) o db),
        environmentsOf_congr (apply_delete_other (by decide) o db), mem_environmentsOf_projectsOf]
      exact henv)
  rw [Schema.deleteRow_eq (S := vaultSchema) (t := .organizations) (x := o) hx rfl, herr]
  rfl

/-- A version below it makes the deletion of a container fail. -/
theorem deleteRow_violated (hx : c.Exists db) (h : c.HasVersion db) (ha : ¬ c.HasAudit db) :
    vaultSchema.deleteRow c.table c.id db = .error (.violated .secretVersions) := by
  cases c with
  | environment e => exact deleteRow_environment_violated hv hown hx h
  | project p => exact deleteRow_project_violated hv hown hx h
  | organization o =>
    exact deleteRow_organization_violated hv hown hx h fun a ham hao => ha ⟨a, ham, o, rfl, hao⟩

end

/-- An audit row makes the deletion of its organization fail. -/
theorem deleteRow_rejected (hv : vaultSchema.Valid db) {o : UUID}
    (hx : (organization o).Exists db) (ha : ∃ a ∈ db .auditLogs, a.organizationId = some o) :
    vaultSchema.deleteRow .organizations o db = .error (.rejected .auditLogs) := by
  have herr := drains_organization_rejected (nodup_delete hv .organizations o) (by
    obtain ⟨a, ham, hao⟩ := ha
    exact ⟨a, (apply_delete_other (by decide : Table.organizations ≠ .auditLogs) o db).symm ▸ ham,
      hao⟩)
  rw [Schema.deleteRow_eq (S := vaultSchema) (t := .organizations) (x := o) hx rfl, herr]
  rfl

end Container

end EnvVault
