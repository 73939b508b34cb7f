import EnvVault.OrganizationBootstrap
import EnvVault.SerialCalls

/-!
# Unique names

The six names that a call can be the first to take: the key of a uniqueness constraint,
the check a method makes for it, and the calls that contend for one.
-/
namespace EnvVault
open EnvVault.Relational EnvVault.Transactions

inductive UniqueName : Type
  | email (email : String)
  | organizationSlug (slug : String)
  | member (userId organizationId : UUID)
  | projectSlug (organizationId : UUID) (slug : String)
  | environmentName (projectId : UUID) (name : String)
  | secretName (environmentId : UUID) (keyName : String)
deriving DecidableEq

namespace UniqueName

@[reducible] def table : UniqueName → Table
  | email _ => .users
  | organizationSlug _ => .organizations
  | member _ _ => .memberships
  | projectSlug _ _ => .projects
  | environmentName _ _ => .environments
  | secretName _ _ => .secrets

/-- The row has the name. -/
def holds : (k : UniqueName) → RowOf k.table → Bool
  | email e, u => sameEmail u.email e
  | organizationSlug slug, o => o.slug == slug
  | member userId organizationId, m => m.userId == userId && m.organizationId == organizationId
  | projectSlug organizationId slug, p => p.organizationId == organizationId && p.slug == slug
  | environmentName projectId name, e => e.projectId == projectId && e.name == name
  | secretName environmentId keyName, s => s.environmentId == environmentId && s.keyName == keyName

/-- A deleted secret keeps its name and is not looked for. -/
def live : (k : UniqueName) → RowOf k.table → Bool
  | secretName _ _, s => !s.isDeleted
  | _, _ => true

/-- What the existence check of the method looks for. -/
def wanted (k : UniqueName) (r : RowOf k.table) : Bool := k.holds r && k.live r

def alreadyExists : UniqueName → ExnClass
  | email _ => .emailAlreadyRegisteredError
  | organizationSlug _ => .organizationAlreadyExistsError
  | member _ _ => .membershipAlreadyExistsError
  | projectSlug _ _ => .projectAlreadyExistsError
  | environmentName _ _ => .environmentAlreadyExistsError
  | secretName _ _ => .secretAlreadyExistsError

/-- The number of statements after which a call has looked for the name, for the two
methods that do not catch what the INSERT of the name raises. -/
def checkedAt : UniqueName → Option ℕ
  | environmentName _ _ => some 3
  | secretName _ _ => some 4
  | _ => none

def Taken (k : UniqueName) (db : Db) : Prop := ∃ r ∈ db k.table, k.holds r = true

/-- The existence check finds the name, if it may see the row. -/
def Occupied (k : UniqueName) (db : Db) : Prop := ∃ r ∈ db k.table, k.wanted r = true

/-- The transaction inserts a row with the name. -/
def Claims (k : UniqueName) (ws : List RowWrite) : Prop :=
  ∃ r, Write.insert k.table r ∈ ws ∧ k.holds r = true

variable {k : UniqueName}

theorem holds_of_wanted {r : RowOf k.table} (h : k.wanted r = true) : k.holds r = true := by
  rw [wanted, Bool.and_eq_true] at h
  exact h.1

theorem Occupied.taken {db : Db} (h : k.Occupied db) : k.Taken db := by
  obtain ⟨r, hr, hw⟩ := h
  exact ⟨r, hr, holds_of_wanted hw⟩

theorem Claims.append {ws : List RowWrite} (h : k.Claims ws) (vs : List RowWrite) :
    k.Claims (ws ++ vs) := by
  obtain ⟨r, hr, hh⟩ := h
  exact ⟨r, List.mem_append_left _ hr, hh⟩

theorem sameEmail_trans {a b e : String} (ha : sameEmail a e = true) (hb : sameEmail b e = true) :
    sameEmail a b = true := by
  simp only [sameEmail, beq_iff_eq] at ha hb ⊢
  exact ha.trans hb.symm

theorem sameEmail_symm {a b : String} (h : sameEmail a b = true) : sameEmail b a = true := by
  simp only [sameEmail, beq_iff_eq] at h ⊢
  exact h.symm

/-- A row of the table clashes with a row of this name exactly when it has the name. -/
theorem clash_iff {u : RowOf k.table → RowOf k.table → Bool} (hu : u ∈ vaultSchema.unique k.table)
    {r x : RowOf k.table} (hr : k.holds r = true) :
    (u r x = true ↔ k.holds x = true) ∧ (u x r = true ↔ k.holds x = true) := by
  cases k with
  | email e =>
    obtain rfl : u = fun a b : User => sameEmail a.email b.email := by
      simpa [vaultSchema, uniqueOf] using hu
    exact ⟨⟨fun h => sameEmail_trans (sameEmail_symm h) (sameEmail_symm hr),
      fun h => sameEmail_trans hr h⟩,
      ⟨fun h => sameEmail_trans h (sameEmail_symm hr), fun h => sameEmail_trans h hr⟩⟩
  | organizationSlug slug =>
    obtain rfl : u = fun a b : Organization => a.slug == b.slug := by
      simpa [vaultSchema, uniqueOf] using hu
    simp only [holds, beq_iff_eq] at hr ⊢
    simp [hr, eq_comm]
  | member userId organizationId =>
    obtain rfl : u = fun a b : Membership =>
        a.userId == b.userId && a.organizationId == b.organizationId := by
      simpa [vaultSchema, uniqueOf] using hu
    simp only [holds, Bool.and_eq_true, beq_iff_eq] at hr ⊢
    simp [hr, eq_comm]
  | projectSlug organizationId slug =>
    obtain rfl : u = fun a b : Project =>
        a.organizationId == b.organizationId && a.slug == b.slug := by
      simpa [vaultSchema, uniqueOf] using hu
    simp only [holds, Bool.and_eq_true, beq_iff_eq] at hr ⊢
    simp [hr, eq_comm]
  | environmentName projectId name =>
    obtain rfl : u = fun a b : Environment => a.projectId == b.projectId && a.name == b.name := by
      simpa [vaultSchema, uniqueOf] using hu
    simp only [holds, Bool.and_eq_true, beq_iff_eq] at hr ⊢
    simp [hr, eq_comm]
  | secretName environmentId keyName =>
    obtain rfl : u = fun a b : Secret =>
        a.environmentId == b.environmentId && a.keyName == b.keyName := by
      simpa [vaultSchema, uniqueOf] using hu
    simp only [holds, Bool.and_eq_true, beq_iff_eq] at hr ⊢
    simp [hr, eq_comm]

/-- The table has a constraint on the name. -/
theorem unique_nonempty (k : UniqueName) : ∃ u, u ∈ vaultSchema.unique k.table := by
  cases k <;> exact ⟨_, List.mem_singleton.mpr rfl⟩

/-- Two open transactions do not both insert the name. -/
theorem Claims.excludes {ws vs : List RowWrite} (hw : k.Claims ws) (hv : k.Claims vs) :
    ¬ vaultEngine.Compatible ws vs := by
  intro hc
  obtain ⟨r, hr, hrh⟩ := hw
  obtain ⟨x, hx, hxh⟩ := hv
  obtain ⟨u, hu⟩ := k.unique_nonempty
  have happ : vaultSchema.Apart ws vs := hc
  have hfree := (Schema.unique_of_apart happ ⟨_, hr, Write.row?_insert _ r⟩
    ⟨_, hx, Write.row?_insert _ x⟩ hu).1
  rw [(clash_iff hu hrh).1.mpr hxh] at hfree
  cases hfree

/-- A valid database has one row of a name. -/
theorem holds_unique {db : Db} (hdb : vaultSchema.Valid db) {r x : RowOf k.table}
    (hr : r ∈ db k.table) (hx : x ∈ db k.table) (hrh : k.holds r = true)
    (hxh : k.holds x = true) : x = r := by
  by_contra hne
  obtain ⟨u, hu⟩ := k.unique_nonempty
  have hapart := hdb.unique k.table u hu x hx r hr fun hid => hne (hdb.eq_of_id hx hr hid)
  rw [(clash_iff hu hrh).2.mpr hxh] at hapart
  cases hapart

/-- The constraints let in a row whose name is free. -/
theorem admitsInsert_free {db : Db} (hfree : ¬ k.Taken db) {r : RowOf k.table}
    (hr : k.holds r = true) (hid : ∀ x ∈ db k.table, rowId k.table x ≠ rowId k.table r)
    (hrefs : vaultSchema.referencesHold k.table r db = true) :
    vaultSchema.admitsInsert k.table r db = true := by
  refine Schema.admitsInsert_iff.mpr ⟨hid, Schema.uniqueAmong_iff.mpr fun x hx _ u hu => ?_, hrefs⟩
  have hx' : ¬ k.holds x = true := fun h => hfree ⟨x, hx, h⟩
  constructor
  · exact Bool.eq_false_iff.mpr fun h => hx' ((clash_iff hu hr).2.mp h)
  · exact Bool.eq_false_iff.mpr fun h => hx' ((clash_iff hu hr).1.mp h)

/-- They refuse a row whose name is taken. -/
theorem not_admitsInsert_taken {db : Db} (htaken : k.Taken db) {r : RowOf k.table}
    (hr : k.holds r = true) : vaultSchema.admitsInsert k.table r db = false := by
  rw [Bool.eq_false_iff]
  intro hadm
  obtain ⟨hid, huniq, -⟩ := Schema.admitsInsert_iff.mp hadm
  obtain ⟨x, hx, hxh⟩ := htaken
  obtain ⟨u, hu⟩ := k.unique_nonempty
  have hapart := (Schema.uniqueAmong_iff.mp huniq x hx (hid x hx) u hu).2
  rw [(clash_iff hu hr).1.mpr hxh] at hapart
  cases hapart

end UniqueName

/-- The session acts for this user, a member of the organization with such a role. -/
def ActsAs (uow : UnitOfWork) (db : Db) (organizationId actorUserId : UUID)
    (minimum : MembershipRole) : Prop :=
  ∃ m, Acts uow db m ∧ m.organizationId = organizationId ∧ m.userId = actorUserId ∧
    roleRank minimum ≤ roleRank m.role

/-- The call is authorised to create the name. -/
def UniqueName.Contends (d : Deployment) (uow : UnitOfWork) (db : Db) : UniqueName → Op → Prop
  | .email e, .register e' _ _ => sameEmail e' e = true
  | .organizationSlug slug, .createOrganization _ slug' userId =>
    slug' = slug ∧ uow.userId = some userId ∧ ∃ u ∈ db .users, u.id = userId
  | .member userId o, .invite o' e role actor =>
    o' = o ∧ role ≠ .owner ∧ (∃ u ∈ db .users, u.id = userId ∧ sameEmail u.email e = true) ∧
      ActsAs uow db o actor (if role = .admin then .owner else .admin)
  | .projectSlug o slug, .createProject o' _ slug' actor _ =>
    o' = o ∧ slug' = slug ∧ ActsAs uow db o actor .member
  | .environmentName project name, .createEnvironment project' o name' actor =>
    project' = project ∧ name' = name ∧ ProjectIn db o project ∧ ActsAs uow db o actor .member
  | .secretName environment keyName, .createSecret environment' o keyName' _ actor =>
    environment' = environment ∧ keyName' = keyName ∧ EnvironmentIn db o environment ∧
      (∃ key, OnlyKey d.kms db environment key) ∧ ActsAs uow db o actor .member
  | _, _ => False

/-- What the methods read besides the name is still there. -/
structure UniqueName.Extends (k : UniqueName) (base db : Db) : Prop where
  valid : vaultSchema.Valid db
  users : ∀ r ∈ base .users, r ∈ db .users
  memberships : ∀ r ∈ base .memberships, r ∈ db .memberships
  projects : ∀ r ∈ base .projects, r ∈ db .projects
  environments : ∀ r ∈ base .environments, r ∈ db .environments
  encryptionKeys : (∃ e n, k = .secretName e n) → db .encryptionKeys = base .encryptionKeys

namespace UniqueName
variable {k : UniqueName} {base db : Db}

theorem Extends.refl (h : vaultSchema.Valid base) : k.Extends base base :=
  ⟨h, fun _ hr => hr, fun _ hr => hr, fun _ hr => hr, fun _ hr => hr, fun _ => rfl⟩

theorem Extends.view {ws : List RowWrite} (hv : vaultSchema.Valid (vaultSchema.view ws base))
    (hws : ∀ w ∈ ws, (∃ t r, w = .insert t r) ∨ w.table = .secrets)
    (hkeys : (∃ e n, k = .secretName e n) → ∀ w ∈ ws, w.table ≠ .encryptionKeys) :
    k.Extends base (vaultSchema.view ws base) := by
  have hkeep : ∀ t, t ≠ .secrets → ∀ r ∈ base t, r ∈ vaultSchema.view ws base t := by
    intro t ht r hr
    refine Schema.mem_view_of_kept hr (fun r' hw => ?_) fun hw => ?_
    · rcases hws _ hw with ⟨t', x, heq⟩ | htable
      · cases heq
      · exact ht htable
    · rcases hws _ hw with ⟨t', x, heq⟩ | htable
      · cases heq
      · exact ht htable
  exact ⟨hv, hkeep _ (by decide), hkeep _ (by decide), hkeep _ (by decide), hkeep _ (by decide),
    fun hk => vaultSchema.view_untouched (hkeys hk) base⟩

theorem Extends.acts (h : k.Extends base db) {uow : UnitOfWork} {m : Membership}
    (ha : Acts uow base m) : Acts uow db m :=
  ⟨h.memberships m ha.mem, ha.session⟩

theorem Extends.projectIn (h : k.Extends base db) {o x : UUID} (hp : ProjectIn base o x) :
    ProjectIn db o x := by
  obtain ⟨p, hp, hid, ho⟩ := hp
  exact ⟨p, h.projects p hp, hid, ho⟩

theorem Extends.environmentIn (h : k.Extends base db) {o x : UUID} (he : EnvironmentIn base o x) :
    EnvironmentIn db o x := by
  obtain ⟨e, he, hid, ho⟩ := he
  exact ⟨e, h.environments e he, hid, h.projectIn ho⟩

end UniqueName

end EnvVault
