import EnvVault.CallWrites

/-!
# Organization bootstrap

`create_organization_with_owner` runs as the owner of the schema. Its first
INSERT returns the new organization, so the SELECT policies of `organizations`
apply to a row that has no membership yet.
-/
namespace EnvVault
open EnvVault.Relational EnvVault.RowSecurity

/-- The function succeeds, and its effect is one new organization and one
membership, of the user as its owner. -/
def Bootstraps (uow : UnitOfWork) (name slug : String) (u : UUID) (inp : Input) (db : Db) : Prop :=
  ∃ ws org, createOrganizationWithOwner uow name slug u inp db = .ok (ws, org) ∧
    org.name = name ∧ org.slug = slug ∧
    vaultSchema.view ws db .organizations = db .organizations ++ [org] ∧
    (∃ m : Membership, m.userId = u ∧ m.organizationId = org.id ∧ m.role = .owner ∧
      vaultSchema.view ws db .memberships = db .memberships ++ [m]) ∧
    ∀ t, t ≠ .organizations → t ≠ .memberships → vaultSchema.view ws db t = db t

/-- The keys that the call takes from `gen_random_uuid()` are not in use. -/
structure UnusedKeys (inp : Input) (db : Db) : Prop where
  organization : ∀ o ∈ db .organizations, o.id ≠ inp.uuid
  membership : ∀ m ∈ db .memberships, m.id ≠ inp.secondUuid

section
variable {owner : DbRole} {ctx : RlsContext} {db : Db}

/-- An organization without members is visible to nobody. -/
theorem organization_hidden {r : Organization}
    (h : ∀ m ∈ db .memberships, m.organizationId ≠ r.id) :
    policiesAdmit owner ctx db .select .organizations r = false := by
  rw [Bool.eq_false_iff]
  intro hadm
  simp only [policiesAdmit, organizationPolicies, admits_perCommand, passes_exists',
    Truth.passes_and, Truth.passes_eq_some, Bool.and_eq_true, decide_eq_true_eq,
    mem_visibleMemberships, Option.some.injEq] at hadm
  obtain ⟨m, ⟨hm, -⟩, ho, -⟩ := hadm
  exact h m hm ho.symm

end

/-- No membership of a valid database belongs to an organization that is not there. -/
theorem no_membership_of_unused {db : Db} (hdb : vaultSchema.Valid db) {x : UUID}
    (hx : ∀ o ∈ db .organizations, o.id ≠ x) : ∀ m ∈ db .memberships, m.organizationId ≠ x := by
  rintro m hm rfl
  obtain ⟨o, ho, hid⟩ := parent_exists hdb hm
    (by simp [referencesOf] : (.organizations, some m.organizationId) ∈ referencesOf _ m)
  exact hx o ho hid

theorem admitsInsert_newOrganization {db : Db} {inp : Input} {name slug : String}
    (hid : ∀ o ∈ db .organizations, o.id ≠ inp.uuid)
    (hslug : ∀ o ∈ db .organizations, o.slug ≠ slug) :
    vaultSchema.admitsInsert .organizations (⟨inp.uuid, name, slug⟩ : Organization) db = true := by
  refine Schema.admitsInsert_iff.mpr ⟨hid, Schema.uniqueAmong_iff.mpr ?_, ?_⟩
  · intro x hx _ u hu
    obtain rfl : u = fun a b : Organization => a.slug == b.slug := by
      simpa [vaultSchema, uniqueOf] using hu
    have := hslug x hx
    simp [this, Ne.symm this]
  · simp [vaultSchema_referencesHold, referencesOf]

theorem admitsInsert_ownership {db : Db} {m : Membership}
    (hid : ∀ m' ∈ db .memberships, m'.id ≠ m.id)
    (horg : ∀ m' ∈ db .memberships, m'.organizationId ≠ m.organizationId)
    (hu : ∃ u ∈ db .users, u.id = m.userId) (ho : ∃ o ∈ db .organizations, o.id = m.organizationId)
    (hi : m.invitedBy = none) : vaultSchema.admitsInsert .memberships m db = true := by
  refine Schema.admitsInsert_iff.mpr ⟨hid, Schema.uniqueAmong_iff.mpr ?_, ?_⟩
  · intro x hx _ u hu
    obtain rfl : u = fun a b : Membership =>
        a.userId == b.userId && a.organizationId == b.organizationId := by
      simpa [vaultSchema, uniqueOf] using hu
    have := horg x hx
    simp [this, Ne.symm this]
  · simpa [vaultSchema_referencesHold, referencesOf, hi, rowId] using ⟨ho, hu⟩

/-- What the function of a superuser's schema writes: it passes every policy. -/
theorem createOrganizationWithOwner_superuser {uow : UnitOfWork} {name slug : String} {u : UUID}
    {inp : Input} {db : Db} (hdb : vaultSchema.Valid db) (hctx : uow.userId = some u)
    (howner : uow.schemaOwner = .superuser) (hu : ∃ x ∈ db .users, x.id = u)
    (hslug : ∀ o ∈ db .organizations, o.slug ≠ slug) (hkeys : UnusedKeys inp db) :
    createOrganizationWithOwner uow name slug u inp db =
      .ok ([.insert .organizations ⟨inp.uuid, name, slug⟩,
        .insert .memberships ⟨inp.secondUuid, u, inp.uuid, .owner, none, inp.now⟩],
        ⟨inp.uuid, name, slug⟩) := by
  have huser : (db .users).any (fun x : User => x.id == u) = true := by
    obtain ⟨x, hx, rfl⟩ := hu
    exact List.any_eq_true.mpr ⟨x, hx, by simp⟩
  have horg : vaultSchema.admitsInsert .organizations (⟨inp.uuid, name, slug⟩ : Organization) db =
      true := admitsInsert_newOrganization hkeys.organization hslug
  have hmem : vaultSchema.admitsInsert .memberships
      (⟨inp.secondUuid, u, inp.uuid, .owner, none, inp.now⟩ : Membership)
      (vaultSchema.apply (.insert .organizations (⟨inp.uuid, name, slug⟩ : Organization)) db) =
        true := admitsInsert_ownership hkeys.membership
    (no_membership_of_unused hdb hkeys.organization) hu ⟨⟨inp.uuid, name, slug⟩, by simp, rfl⟩ rfl
  simp [createOrganizationWithOwner, hctx, huser, UnitOfWork.may, mayAccess, howner,
    DbRole.bypassesRls, horg, hmem]

/-- With `app.current_user_id` set to an existing user and an unused slug, the
bootstrap works exactly where a superuser owns the schema. -/
theorem bootstraps_iff (uow : UnitOfWork) (name slug : String) (u : UUID) (inp : Input) (db : Db)
    (hdb : vaultSchema.Valid db) (hctx : uow.userId = some u) (hu : ∃ x ∈ db .users, x.id = u)
    (hslug : ∀ o ∈ db .organizations, o.slug ≠ slug) (hkeys : UnusedKeys inp db) :
    Bootstraps uow name slug u inp db ↔ uow.schemaOwner = .superuser := by
  obtain ⟨userId, orgId, role, schemaOwner⟩ := uow
  dsimp only at hctx ⊢
  subst hctx
  have hno := no_membership_of_unused hdb hkeys.organization
  have huser : (db .users).any (fun x : User => x.id == u) = true := by
    obtain ⟨x, hx, rfl⟩ := hu
    exact List.any_eq_true.mpr ⟨x, hx, by simp⟩
  constructor
  · rintro ⟨ws, org, hok, -⟩
    by_contra hown
    have hbypass : schemaOwner.bypassesRls = false := by
      cases schemaOwner with
      | superuser => exact absurd rfl hown
      | envvaultMigrate => rfl
      | envvaultApp => rfl
    -- the RETURNING clause needs the SELECT policy on a row without members
    have hhidden : (⟨some u, orgId, schemaOwner, schemaOwner⟩ : UnitOfWork).may db .select
        .organizations (⟨inp.uuid, name, slug⟩ : Organization) = false := by
      simp only [UnitOfWork.may, mayAccess, hbypass, Bool.false_or]
      exact organization_hidden hno
    simp [createOrganizationWithOwner, huser, hhidden] at hok
  · rintro rfl
    refine ⟨[.insert .organizations ⟨inp.uuid, name, slug⟩,
      .insert .memberships ⟨inp.secondUuid, u, inp.uuid, .owner, none, inp.now⟩],
      ⟨inp.uuid, name, slug⟩, ?_, rfl, rfl, rfl, ⟨_, rfl, rfl, rfl, rfl⟩, ?_⟩
    · exact createOrganizationWithOwner_superuser hdb rfl rfl hu hslug hkeys
    · intro t ho hm
      exact vaultSchema.view_untouched
        (by simpa [Write.table] using ⟨Ne.symm ho, Ne.symm hm⟩) db

/-- A database with one user. -/
def oneUserDb : Db
  | .users => [⟨1, "ana@example.com", some "h", none, true⟩]
  | _ => []

theorem oneUserDb_valid : vaultSchema.Valid oneUserDb :=
  .of_checks mem_allTables (by decide) (by decide)

/-- The application role on a schema owned by `envvault_migrate`. -/
def migrateUow : UnitOfWork := ⟨some 1, none, .envvaultApp, .envvaultMigrate⟩

theorem length_zeroDek : (List.replicate 32 0 : Bytes).length = 32 := rfl

def bootstrapInput : Input :=
  ⟨2, 3, 0, ⟨List.replicate 12 0, rfl⟩, ⟨List.replicate 32 0, length_zeroDek⟩, "raw"⟩

/-- In staging and production the first organization cannot be created. -/
theorem bootstrap_fails_for_migrate :
    vaultSchema.Valid oneUserDb ∧ migrateUow.userId = some 1 ∧
      (∃ x ∈ oneUserDb .users, x.id = 1) ∧ (∀ o ∈ oneUserDb .organizations, o.slug ≠ "acme") ∧
        UnusedKeys bootstrapInput oneUserDb ∧
          ¬ Bootstraps migrateUow "Acme" "acme" 1 bootstrapInput oneUserDb := by
  refine ⟨oneUserDb_valid, rfl, ⟨_, List.mem_singleton.mpr rfl, rfl⟩, by simp [oneUserDb],
    ⟨by simp [oneUserDb], by simp [oneUserDb]⟩, ?_⟩
  rintro ⟨ws, org, hok, -⟩
  have herr : createOrganizationWithOwner migrateUow "Acme" "acme" 1 bootstrapInput oneUserDb =
      .error (rlsViolation .organizations) := by rfl
  rw [herr] at hok
  cases hok

theorem bootstraps_iff_oneUser :
    Bootstraps ⟨some 1, none, .envvaultApp, .superuser⟩ "Acme" "acme" 1 bootstrapInput oneUserDb :=
  (bootstraps_iff ⟨some 1, none, .envvaultApp, .superuser⟩ "Acme" "acme" 1 bootstrapInput oneUserDb
    oneUserDb_valid rfl ⟨_, List.mem_singleton.mpr rfl, rfl⟩ (by simp [oneUserDb])
    ⟨by simp [oneUserDb], by simp [oneUserDb]⟩).mpr rfl

end EnvVault
