import EnvVault.Repositories

/-!
# Organizations, memberships and roles

The role checks and the services for organizations and memberships.
-/
namespace EnvVault
open EnvVault.Relational EnvVault.Transactions

/-- `ROLE_RANK`. -/
def roleRank : MembershipRole → ℕ
  | .viewer => 0
  | .member => 1
  | .admin => 2
  | .owner => 3

def roleName : MembershipRole → String
  | .viewer => "viewer"
  | .member => "member"
  | .admin => "admin"
  | .owner => "owner"

def getActorMembership (uow : UnitOfWork) (organizationId actorUserId : UUID) : Tx Membership := do
  let membership ← MembershipRepository.getByUserAndOrg uow actorUserId organizationId
  match membership with
  | none => throw ⟨.membershipRequiredError, "Actor is not a member of this organization."⟩
  | some membership => return membership

def requireMinRole (membership : Membership) (minimum : MembershipRole) : Tx Unit :=
  raiseIf (decide (roleRank membership.role < roleRank minimum)) .insufficientRoleError
    ("Role '" ++ roleName membership.role ++ "' is insufficient; requires '" ++ roleName minimum ++
      "' or higher.")

/-- The membership of the actor, if its role is `minimum` or higher. -/
def requireOrgRole (uow : UnitOfWork) (organizationId actorUserId : UUID)
    (minimum : MembershipRole) : Tx Membership := do
  let membership ← getActorMembership uow organizationId actorUserId
  requireMinRole membership minimum
  return membership

/-- A second `require_org_role` of one session: the query runs again, and the
role is read from the object the first one loaded. -/
def requireOrgRoleAgain (uow : UnitOfWork) (loaded : Membership) (organizationId actorUserId : UUID)
    (minimum : MembershipRole) : Tx Membership := do
  let membership ← getActorMembership uow organizationId actorUserId
  let membership := identityMap Membership.id loaded membership
  requireMinRole membership minimum
  return membership

namespace OrganizationService
variable (uow : UnitOfWork)

def slugTaken (slug : String) : Exn :=
  ⟨.organizationAlreadyExistsError, "Organization slug '" ++ slug ++ "' is taken."⟩

/-- The constraint answers for a slug that is taken after the query. -/
def create (name slug : String) (userId : UUID) : Tx Organization := do
  let existing ← OrganizationRepository.getBySlug uow slug
  raiseIf existing.isSome (slugTaken slug).cls (slugTaken slug).detail
  exceptIntegrityError
    (do let org ← OrganizationRepository.createWithOwner uow name slug userId
        UnitOfWork.commit
        return org)
    (do UnitOfWork.rollback
        throw (slugTaken slug))

def get (organizationId : UUID) : Tx Organization := do
  let org ← OrganizationRepository.get uow organizationId
  match org with
  | none => throw ⟨.organizationNotFoundError, "Organization not found."⟩
  | some org => return org

def listForUser : Tx (List Organization) := OrganizationRepository.listVisible uow

/-- The UPDATE sets the columns whose values change, and there is none if none does. -/
def update (organizationId actorUserId : UUID) (name slug : Option String) : Tx Organization := do
  let _ ← requireOrgRole uow organizationId actorUserId .admin
  let org ← get uow organizationId
  (match slug with
    | none => pure ()
    | some slug =>
      if slug ≠ org.slug then do
        let conflict ← OrganizationRepository.getBySlug uow slug
        raiseIf (conflict.any fun c => c.id ≠ org.id) (slugTaken slug).cls (slugTaken slug).detail
      else pure () : Tx Unit)
  let changed : Organization := { org with name := name.getD org.name, slug := slug.getD org.slug }
  exceptIntegrityError
    (do (if changed ≠ org then
          uow.updateFlushed .organizations org.id fun r : Organization =>
            { r with
              name := if changed.name ≠ org.name then changed.name else r.name
              slug := if changed.slug ≠ org.slug then changed.slug else r.slug }
        else pure () : Tx Unit)
        UnitOfWork.commit
        return changed)
    (do UnitOfWork.rollback
        throw (slugTaken (slug.getD "None")))

def delete (organizationId actorUserId : UUID) : Tx Unit := do
  let _ ← requireOrgRole uow organizationId actorUserId .owner
  let org ← get uow organizationId
  OrganizationRepository.delete uow org.id
  UnitOfWork.commit

end OrganizationService

namespace MembershipService
variable (uow : UnitOfWork)

def list (organizationId actorUserId : UUID) : Tx (List Membership) := do
  let _ ← requireOrgRole uow organizationId actorUserId .viewer
  MembershipRepository.listByOrganization uow organizationId

def alreadyMember : Exn :=
  ⟨.membershipAlreadyExistsError, "User is already a member of this organization."⟩

/-- An owner is not invited but promoted, and admins are invited by owners. -/
def invite (organizationId : UUID) (email : String) (role : MembershipRole) (actorUserId : UUID) :
    Tx Membership := do
  raiseIf (role == MembershipRole.owner) .invalidMembershipRoleError
    "Cannot invite with role 'owner'; promote an existing member instead."
  let actor ← requireOrgRole uow organizationId actorUserId .admin
  raiseIf (role == MembershipRole.admin && actor.role != MembershipRole.owner)
    .insufficientRoleError "Only owners can invite admins."
  let user ← UserRepository.getByEmail uow email
  match user with
  | none => throw ⟨.userNotFoundError, "No user found with email '" ++ email ++ "'."⟩
  | some user =>
    let existing ← MembershipRepository.getByUserAndOrg uow user.id organizationId
    raiseIf existing.isSome alreadyMember.cls alreadyMember.detail
    exceptIntegrityError
      (do let membership ← uow.insertFlushed .memberships fun inp =>
            (⟨inp.uuid, user.id, organizationId, role, some actorUserId, inp.now⟩ : Membership)
          UnitOfWork.commit
          return membership)
      (do UnitOfWork.rollback
          throw alreadyMember)

/-- `uow.memberships.get` in a session that has loaded the actor's membership. -/
def getTarget (actor : Membership) (organizationId membershipId : UUID) : Tx Membership := do
  let membership ← MembershipRepository.get uow membershipId
  match membership with
  | none => throw ⟨.membershipNotFoundError, "Membership not found."⟩
  | some membership =>
    let membership := identityMap Membership.id actor membership
    raiseIf (membership.organizationId != organizationId) .membershipNotFoundError
      "Membership not found."
    return membership

/-- The owners are counted in one statement and the role is set in another. -/
def updateRole (organizationId membershipId : UUID) (newRole : MembershipRole)
    (actorUserId : UUID) : Tx Membership := do
  let actor ← requireOrgRole uow organizationId actorUserId .admin
  let membership ← getTarget uow actor organizationId membershipId
  if membership.role = newRole then return membership
  else
    raiseIf ((newRole == .owner || membership.role == .owner) && actor.role != .owner)
      .insufficientRoleError "Only owners can change owner roles."
    (if membership.role = .owner ∧ newRole ≠ .owner then do
      let owners ← MembershipRepository.countOwners uow organizationId
      raiseIf (decide (owners ≤ 1)) .lastOwnerError
        "Cannot demote the last owner of the organization."
    else pure () : Tx Unit)
    raiseIf (newRole == .admin && actor.role != .owner) .insufficientRoleError
      "Only owners can promote members to admin."
    uow.updateFlushed .memberships membership.id fun m : Membership => { m with role := newRole }
    UnitOfWork.commit
    return { membership with role := newRole }

/-- Here too the owners are counted before the DELETE. -/
def remove (organizationId membershipId actorUserId : UUID) : Tx Unit := do
  let actor ← requireOrgRole uow organizationId actorUserId .admin
  let membership ← getTarget uow actor organizationId membershipId
  (if membership.role = .owner then do
    raiseIf (actor.role != .owner) .insufficientRoleError "Only owners can remove an owner."
    let owners ← MembershipRepository.countOwners uow organizationId
    raiseIf (decide (owners ≤ 1)) .lastOwnerError
      "Cannot remove the last owner of the organization."
  else pure () : Tx Unit)
  MembershipRepository.delete uow membership.id
  UnitOfWork.commit

end MembershipService

end EnvVault
