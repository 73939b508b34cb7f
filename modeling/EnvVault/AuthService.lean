import EnvVault.Repositories

/-!
# Registration, login and refresh tokens

Password hashing, the digest of refresh tokens and the access tokens are
parameters.
-/
namespace EnvVault
open EnvVault.Relational EnvVault.Transactions

/-- The functions of the security modules and of the settings. -/
structure SecurityModules where
  hashPassword : String → String
  verifyPassword : String → String → Bool
  /-- SHA-256, as a hexadecimal digest. -/
  hashRefreshToken : String → String
  createAccessToken : UUID → Timestamp → String
  refreshTokenLifetime : ℕ

/-- The user, the access token and the raw refresh token. -/
structure TokenPair where
  user : User
  accessToken : String
  refreshToken : String
deriving DecidableEq

namespace AuthService
variable (security : SecurityModules) (uow : UnitOfWork)

/-- Without a hash the password is verified against a dummy, and the answer is no. -/
def verifyPasswordOrDummy (password : String) : Option String → Bool
  | none => false
  | some passwordHash => security.verifyPassword password passwordHash

def emailRegistered (email : String) : Exn :=
  ⟨.emailAlreadyRegisteredError, "Email '" ++ email ++ "' is already registered."⟩

def register (email password : String) (fullName : Option String) : Tx User := do
  let existing ← UserRepository.getByEmail uow email
  raiseIf existing.isSome (emailRegistered email).cls (emailRegistered email).detail
  exceptIntegrityError
    (do let user ← uow.insertFlushed .users fun inp =>
          (⟨inp.uuid, email, some (security.hashPassword password), fullName, true⟩ : User)
        UnitOfWork.commit
        return user)
    (do UnitOfWork.rollback
        throw (emailRegistered email))

/-- The access token and the raw refresh token. -/
def issueTokenPair (userId : UUID) : Tx (String × String) := do
  let inp ← readInput
  let _ ← uow.insertFlushed .refreshTokens fun row =>
    (⟨row.uuid, userId, security.hashRefreshToken inp.rawToken,
      inp.now + security.refreshTokenLifetime, none⟩ : RefreshToken)
  UnitOfWork.commit
  let clock ← readInput
  return (security.createAccessToken userId clock.now, inp.rawToken)

def login (email password : String) : Tx TokenPair := do
  let user ← UserRepository.getByEmail uow email
  raiseIf (!verifyPasswordOrDummy security password (user.bind User.passwordHash))
    .invalidCredentialsError "Invalid email or password."
  match user with
  | none => throw ⟨.invalidCredentialsError, "Invalid email or password."⟩
  | some user =>
    raiseIf (!user.isActive) .inactiveUserError "User account is inactive."
    let tokens ← issueTokenPair security uow user.id
    return ⟨user, tokens.1, tokens.2⟩

/-- A token that is revoked, or whose user is gone, revokes all tokens of its user. -/
def refresh (rawRefreshToken : String) : Tx TokenPair := do
  let tokenHash := security.hashRefreshToken rawRefreshToken
  let stored ← RefreshTokenRepository.getByTokenHash uow tokenHash
  match stored with
  | none => throw ⟨.invalidRefreshTokenError, "Invalid refresh token."⟩
  | some stored =>
    if stored.revokedAt.isSome then
      RefreshTokenRepository.revokeAllForUser uow stored.userId
      UnitOfWork.commit
      throw ⟨.invalidRefreshTokenError, "Refresh token reuse detected."⟩
    else
      let clock ← readInput
      if stored.expiresAt ≤ clock.now then
        RefreshTokenRepository.revoke uow stored.id
        UnitOfWork.commit
        throw ⟨.invalidRefreshTokenError, "Refresh token has expired."⟩
      else
        let user ← UserRepository.get uow stored.userId
        match user.filter User.isActive with
        | none =>
          RefreshTokenRepository.revokeAllForUser uow stored.userId
          UnitOfWork.commit
          throw ⟨.invalidRefreshTokenError, "Invalid refresh token."⟩
        | some user =>
          RefreshTokenRepository.revoke uow stored.id
          let tokens ← issueTokenPair security uow user.id
          return ⟨user, tokens.1, tokens.2⟩

def logout (rawRefreshToken : String) : Tx Unit := do
  let tokenHash := security.hashRefreshToken rawRefreshToken
  let stored ← RefreshTokenRepository.getByTokenHash uow tokenHash
  match stored.filter fun stored => stored.revokedAt.isNone with
  | none => return ()
  | some stored =>
    RefreshTokenRepository.revoke uow stored.id
    UnitOfWork.commit

def logoutAll (userId : UUID) : Tx Unit := do
  RefreshTokenRepository.revokeAllForUser uow userId
  UnitOfWork.commit

end AuthService

end EnvVault
