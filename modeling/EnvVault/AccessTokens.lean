import EnvVault.Routes
import EnvVault.SessionCalls

/-!
# Access tokens

A login or a refresh returns a signed access token, and the routes with a current user ask
for one. The server keeps no record of these tokens: what it knows of one is its signature
and its claims.
-/
namespace EnvVault
open EnvVault.Relational EnvVault.Transactions

/-- The ticks of the clock in a second: it counts microseconds, and the times of a token
are whole seconds. -/
def second : ℕ := 1000000

structure TokenClaims where
  sub : Option String
  type : Option String
  iat : ℕ
  exp : ℕ
deriving DecidableEq

/-- What the JWT package does with the key of the server: it signs claims, and it reads the
claims of a token that the key has signed. -/
structure Jwt where
  encode : TokenClaims → String
  signed : String → Option TokenClaims
  signed_encode : ∀ claims, signed (encode claims) = some claims

/-- The subclasses of `PyJWTError` that `decode_access_token` may raise. -/
inductive JwtError : Type
  | immatureSignatureError
  | expiredSignatureError
  | invalidTokenError (detail : String)
deriving DecidableEq

def accessTokenType : String := "access"

/-- The claims of a new access token. -/
def accessClaims (expireMinutes : ℕ) (userId : UUID) (expiresDelta : Option ℕ) (now : Timestamp) :
    TokenClaims :=
  ⟨some (toString userId), some accessTokenType, now / second,
    (now + expiresDelta.getD (expireMinutes * (60 * second))) / second⟩

def createAccessToken (jwt : Jwt) (expireMinutes : ℕ) (userId : UUID) (expiresDelta : Option ℕ)
    (now : Timestamp) : String :=
  jwt.encode (accessClaims expireMinutes userId expiresDelta now)

/-- `jwt.decode` verifies the signature and then the times of the token. -/
def Jwt.decode (jwt : Jwt) (now : Timestamp) (token : String) : Except JwtError TokenClaims :=
  match jwt.signed token with
  | none => .error (.invalidTokenError "Signature verification failed")
  | some claims =>
    if now < claims.iat * second then .error .immatureSignatureError
    else if claims.exp * second ≤ now then .error .expiredSignatureError
    else .ok claims

def decodeAccessToken (jwt : Jwt) (now : Timestamp) (token : String) :
    Except JwtError TokenClaims :=
  match jwt.decode now token with
  | .error e => .error e
  | .ok payload =>
    if payload.type ≠ some accessTokenType then
      .error (.invalidTokenError "Token is not an access token.")
    else if payload.sub.getD "" = "" then .error (.invalidTokenError "Token subject is missing.")
    else .ok payload

/-- The key that a text stands for. -/
def parseKey (text : String) : Option UUID :=
  if text ≠ "" ∧ text.toList.all Char.isDigit = true then
    some (Nat.ofDigitChars 10 text.toList 0)
  else none

theorem toString_ne_empty (userId : UUID) : toString userId ≠ "" := Nat.repr_ne_empty

theorem parseKey_toString (userId : UUID) : parseKey (toString userId) = some userId := by
  have hlist : (toString userId).toList = Nat.toDigits 10 userId := Nat.toList_repr
  have hdigits : (Nat.toDigits 10 userId).all Char.isDigit = true :=
    List.all_eq_true.mpr fun c hc => Nat.isDigit_of_mem_toDigits (by decide) (by decide) hc
  rw [parseKey, hlist, if_pos ⟨toString_ne_empty userId, hdigits⟩,
    Nat.ofDigitChars_ten_toDigits]

/-- The `Authorization` header, as `HTTPBearer` takes it apart. -/
structure HTTPAuthorizationCredentials where
  scheme : String
  credentials : String

structure HTTPException where
  statusCode : ℕ
  detail : String
  headers : List (String × String)
deriving DecidableEq

def unauthorized (detail : String) : HTTPException :=
  ⟨401, detail, [("WWW-Authenticate", "Bearer")]⟩

/-- A session with the user of the token and no organization. -/
def subjectUow (server : Server) (userId : UUID) : UnitOfWork :=
  ⟨some userId, none, server.role, server.schemaOwner⟩

def getCurrentUser (jwt : Jwt) (server : Server)
    (credentials : Option HTTPAuthorizationCredentials) : Tx (Except HTTPException User) :=
  match credentials.filter fun c => c.scheme.toLower == "bearer" with
  | none => return .error (unauthorized "Not authenticated")
  | some c => do
    let clock ← readInput
    match decodeAccessToken jwt clock.now c.credentials with
    | .error _ => return .error (unauthorized "Could not validate credentials")
    | .ok payload =>
      -- the driver of the database reads the text of the subject as a key
      match parseKey (payload.sub.getD "") with
      | none => throw ⟨.valueError, "invalid UUID"⟩
      | some userId =>
        let user ← UserRepository.get (subjectUow server userId) userId
        match user.filter User.isActive with
        | none => return .error (unauthorized "Could not validate credentials")
        | some user => return .ok user

/-- At this time the credentials name this user. -/
def Names (jwt : Jwt) (credentials : Option HTTPAuthorizationCredentials) (now : Timestamp)
    (userId : UUID) : Prop :=
  ∃ c payload, credentials = some c ∧ c.scheme.toLower = "bearer" ∧
    decodeAccessToken jwt now c.credentials = .ok payload ∧
    parseKey (payload.sub.getD "") = some userId

/-- The key in the subject of a token that the server has signed. -/
def subjectOf (jwt : Jwt) (credentials : Option HTTPAuthorizationCredentials) : Option UUID := do
  let c ← credentials
  let payload ← jwt.signed c.credentials
  parseKey (payload.sub.getD "")

section
variable {jwt : Jwt} {now time : Timestamp} {token : String} {claims : TokenClaims}

theorem Jwt.decode_ok_iff : jwt.decode now token = .ok claims ↔
    jwt.signed token = some claims ∧ claims.iat * second ≤ now ∧ now < claims.exp * second := by
  unfold Jwt.decode
  cases jwt.signed token with
  | none => simp
  | some payload =>
    dsimp only
    split_ifs with hiat hexp
    · constructor
      · intro h
        cases h
      · rintro ⟨hsigned, hfrom, -⟩
        rw [Option.some.inj hsigned] at hiat
        exact absurd hiat (not_lt.mpr hfrom)
    · constructor
      · intro h
        cases h
      · rintro ⟨hsigned, -, huntil⟩
        rw [Option.some.inj hsigned] at hexp
        exact absurd huntil (not_lt.mpr hexp)
    · rw [Except.ok.injEq, Option.some.injEq]
      constructor
      · intro h
        rw [← h]
        exact ⟨rfl, not_lt.mp hiat, not_le.mp hexp⟩
      · exact fun h => h.1

theorem decodeAccessToken_ok_iff : decodeAccessToken jwt now token = .ok claims ↔
    jwt.signed token = some claims ∧ claims.iat * second ≤ now ∧ now < claims.exp * second ∧
      claims.type = some accessTokenType ∧ claims.sub.getD "" ≠ "" := by
  rw [← and_assoc, ← and_assoc, and_assoc (a := jwt.signed token = some claims),
    ← Jwt.decode_ok_iff]
  unfold decodeAccessToken
  cases jwt.decode now token with
  | error e => simp
  | ok payload =>
    dsimp only
    split_ifs with htype hsub
    · constructor
      · intro h
        cases h
      · rintro ⟨hok, htype', -⟩
        rw [Except.ok.inj hok] at htype
        exact absurd htype' htype
    · constructor
      · intro h
        cases h
      · rintro ⟨hok, -, hsub'⟩
        rw [Except.ok.inj hok] at hsub
        exact absurd hsub hsub'
    · rw [Except.ok.injEq]
      constructor
      · intro h
        rw [← h]
        exact ⟨rfl, not_not.mp htype, hsub⟩
      · exact fun h => h.1

/-- Only a token with this subject names the user, at whatever time. -/
theorem Names.subjectOf_eq {credentials : Option HTTPAuthorizationCredentials} {userId : UUID}
    (h : Names jwt credentials now userId) : subjectOf jwt credentials = some userId := by
  obtain ⟨c, payload, rfl, -, hdecode, hsub⟩ := h
  have hsigned := (decodeAccessToken_ok_iff.mp hdecode).1
  unfold subjectOf
  simp only [Option.bind_eq_bind, Option.bind_some, hsigned, hsub]

end

section
variable {jwt : Jwt} (server : Server) {inputs : ℕ → Input} {db : Db}
  {c : HTTPAuthorizationCredentials}

theorem filter_bearer (hscheme : c.scheme.toLower = "bearer") :
    (some c).filter (fun c => c.scheme.toLower == "bearer") = some c := by
  simp [Option.filter, hscheme]

/-- A token that does not decode is refused before the database is asked. -/
theorem getCurrentUser_undecoded (hscheme : c.scheme.toLower = "bearer") {e : JwtError}
    (hdecode : decodeAccessToken jwt (inputs 0).now c.credentials = .error e) :
    (alone inputs (getCurrentUser jwt server (some c)) db).1 =
      .ok (.error (unauthorized "Could not validate credentials")) := by
  unfold getCurrentUser alone
  rw [filter_bearer hscheme]
  simp only [Prog.bind_eq, Prog.exec_bind, exec_readInput, hdecode]
  rfl

/-- One that decodes stands for the user with its subject, if that user is active. -/
theorem getCurrentUser_decoded (hdb : vaultSchema.Valid db) {userId : UUID}
    (hnames : Names jwt (some c) (inputs 0).now userId) :
    (∀ user ∈ db .users, user.id = userId → user.isActive = true →
      (alone inputs (getCurrentUser jwt server (some c)) db).1 = .ok (.ok user)) ∧
    ((∀ user ∈ db .users, user.id = userId → user.isActive = false) →
      (alone inputs (getCurrentUser jwt server (some c)) db).1 =
        .ok (.error (unauthorized "Could not validate credentials"))) := by
  obtain ⟨c', payload, hc, hscheme, hdecode, hsub⟩ := hnames
  obtain rfl := Option.some.inj hc
  have hrest : ∀ found, ((UserRepository.get (subjectUow server userId) userId).exec vaultEngine
      inputs ⟨1, [], db⟩).1 = .ok found →
        (alone inputs (getCurrentUser jwt server (some c)) db).1 =
          .ok (match found.filter User.isActive with
            | none => .error (unauthorized "Could not validate credentials")
            | some user => .ok user) := by
    intro found hfound
    unfold getCurrentUser alone
    rw [filter_bearer hscheme]
    simp only [Prog.bind_eq, Prog.exec_bind, exec_readInput, hdecode, hsub]
    cases hget : (UserRepository.get (subjectUow server userId) userId).exec vaultEngine inputs
      ⟨0 + 1, [], db⟩ with
    | mk result so =>
      rw [hget] at hfound
      obtain rfl : result = .ok found := hfound
      dsimp only
      cases found.filter User.isActive <;> rfl
  constructor
  · intro user huser hid hactive
    have hget := exec_getUser (subjectUow server userId) inputs hdb huser 1
    rw [hid] at hget
    have hfilter : (some user).filter User.isActive = some user := by
      simp [Option.filter, hactive]
    rw [hrest (some user) (by rw [hget]), hfilter]
  · intro hinactive
    obtain ⟨found, hanswers, hfound⟩ : ∃ found,
        ((subjectUow server userId).get .users userId).Answers vaultEngine inputs [] db found ∧
        ∀ user : User, found = some user → user ∈ db .users ∧ user.id = userId :=
      answers_get_total hdb userId
    obtain ⟨k, hget⟩ := hanswers 1
    have hfilter : found.filter User.isActive = none := by
      cases found with
      | none => rfl
      | some user =>
        obtain ⟨huser, hid⟩ := hfound user rfl
        simp [Option.filter, hinactive user huser hid]
    rw [hrest found (by rw [UserRepository.get, hget]), hfilter]

end

/-- A text with a mark before each of its characters and one after the last. -/
def spell (s : List Char) : List Char := s.flatMap (fun c => ['+', c]) ++ ['.']

def unspell : List Char → List Char × List Char
  | '+' :: c :: rest => (c :: (unspell rest).1, (unspell rest).2)
  | _ :: rest => ([], rest)
  | [] => ([], [])

theorem unspell_spell (s rest : List Char) : unspell (spell s ++ rest) = (s, rest) := by
  induction s with
  | nil => rfl
  | cons c s ih =>
    have hcons : spell (c :: s) ++ rest = '+' :: c :: (spell s ++ rest) := by simp [spell]
    rw [hcons, unspell, ih]

def spellOption (s : Option String) : List Char :=
  spell (s.elim [] fun s => ' ' :: s.toList)

def unspellOption (cs : List Char) : Option String × List Char :=
  ((unspell cs).1.tail?.map String.ofList, (unspell cs).2)

theorem unspell_spellOption (s : Option String) (rest : List Char) :
    unspellOption (spellOption s ++ rest) = (s, rest) := by
  unfold unspellOption spellOption
  rw [unspell_spell]
  cases s with
  | none => rfl
  | some s => simp

/-- A key that signs claims by spelling them out. -/
def sampleJwt : Jwt where
  encode claims := String.ofList (spellOption claims.sub ++ (spellOption claims.type ++
    (spell (List.replicate claims.iat 'i') ++ (spell (List.replicate claims.exp 'e') ++ []))))
  signed token :=
    let sub := unspellOption token.toList
    let type := unspellOption sub.2
    let iat := unspell type.2
    let exp := unspell iat.2
    some ⟨sub.1, type.1, iat.1.length, exp.1.length⟩
  signed_encode claims := by
    simp only [String.toList_ofList, unspell_spellOption, unspell_spell, List.length_replicate]

end EnvVault
