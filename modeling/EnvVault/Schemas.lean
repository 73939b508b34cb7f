import EnvVault.Patterns
import EnvVault.RouteCalls

/-!
# The schemas of the request bodies

The fields of the pydantic models with their lengths and patterns, and the validation of a
request before its route runs. `EmailStr` is a parameter: it turns an address away or
returns it in normal form.
-/
namespace EnvVault
open EnvVault.Patterns

/-- `Field(min_length=…, max_length=…, pattern=…)` of a `str`. -/
structure StringField where
  minLength : ℕ
  maxLength : Option ℕ
  pattern : Option (RegularExpression Char)

namespace StringField

/-- The pattern is anchored at both ends, so that it has to match the whole string. -/
def accepts (f : StringField) (s : String) : Bool :=
  decide (f.minLength ≤ s.length) && f.maxLength.all (fun n => decide (s.length ≤ n)) &&
    f.pattern.all fun p => p.rmatch s.toList

/-- A field of type `str | None` with None as its default. -/
def acceptsOptional (f : StringField) (s : Option String) : Bool := s.all f.accepts

theorem accepts_iff {minLength maxLength : ℕ} {pattern : RegularExpression Char} {s : String} :
    (StringField.mk minLength (some maxLength) (some pattern)).accepts s = true ↔
      minLength ≤ s.length ∧ s.length ≤ maxLength ∧ s.toList ∈ pattern.matches' := by
  simp only [accepts, Option.all_some, Bool.and_eq_true, decide_eq_true_eq,
    RegularExpression.rmatch_iff_matches', and_assoc]

end StringField

def digits : List Char := "0123456789".toList

def lowercase : List Char := "abcdefghijklmnopqrstuvwxyz".toList

def uppercase : List Char := "ABCDEFGHIJKLMNOPQRSTUVWXYZ".toList

/-- `^[a-z0-9]+(?:-[a-z0-9]+)*$`. -/
def slugPattern : RegularExpression Char := separated '-' (oneOrMore (anyOf (lowercase ++ digits)))

/-- `KEY_NAME_PATTERN`, `^[A-Z_][A-Z0-9_]*$`. -/
def keyNamePattern : RegularExpression Char :=
  anyOf (uppercase ++ ['_']) * (anyOf (uppercase ++ digits ++ ['_'])).star

namespace UserCreate

def fullName : StringField := ⟨1, some 255, none⟩

def password : StringField := ⟨8, some 128, none⟩

end UserCreate

def LoginRequest.password : StringField := ⟨1, some 128, none⟩

def RefreshRequest.refreshToken : StringField := ⟨1, none, none⟩

def LogoutRequest.refreshToken : StringField := ⟨1, none, none⟩

namespace OrganizationCreate

def name : StringField := ⟨1, some 255, none⟩

def slug : StringField := ⟨1, some 63, some slugPattern⟩

end OrganizationCreate

namespace OrganizationUpdate

def name : StringField := ⟨1, some 255, none⟩

def slug : StringField := ⟨1, some 63, some slugPattern⟩

end OrganizationUpdate

namespace ProjectCreate

def name : StringField := ⟨1, some 255, none⟩

def slug : StringField := ⟨1, some 63, some slugPattern⟩

def description : StringField := ⟨0, some 2000, none⟩

end ProjectCreate

namespace ProjectUpdate

def name : StringField := ⟨1, some 255, none⟩

def slug : StringField := ⟨1, some 63, some slugPattern⟩

def description : StringField := ⟨0, some 2000, none⟩

end ProjectUpdate

def EnvironmentCreate.name : StringField := ⟨1, some 63, some slugPattern⟩

namespace SecretCreate

def keyName : StringField := ⟨1, some 255, some keyNamePattern⟩

def value : StringField := ⟨0, some 65536, none⟩

end SecretCreate

def SecretUpdate.value : StringField := ⟨0, some 65536, none⟩

/-- `Query(50, ge=1, le=100)`. -/
def acceptsLimit (limit : ℕ) : Bool := decide (1 ≤ limit ∧ limit ≤ 100)

namespace Request

/-- The fields of the body and of the query, other than the address. -/
def fieldsAccepted : Request → Bool
  | register _ password fullName =>
    UserCreate.fullName.acceptsOptional fullName && UserCreate.password.accepts password
  | login _ password => LoginRequest.password.accepts password
  | refresh refreshToken => RefreshRequest.refreshToken.accepts refreshToken
  | logout refreshToken => LogoutRequest.refreshToken.accepts refreshToken
  | createOrganization name slug =>
    OrganizationCreate.name.accepts name && OrganizationCreate.slug.accepts slug
  | updateOrganization _ name slug =>
    OrganizationUpdate.name.acceptsOptional name && OrganizationUpdate.slug.acceptsOptional slug
  | createProject _ name slug description =>
    ProjectCreate.name.accepts name && ProjectCreate.slug.accepts slug &&
      ProjectCreate.description.acceptsOptional description
  | updateProject _ _ name slug description =>
    ProjectUpdate.name.acceptsOptional name && ProjectUpdate.slug.acceptsOptional slug &&
      ProjectUpdate.description.acceptsOptional description
  | createEnvironment _ _ name => EnvironmentCreate.name.accepts name
  | createSecret _ _ keyName value =>
    SecretCreate.keyName.accepts keyName && SecretCreate.value.accepts value
  | rotateSecret _ _ _ value => SecretUpdate.value.accepts value
  | listAuditLogs _ limit _ => acceptsLimit limit
  | _ => true

/-- The address in the form that `EmailStr` returns. -/
def normalizeEmail (emailStr : String → Option String) : Request → Option Request
  | register email password fullName => (emailStr email).map (register · password fullName)
  | login email password => (emailStr email).map (login · password)
  | inviteMember orgId email role => (emailStr email).map (inviteMember orgId · role)
  | r => some r

/-- What the route is given of a request, or nothing when the answer is 422. -/
def validate (emailStr : String → Option String) (raw : Request) : Option Request :=
  (raw.normalizeEmail emailStr).filter fieldsAccepted

end Request

/-- The arguments that a route calls an operation with. -/
def Op.Accepted (emailStr : String → Option String) : Op → Prop
  | .register email password fullName => (∃ raw, emailStr raw = some email) ∧
      UserCreate.password.accepts password = true ∧
      UserCreate.fullName.acceptsOptional fullName = true
  | .createOrganization name slug _ =>
    OrganizationCreate.name.accepts name = true ∧ OrganizationCreate.slug.accepts slug = true
  | .updateOrganization _ _ name slug => OrganizationUpdate.name.acceptsOptional name = true ∧
      OrganizationUpdate.slug.acceptsOptional slug = true
  | .createProject _ name slug _ description => ProjectCreate.name.accepts name = true ∧
      ProjectCreate.slug.accepts slug = true ∧
      ProjectCreate.description.acceptsOptional description = true
  | .updateProject _ _ _ name slug description => ProjectUpdate.name.acceptsOptional name = true ∧
      ProjectUpdate.slug.acceptsOptional slug = true ∧
      ProjectUpdate.description.acceptsOptional description = true
  | .createEnvironment _ _ name _ => EnvironmentCreate.name.accepts name = true
  | .createSecret _ _ keyName plainValue _ => SecretCreate.keyName.accepts keyName = true ∧
      SecretCreate.value.accepts plainValue = true
  | .addNewVersion _ _ plainValue _ => SecretUpdate.value.accepts plainValue = true
  | _ => True

namespace Request
variable {emailStr : String → Option String} {raw r : Request} {currentUser : UUID} {op : Op}

theorem validate_fields (h : raw.validate emailStr = some r) : r.fieldsAccepted = true :=
  (Option.filter_eq_some_iff.mp h).2

/-- The address of a validated request is one that `EmailStr` returned. -/
theorem validate_email {email password : String} {fullName : Option String}
    (h : raw.validate emailStr = some (.register email password fullName)) :
    ∃ address, emailStr address = some email := by
  have hraw := (Option.filter_eq_some_iff.mp h).1
  cases raw <;> simp only [normalizeEmail, Option.map_eq_some_iff, Option.some.injEq,
    reduceCtorEq, and_false, exists_false] at hraw
  obtain ⟨_, haddress, heq⟩ := hraw
  cases heq
  exact ⟨_, haddress⟩

/-- What passes validation is what the operations are called with. -/
theorem validate_accepted (h : raw.validate emailStr = some r) :
    (r.op currentUser).Accepted emailStr := by
  have hfields := validate_fields h
  cases r
  case register =>
    simp only [fieldsAccepted, Bool.and_eq_true] at hfields
    exact ⟨validate_email h, hfields.2, hfields.1⟩
  all_goals
    simp only [fieldsAccepted, Bool.and_eq_true, and_assoc] at hfields
    first
      | exact hfields
      | trivial

end Request

/-- A slug: words of lower-case letters and digits between single hyphens. -/
def IsSlug (s : String) : Prop :=
  1 ≤ s.length ∧ s.length ≤ 63 ∧
    ∀ word ∈ s.toList.splitOn '-', word ≠ [] ∧ ∀ c ∈ word, c ∈ lowercase ++ digits

theorem accepts_slug_iff {s : String} : OrganizationCreate.slug.accepts s = true ↔ IsSlug s := by
  have hpattern : s.toList ∈ slugPattern.matches' ↔
      ∀ word ∈ s.toList.splitOn '-', word ≠ [] ∧ ∀ c ∈ word, c ∈ lowercase ++ digits :=
    mem_separated_words (by decide)
  rw [OrganizationCreate.slug, StringField.accepts_iff, hpattern, IsSlug]

/-- The name of an environment variable: it starts with a letter or an underscore. -/
def IsKeyName (s : String) : Prop :=
  1 ≤ s.length ∧ s.length ≤ 255 ∧
    ∃ c rest, s.toList = c :: rest ∧ c ∈ uppercase ++ ['_'] ∧
      ∀ x ∈ rest, x ∈ uppercase ++ digits ++ ['_']

theorem accepts_keyName_iff {s : String} :
    SecretCreate.keyName.accepts s = true ↔ IsKeyName s := by
  have hpattern : s.toList ∈ keyNamePattern.matches' ↔ ∃ c rest, s.toList = c :: rest ∧
      c ∈ uppercase ++ ['_'] ∧ ∀ x ∈ rest, x ∈ uppercase ++ digits ++ ['_'] := mem_anyOf_mul_star
  rw [SecretCreate.keyName, StringField.accepts_iff, hpattern, IsKeyName]

end EnvVault
