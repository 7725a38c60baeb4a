import NovaBase.Core.Error
import NovaBase.Core.Path
import NovaBase.Lib.Bytes
import NovaBase.Lib.SortedMap

/-!
# Users, sessions and roles

The authentication service keeps users with their password hashes and roles, and
the user that each bearer token belongs to. Hashing a password and drawing a
token are the work of other libraries and of the operating system, so a call
carries what they give.
-/

namespace NovaBase.Auth

open Lib Lib.Bytes

/-- Coarse database roles enforced before query execution. -/
inductive Role
  | readOnly
  | readWrite
  | admin
  deriving DecidableEq

/-- Operation classes understood by authorization. -/
inductive Permission
  | read
  | write
  | manage
  deriving DecidableEq

namespace Role

/-- Whether this role grants a permission. -/
def allows : Role → Permission → Bool
  | .readOnly, permission => permission = .read
  | .readWrite, permission => permission = .read || permission = .write
  | .admin, _ => true

/-- The name of a role in messages. -/
def name : Role → String
  | .readOnly => "ReadOnly"
  | .readWrite => "ReadWrite"
  | .admin => "Admin"

end Role

/-- The name of a permission in messages. -/
def Permission.name : Permission → String
  | .read => "Read"
  | .write => "Write"
  | .manage => "Manage"

/-- Authenticated identity returned by successful authorization. -/
structure Principal where
  username : String
  role : Role
  deriving DecidableEq

/-- What is kept of a user. A disabled user can neither log in nor act. -/
structure UserRecord where
  passwordHash : String
  role : Role
  enabled : Bool

/-- The verification of passwords against stored hashes. -/
class PasswordHashing where
  /-- Why a text is not a password hash, if it is not one. -/
  parseError : String → Option String
  verify : String → String → Bool

/-- Shorter passwords are refused. -/
def minPasswordBytes : Nat := 8

/-- Longer passwords are refused, before they are hashed. -/
def maxPasswordBytes : Nat := 1024

/-- Authentication and deterministic role authorization. -/
structure AuthService where
  users : SortedMap String UserRecord
  sessions : SortedMap String String
  dummyHash : String

section Validation

variable [CharacterTables]

/-- A username has between 1 and 64 bytes, and letters, digits and underscores only. -/
def validateUsername (username : String) : Result Unit :=
  require (username.isEmpty = false ∧ (utf8 username).length ≤ 64 ∧
      username.toList.all fun c => c == '_' || isAlphanumeric c)
    (NovaError.invalidArgument [.text "invalid username ", .debug username])

end Validation

/-- The length of a password is counted in bytes. -/
def validatePassword (password : String) : Result Unit :=
  require (minPasswordBytes ≤ (utf8 password).length ∧ (utf8 password).length ≤ maxPasswordBytes)
    (NovaError.invalidArgument
      s!"password must be {minPasswordBytes} through {maxPasswordBytes} UTF-8 bytes")

/-- The answer about a user that does not exist. -/
def unknownUser (username : String) : NovaError := .notFound [.text "user ", .debug username]

/-- An unknown token, a vanished user and a disabled one are refused alike. -/
def invalidSession : NovaError := .auth "invalid or expired session"

namespace AuthService

/-- An empty service, and the hash that passwords of unknown users are checked against. -/
def new (dummyHash : Result String) : Result AuthService := do
  return ⟨.empty, .empty, ← dummyHash⟩

/-- The hash that a password is checked against, and whether the user may log in at all. -/
def credentials (username : String) (service : AuthService) : String × Bool :=
  match service.users.get username with
  | none => (service.dummyHash, false)
  | some user => (user.passwordHash, user.enabled)

variable [CharacterTables] [PasswordHashing]

/-- Add a user with the hash of the password. -/
def createUser (username password : String) (role : Role) (passwordHash : Result String)
    (service : AuthService) : Result AuthService := do
  validateUsername username
  validatePassword password
  let passwordHash ← passwordHash
  require (service.users.contains username = false)
    (NovaError.alreadyExists [.text "user ", .debug username])
  return { service with users := service.users.insert username ⟨passwordHash, role, true⟩ }

/-- Verify credentials and create a session. Unknown, disabled, and wrong-password cases give the
same error. -/
def authenticate (username password : String) (randomToken : Result String)
    (service : AuthService) : Result (String × AuthService) := do
  let (encoded, validUser) := service.credentials username
  match PasswordHashing.parseError encoded with
  | some error => .error (.internal s!"stored password hash invalid: {error}")
  | none =>
      let verified := PasswordHashing.verify password encoded
      require (validUser = true ∧ verified = true) (NovaError.auth "invalid credentials")
      let token ← randomToken
      return (token, { service with sessions := service.sessions.insert token username })

/-- Resolve a bearer token and check its role. -/
def authorize (token : String) (permission : Permission) (service : AuthService) :
    Result Principal :=
  match service.sessions.get token with
  | none => .error invalidSession
  | some username =>
      match (service.users.get username).filter UserRecord.enabled with
      | none => .error invalidSession
      | some user => do
          require (user.role.allows permission = true) (NovaError.permissionDenied
            s!"role {user.role.name} does not grant {permission.name}")
          return ⟨username, user.role⟩

/-- Revoke one bearer session. -/
def revoke (token : String) (service : AuthService) : AuthService :=
  { service with sessions := service.sessions.remove token }

/-- End all sessions of a user. -/
def revokeUserSessions (username : String) (service : AuthService) : AuthService :=
  { service with
    sessions := service.sessions.retain fun owner => if owner = username then none else some owner }

/-- Change the record of a user. -/
def updateUser (username : String) (change : UserRecord → UserRecord) (service : AuthService) :
    Result AuthService :=
  match service.users.get username with
  | none => .error (unknownUser username)
  | some user => .ok { service with users := service.users.insert username (change user) }

/-- Change a user's role and revoke every existing session for that user. -/
def setRole (username : String) (role : Role) (service : AuthService) : Result AuthService := do
  let service ← service.updateUser username fun user => { user with role := role }
  return service.revokeUserSessions username

/-- Enable or disable a user, revoking sessions when disabled. -/
def setEnabled (username : String) (enabled : Bool) (service : AuthService) :
    Result AuthService := do
  let service ← service.updateUser username fun user => { user with enabled := enabled }
  return if enabled then service else service.revokeUserSessions username

/-- Replace a password and revoke every existing session for the user. -/
def changePassword (username password : String) (passwordHash : Result String)
    (service : AuthService) : Result AuthService := do
  validatePassword password
  let passwordHash ← passwordHash
  let service ← service.updateUser username fun user => { user with passwordHash := passwordHash }
  return service.revokeUserSessions username

end AuthService

end NovaBase.Auth
