import Mathlib.Data.Finset.Union

/-!
# The authorization service

Roles carry permissions, users carry roles, and what a user may do is the union of what its roles carry,
or what a guest may do when that is nothing. A check reads the cache, and otherwise fetches the
permissions and writes them to the cache; these are separate steps, and a fetch takes the locks that a
change of roles holds until the user's cache entry is deleted.

Reference: `backbone-authorization/src/service.rs`, `backbone-authorization/src/cache.rs` and
`backbone-authorization/src/types.rs`.
-/

namespace Backbone.Authorization

inductive UserAction where
  | create | read | update | delete | list | resetPassword | changeRole
deriving DecidableEq, Repr

inductive RoleAction where
  | create | read | update | delete | list | assignPermission | revokePermission
deriving DecidableEq, Repr

inductive PermissionAction where
  | create | read | update | delete | list
deriving DecidableEq, Repr

inductive SettingsAction where
  | create | read | update | delete | list
deriving DecidableEq, Repr

inductive Permission where
  | user (action : UserAction)
  | role (action : RoleAction)
  | permission (action : PermissionAction)
  | settings (action : SettingsAction)
deriving DecidableEq, Repr

def UserAction.all : List UserAction :=
  [.create, .read, .update, .delete, .list, .resetPassword, .changeRole]

def RoleAction.all : List RoleAction :=
  [.create, .read, .update, .delete, .list, .assignPermission, .revokePermission]

def PermissionAction.all : List PermissionAction := [.create, .read, .update, .delete, .list]

def SettingsAction.all : List SettingsAction := [.create, .read, .update, .delete, .list]

def Permission.allPermissions : Finset Permission :=
  (UserAction.all.map Permission.user ++ RoleAction.all.map Permission.role ++
    PermissionAction.all.map Permission.permission ++
    SettingsAction.all.map Permission.settings).toFinset

/-- `matches!(p, Permission::User(_))`. -/
def Permission.isUser : Permission → Bool
  | .user _ => true
  | _ => false

/-- `AuthorizationConfig`. -/
structure AuthorizationConfig where
  cacheTtlSeconds : UInt64
  enablePermissionCaching : Bool

/-! ## The cache -/

/-! An instant, `chrono::DateTime<Utc>`, is its nanoseconds since the epoch. -/

def nanosPerSecond : ℤ := 1000000000

/-- `chrono::Duration::seconds` panics on more seconds than this, either way. -/
def maxDurationSeconds : ℤ := 9223372036854775

/-- `DateTime::<Utc>::MIN_UTC` and `MAX_UTC`. -/
def minUtc : ℤ := -8334601228800 * nanosPerSecond
def maxUtc : ℤ := 8210266876800 * nanosPerSecond - 1

/-- `Utc::now() + Duration::seconds(ttl_seconds as i64)`, or a panic. -/
def cacheExpiry (now : ℤ) (ttl : UInt64) : Option ℤ :=
  let seconds := ttl.toBitVec.toInt
  let expiresAt := now + seconds * nanosPerSecond
  if -maxDurationSeconds ≤ seconds ∧ seconds ≤ maxDurationSeconds ∧
      minUtc ≤ expiresAt ∧ expiresAt ≤ maxUtc then
    some expiresAt
  else none

/-- `CachedEntry`. -/
structure CachedEntry where
  permissions : Finset Permission
  expiresAt : ℤ

/-! ## The service -/

/-- How far a check is. -/
inductive Phase where
  /-- It is to read the cache. -/
  | reading
  | fetching
  /-- It has fetched, and is to ask for the time at which the entry will expire. -/
  | stamping (permissions : Finset Permission)
  /-- It is to write the entry. -/
  | writing (permissions : Finset Permission) (expiresAt : ℤ)
  | answered (permissions : Finset Permission)
  | panicked
deriving DecidableEq

/-- A call of `get_cached_permissions`. What it answers is the answer of `get_user_permissions`, and
`check_authorization` and `user_has_permission` look the required permission up in it. -/
structure Check where
  user : String
  phase : Phase
deriving DecidableEq

/-- The holder of the write lock of `user_roles`, and whose cache entry it is to delete. -/
inductive RoleChange where
  | assigning (user : String)
  | removing (user : String)
deriving DecidableEq

def RoleChange.user : RoleChange → String
  | .assigning u | .removing u => u

structure AuthorizationService where
  rolePermissions : String → Finset Permission
  userRoles : String → Finset String
  /-- The write lock of `user_roles`. -/
  writer : Option RoleChange
  cache : String → Option CachedEntry
  checks : ℕ → Option Check
  clock : ℤ
  /-- The task that inserts the default roles has run. -/
  initialized : Bool

inductive Act where
  /-- `initialize_default_roles_static`. -/
  | initializeDefaultRoles
  | grantPermissionToRole (role : String) (permission : Permission)
  | revokePermissionFromRole (role : String) (permission : Permission)
  /-- `assign_role_to_user` changes the roles under the write lock. -/
  | assignRoleToUser (user role : String)
  /-- `remove_role_from_user` changes the roles under the write lock. -/
  | removeRoleFromUser (user role : String)
  /-- Either of them deletes the user's cache entry and returns. -/
  | clearUserCache
  | check (i : ℕ) (user : String)
  | cacheGet (i : ℕ)
  | fetch (i : ℕ)
  | stamp (i : ℕ)
  | cacheSet (i : ℕ)
  | elapse (nanos : ℕ)

namespace AuthorizationService

def new (now : ℤ) : AuthorizationService where
  rolePermissions _ := ∅
  userRoles _ := ∅
  writer := none
  cache _ := none
  checks _ := none
  clock := now
  initialized := false

/-- The default roles, which replace roles of these names. -/
def defaultRoles (rolePermissions : String → Finset Permission) (role : String) : Finset Permission :=
  if role = "super_admin" then Permission.allPermissions
  else if role = "admin" then
    Permission.allPermissions.filter fun p => !p.isUser
  else if role = "user" then {.user .read, .settings .read, .role .read, .permission .read}
  else if role = "guest" then {.user .read, .settings .read}
  else rolePermissions role

/-- Both read locks are held together at its end. -/
def fetchUserPermissions (s : AuthorizationService) (user : String) : Finset Permission :=
  let permissions := (s.userRoles user).biUnion s.rolePermissions
  if permissions = ∅ then s.rolePermissions "guest" else permissions

/-- `InMemoryPermissionCache::get`. -/
def cached (s : AuthorizationService) (user : String) : Option (Finset Permission) :=
  match s.cache user with
  | some entry => if s.clock < entry.expiresAt then some entry.permissions else none
  | none => none

def setPhase (s : AuthorizationService) (i : ℕ) (user : String) (phase : Phase) :
    AuthorizationService :=
  { s with checks := Function.update s.checks i (some ⟨user, phase⟩) }

/-- One step; what cannot happen leaves everything as it is. -/
def step (config : AuthorizationConfig) (s : AuthorizationService) : Act → AuthorizationService
  | .initializeDefaultRoles =>
    if s.initialized then s
    else { s with rolePermissions := defaultRoles s.rolePermissions, initialized := true }
  | .grantPermissionToRole role p =>
    { s with rolePermissions :=
        Function.update s.rolePermissions role (insert p (s.rolePermissions role)) }
  | .revokePermissionFromRole role p =>
    { s with rolePermissions :=
        Function.update s.rolePermissions role ((s.rolePermissions role).erase p) }
  | .assignRoleToUser user role =>
    match s.writer with
    | none =>
      { s with
        userRoles := Function.update s.userRoles user (insert role (s.userRoles user))
        writer := some (.assigning user) }
    | some _ => s
  | .removeRoleFromUser user role =>
    match s.writer with
    | none =>
      { s with
        userRoles := Function.update s.userRoles user ((s.userRoles user).erase role)
        writer := some (.removing user) }
    | some _ => s
  | .clearUserCache =>
    match s.writer with
    | some change => { s with cache := Function.update s.cache change.user none, writer := none }
    | none => s
  | .check i user =>
    match s.checks i with
    | none => s.setPhase i user (if config.enablePermissionCaching then .reading else .fetching)
    | some _ => s
  | .cacheGet i =>
    match s.checks i with
    | some ⟨user, .reading⟩ =>
      match s.cached user with
      | some permissions => s.setPhase i user (.answered permissions)
      | none => s.setPhase i user .fetching
    | _ => s
  | .fetch i =>
    match s.checks i, s.writer with
    | some ⟨user, .fetching⟩, none =>
      let permissions := s.fetchUserPermissions user
      s.setPhase i user
        (if config.enablePermissionCaching then .stamping permissions else .answered permissions)
    | _, _ => s
  | .stamp i =>
    match s.checks i with
    | some ⟨user, .stamping permissions⟩ =>
      match cacheExpiry s.clock config.cacheTtlSeconds with
      | some expiresAt => s.setPhase i user (.writing permissions expiresAt)
      | none => s.setPhase i user .panicked
    | _ => s
  | .cacheSet i =>
    match s.checks i with
    | some ⟨user, .writing permissions expiresAt⟩ =>
      { s with cache := Function.update s.cache user (some ⟨permissions, expiresAt⟩) }.setPhase i user
        (.answered permissions)
    | _ => s
  | .elapse nanos => { s with clock := s.clock + nanos }

end AuthorizationService

end Backbone.Authorization
