/-
A managed connection as the server names, stores and reports it (`managed.rs`,
`managed/identity.rs`, `managed/wire.rs`). What is written once is a `Connection`, what later
statements write are `Columns`.
-/
import SovereignConfig.Audit

namespace SovereignConfig.Managed

open Lib Text

/-! ## Names -/

def MIN_CONNECTION_ID_CHARS : ℕ := 16
def MAX_CONNECTION_ID_CHARS : ℕ := 64
def MAX_DISPLAY_NAME_CHARS : ℕ := 100

inductive ClientError where
  | invalid_connection
  | invalid_permissions
deriving DecidableEq

def connection_id_ok (value : Text) : Bool :=
  decide (MIN_CONNECTION_ID_CHARS ≤ byte_len value ∧ byte_len value ≤ MAX_CONNECTION_ID_CHARS)
    && value.all (fun c => c.isLower || c.isDigit)

structure ConnectionId where
  value : Text
  ok : connection_id_ok value = true
deriving DecidableEq

def ConnectionId.parse (value : Text) : Except ClientError ConnectionId :=
  if h : connection_id_ok value = true then .ok ⟨value, h⟩ else .error .invalid_connection

def ConnectionId.as_str (self : ConnectionId) : Text := self.value

/-- `value.trim() == value`: neither end is whitespace. -/
def trimmed (value : Text) : Bool :=
  !value.head?.any is_whitespace && !value.getLast?.any is_whitespace

def display_name_ok (value : Text) : Bool :=
  !value.isEmpty && trimmed value && decide (value.length ≤ MAX_DISPLAY_NAME_CHARS)
    && !value.any is_control

structure DisplayName where
  value : Text
  ok : display_name_ok value = true
deriving DecidableEq

def DisplayName.parse (value : Text) : Except ClientError DisplayName :=
  if h : display_name_ok value = true then .ok ⟨value, h⟩ else .error .invalid_connection

def DisplayName.as_str (self : DisplayName) : Text := self.value

inductive ManagedConnectionState where
  | Provisioning
  | Active
  | RotationUnknown
  | Revoking
  | CleanupRequired
deriving DecidableEq

inductive ManagedPermission where
  | Read
  | Write
  | Manage
deriving DecidableEq

def ManagedPermission.as_grant_token : ManagedPermission → Text
  | Read => "read".toList
  | Write => "write".toList
  | Manage => "manage".toList

structure ManagedPermissions where
  read : Bool
  write : Bool
  manage : Bool
  nonempty : (read || write || manage) = true
deriving DecidableEq

namespace ManagedPermissions

def iter (self : ManagedPermissions) : List ManagedPermission :=
  (if self.read then [.Read] else []) ++ (if self.write then [.Write] else [])
    ++ (if self.manage then [.Manage] else [])

def grant_tokens (self : ManagedPermissions) : List Text :=
  self.iter.map ManagedPermission.as_grant_token

def as_storage (self : ManagedPermissions) : Text := [','].intercalate self.grant_tokens

end ManagedPermissions

/-! ## Generated names -/

def USERNAME_PREFIX : Text := "sc-managed-".toList
def USERNAME_SLUG_MAX_CHARS : ℕ := 32

/-- The loop of `username_slug`, with the slug built so far. -/
def slug_loop (slug : Text) : Text → Text
  | [] => slug
  | character :: rest =>
    let lower := character.toLower
    if lower.isAlphanum then
      if slug.length ≥ USERNAME_SLUG_MAX_CHARS then slug else slug_loop (slug ++ [lower]) rest
    else if !slug.isEmpty && slug.getLast? != some '-'
        && decide (slug.length < USERNAME_SLUG_MAX_CHARS) then
      slug_loop (slug ++ ['-']) rest
    else slug_loop slug rest

def username_slug (display_name : Text) : Text :=
  (slug_loop [] display_name).rdropWhile (· == '-')

def managed_username (connection_id : ConnectionId) (display_name : Text) : Text :=
  let slug := username_slug display_name
  if slug.isEmpty then USERNAME_PREFIX ++ connection_id.as_str
  else USERNAME_PREFIX ++ slug ++ '-' :: connection_id.as_str

/-! ## Statuses -/

def invalid_request : Status := .invalid_argument "managed connection request is invalid"
def not_found : Status := .not_found "managed connection not found"
def conflict_error : Status := .aborted "managed connection operation is already in progress"
def dependency_error : Status := .unavailable "managed connection dependency is unavailable"
def internal_error : Status := .internal "managed connection state is invalid"
def CLEANUP_MESSAGE : String := "managed connection requires cleanup"

/-! ## Rows -/

structure Connection where
  connection_id : ConnectionId
  display_name : DisplayName
  root : ConfigPath
  permissions : ManagedPermissions
deriving DecidableEq

def Connection.username (self : Connection) : Text :=
  managed_username self.connection_id self.display_name.as_str

structure Columns where
  provider_user_id : Option Text
  provider_user_uid : Option Text
  credential_identifier : Option Text
  state : ManagedConnectionState
  created_at : OffsetDateTime
  updated_at : OffsetDateTime
deriving DecidableEq

structure ConnectionRow where
  connection : Connection
  columns : Columns
deriving DecidableEq

structure ConnectionMetadata where
  connection_id : Text
  display_name : Text
  root : Text
  state : ManagedConnectionState
  permissions : ManagedPermissions
  created_at : Timestamp
  updated_at : Timestamp
deriving DecidableEq

def metadata (row : ConnectionRow) : ConnectionMetadata :=
  ⟨row.connection.connection_id.as_str, row.connection.display_name.as_str,
    row.connection.root.as_str, row.columns.state, row.connection.permissions,
    to_timestamp row.columns.created_at, to_timestamp row.columns.updated_at⟩

def Connection.subject (self : Connection) : ConnectionSubject :=
  ⟨self.root.as_str, self.display_name.as_str, self.connection_id.as_str⟩

end SovereignConfig.Managed
