/-
`managed/service.rs` and `managed/provisioning.rs`: create, rotate and revoke as calls. The
generated identifier is an input of `create`; waiting between probes is left out.
-/
import SovereignConfig.Managed.Store

namespace SovereignConfig.Managed

open Lib Text Base64

abbrev Service (α : Type) := Call Request Request.Answer Status α

/-! ## Storage, one statement each -/

namespace store

def query (statement : Statement) : Service statement.Row := .ask (.storage statement) .done

def insert_provisioning (connection : Connection) : Service Unit :=
  query (.insert_provisioning connection)

def record_provider_user (account : ProvisionedAccount) : Service Unit :=
  query (.record_provider_user account)

def record_credential_identifier (credential_identifier : CredentialId) : Service Unit :=
  query (.record_credential_identifier credential_identifier)

def transition_state (expected_state state : ManagedConnectionState) :
    Service (Option ConnectionRow) :=
  query (.transition_state expected_state state)

def transition_state_recorded (expected_state state : ManagedConnectionState) (actor : Actor)
    (event : AuditEvent) : Service (Option ConnectionRow) :=
  query (.transition_state_recorded expected_state state actor event)

def delete_connection : Service Unit := query .delete_connection

def delete_connection_recorded (actor : Actor) (event : AuditEvent) : Service Unit :=
  query (.delete_connection_recorded actor event)

def begin_rotation (principal : AuthenticatedPrincipal) : Service ConnectionRow :=
  query (.begin_rotation principal)

def claim_for_revocation (principal : AuthenticatedPrincipal) : Service ConnectionRow :=
  query (.claim_for_revocation principal)

/-- `delete_row`: whether the deletion went through. -/
def delete_row : Service Bool := do
  let deleted ← delete_connection.attempt
  return deleted.toBool

end store

/-! ## The provider, one call each -/

namespace provider

def request (call : ProviderCall) : Service call.Answer :=
  .ask (.provider call) fun answer => .done (.ok answer)

def create_account (username : Text) : Service (Except ProviderError ProvisionedAccount) :=
  request (.create_account username)

def grant (account : AccountId) (grant : AccountGrant) : Service (Except ProviderError Unit) :=
  request (.grant account grant)

def assign_browse_group (account : AccountId) : Service (Except ProviderError Unit) :=
  request (.assign_browse_group account)

def find_account (username : Text) : Service (Except ProviderError (Option AccountId)) :=
  request (.find_account username)

def find_credentials (username : Text) : Service (Except ProviderError (List CredentialId)) :=
  request (.find_credentials username)

def replace_credential (credential : CredentialId) :
    Service (Except ProviderError ClientCredential) :=
  request (.replace_credential credential)

def delete_account (account : AccountId) : Service (Except ProviderError Unit) :=
  request (.delete_account account)

end provider

abbrev ConnectionUrl := Connection.ConnectionUrl

/-- The URL of `username` with the credential; irreducible, so that no proof evaluates its text. -/
@[irreducible] def ConnectionUrl.managed (settings : ManagedSettings) (root : ConfigPath)
    (username : Text) (credential : ClientCredential) : Except Status ConnectionUrl :=
  (Connection.ConnectionUrl.managed settings.url_crate settings.public_origin root settings.issuer
    credential.client_id username credential.secret).mapError fun _ => internal_error

/-- The URL hands its client the credential: the secret follows the first colon of the pair that
the client sends. -/
def ConnectionUrl.Carries (self : ConnectionUrl) (credential : ClientCredential) : Prop :=
  self.client_id = credential.client_id ∧ ∃ username, ':' ∉ username ∧
    self.client_authentication =
      some (STANDARD.encode (as_bytes (username ++ ':' :: credential.secret)))

theorem managed_carries {settings : ManagedSettings} {root : ConfigPath} {username : Text}
    {credential : ClientCredential} {url : ConnectionUrl}
    (h : ConnectionUrl.managed settings root username credential = .ok url) :
    url.Carries credential := by
  rw [ConnectionUrl.managed, mapError_eq_ok] at h
  obtain ⟨huse, -⟩ := Connection.managed_eq_ok settings.url_crate h
  obtain ⟨-, -, -, hcli, haut⟩ := Connection.managed_parts settings.url_crate h
  exact ⟨hcli, username, huse, haut⟩

theorem carries_secret {url : ConnectionUrl} {credential credential' : ClientCredential}
    (h : url.Carries credential) (h' : url.Carries credential') :
    credential.secret = credential'.secret := by
  obtain ⟨-, username, huse, haut⟩ := h
  obtain ⟨-, username', huse', haut'⟩ := h'
  have henc := STANDARD.encode_injective (Option.some.inj (haut.symm.trans haut'))
  exact (split_unique huse huse' (as_bytes_injective henc)).2

structure ProvisionedConnection where
  metadata : ConnectionMetadata
  connection_url : ConnectionUrl
deriving DecidableEq

/-! ## Provisioning -/

def CREATE_RECONCILIATION_ATTEMPTS : ℕ := 3

/-- Whether no credential remains for the username; `none` when the provider could not say. -/
def credential_gone (username : Text) : Service (Option Bool) := do
  match ← provider.find_credentials username with
  | .ok identifiers => return some identifiers.isEmpty
  | .error _ => return none

def credential_is_gone (username : Text) : Service Bool := do
  let gone ← credential_gone username
  return gone == some true

def cleanup_required : Service Status := do
  let _ ← (store.transition_state .Provisioning .CleanupRequired).attempt
  return .unavailable CLEANUP_MESSAGE

def compensate_created_account (account : AccountId) (failure : Status) : Service Status := do
  match ← provider.delete_account account with
  | .ok () | .error .NotFound =>
    if ← store.delete_row then return failure else cleanup_required
  | .error _ => cleanup_required

def reconcile (username : Text) : ℕ → Service Status
  | 0 => cleanup_required
  | attempts + 1 => do
    match ← provider.find_account username with
    | .ok (some account) => compensate_created_account account dependency_error
    | .ok none => reconcile username attempts
    | .error _ => cleanup_required

def recover_ambiguous_create (username : Text) (error : ProviderError) : Service Status :=
  if error ≠ .Ambiguous ∧ error ≠ .Invalid then do
    let _ ← store.delete_row
    return dependency_error
  else reconcile username CREATE_RECONCILIATION_ATTEMPTS

def configure_account (connection : Connection) (username : Text) (account : AccountId) :
    Service Unit := do
  match ← provider.find_credentials username with
  | .ok [credential_identifier] =>
    store.record_credential_identifier credential_identifier
    let grant : AccountGrant := ⟨connection.connection_id.as_str, connection.display_name.as_str,
      connection.root.as_str, connection.permissions.grant_tokens⟩
    match ← provider.grant account grant with
    | .ok () =>
      -- The browsing group is a convenience: its failure never fails the connection.
      let _ ← provider.assign_browse_group account
      return ()
    | .error _ => Call.fail dependency_error
  | .ok _ => Call.fail dependency_error
  | .error _ => Call.fail dependency_error

def complete_provisioning (settings : ManagedSettings) (connection : Connection)
    (username : Text) (account : ProvisionedAccount) (actor : Actor) (event : AuditEvent) :
    Service (ConnectionRow × ConnectionUrl) := do
  store.record_provider_user account
  configure_account connection username account.account
  let connection_url ←
    Call.lift (ConnectionUrl.managed settings connection.root username account.credential)
  match ← store.transition_state_recorded .Provisioning .Active actor event with
  | some row => return (row, connection_url)
  | none => Call.fail internal_error

def provision_inserted (settings : ManagedSettings) (connection : Connection) (username : Text)
    (actor : Actor) (event : AuditEvent) : Service ProvisionedConnection := do
  match ← provider.create_account username with
  | .ok account =>
    match ← (complete_provisioning settings connection username account actor event).attempt with
    | .ok (row, connection_url) => return ⟨metadata row, connection_url⟩
    | .error status =>
      let status ← compensate_created_account account.account status
      Call.fail status
  | .error error =>
    let status ← recover_ambiguous_create username error
    Call.fail status

/-! ## The operations -/

def required_permission : ManagedPermission → Permission
  | .Read => .Read
  | .Write => .Write
  | .Manage => .Manage

structure CreateRequest where
  context : CallContext
  display_name : Text
  root : Text
  permissions : Option ManagedPermissions

/-- The checks of `create`, in its order: the connection it will insert and who asked for it. -/
def authorize_create (generated : Except Status ConnectionId) (request : CreateRequest) :
    Except Status (Connection × Actor) := do
  let principal ← request.context.principal
  let actor ← request.context.actor
  let display_name ← (DisplayName.parse request.display_name).mapError fun _ => invalid_request
  let root ← (ConfigPath.parse_selection request.root).mapError fun _ => invalid_request
  let root := root.folded
  let permissions ← request.permissions.elim (.error invalid_request) .ok
  if !principal.allows root .Manage
      || permissions.iter.any (fun permission =>
        !principal.allows root (required_permission permission)) then
    .error (.permission_denied "configuration operation is not permitted")
  else do
    let connection_id ← generated
    return (⟨connection_id, display_name, root, permissions⟩, actor)

def create (settings : ManagedSettings) (generated : Except Status ConnectionId)
    (request : CreateRequest) : Service ProvisionedConnection := do
  let (connection, actor) ← Call.lift (authorize_create generated request)
  store.insert_provisioning connection
  provision_inserted settings connection connection.username actor
    (.connection_created actor connection.subject connection.permissions.as_storage)

def settled_state (credential_gone : Bool) : ManagedConnectionState :=
  if credential_gone then .CleanupRequired else .Active

def settle_failed_rotation (username : Text) (error : ProviderError) : Service Unit := do
  let credential_gone ← match error with
    | .Unavailable => pure (some false)
    | .Rejected => credential_gone username
    | .NotFound => pure (some true)
    | .Ambiguous | .Invalid => pure none
  match credential_gone with
  | none => return ()
  | some credential_gone =>
    let _ ← (store.transition_state .RotationUnknown (settled_state credential_gone)).attempt
    return ()

def rotate (settings : ManagedSettings) (context : CallContext) (connection_id : Text) :
    Service ProvisionedConnection := do
  let connection_id ←
    Call.lift ((ConnectionId.parse connection_id).mapError fun _ => invalid_request)
  let principal ← Call.lift context.principal
  let row ← store.begin_rotation principal
  let actor ← Call.lift context.actor
  let credential ← Call.lift (row.credential.elim (.error internal_error) .ok)
  let username := managed_username connection_id row.connection.display_name.as_str
  match ← provider.replace_credential credential with
  | .error error =>
    settle_failed_rotation username error
    Call.fail dependency_error
  | .ok replacement =>
    let connection_url ←
      Call.lift (ConnectionUrl.managed settings row.connection.root username replacement)
    let event := AuditEvent.connection_rotated actor row.connection.subject
    match ← store.transition_state_recorded .RotationUnknown .Active actor event with
    | none => Call.fail dependency_error
    | some row => return ⟨metadata row, connection_url⟩

def revocation_target (row : ConnectionRow) (username : Text) : Service (Option AccountId) :=
  match row.account with
  | some account => return some account
  | none => do
    match ← provider.find_account username with
    | .ok found => return found
    | .error _ =>
      if ← credential_is_gone username then return none else Call.fail dependency_error

def delete_account_confirmed (account : AccountId) (username : Text) : Service Unit := do
  match ← provider.delete_account account with
  | .ok () => return ()
  | .error _ => if ← credential_is_gone username then return () else Call.fail dependency_error

def revoke (context : CallContext) (connection_id : Text) : Service Unit := do
  let connection_id ←
    Call.lift ((ConnectionId.parse connection_id).mapError fun _ => invalid_request)
  let principal ← Call.lift context.principal
  let row ← store.claim_for_revocation principal
  let actor ← Call.lift context.actor
  let username := managed_username connection_id row.connection.display_name.as_str
  match ← revocation_target row username with
  | none => pure ()
  | some account => delete_account_confirmed account username
  store.delete_connection_recorded actor
    (.connection_revoked actor row.connection.subject)

inductive Reply where
  | provisioned (connection : ProvisionedConnection)
  | revoked
deriving DecidableEq

structure Callers where
  create : CreateRequest
  rotate : ℕ → CallContext
  revoke : ℕ → CallContext

def operation (settings : ManagedSettings) (connection : Connection) (callers : Callers) :
    CallId → Service Reply
  | .create => Reply.provisioned <$>
      create settings (.ok connection.connection_id) callers.create
  | .rotate n => Reply.provisioned <$>
      rotate settings (callers.rotate n) connection.connection_id.as_str
  | .revoke n => (fun _ => Reply.revoked) <$>
      revoke (callers.revoke n) connection.connection_id.as_str

/-! ### A connection to run them on -/

def sample_settings : ManagedSettings where
  public_origin := "https://a/".toList
  issuer := "https://a/".toList
  rotation_lease := 10
  url_crate := Connection.sample_crate

def sample_connection : Connection where
  connection_id := ⟨"0123456789abcdef".toList, by decide⟩
  display_name := ⟨"Build".toList, by decide⟩
  root := .root
  permissions := ⟨true, false, false, rfl⟩

def sample_callers : Callers where
  create := ⟨operator, "Build".toList, "/".toList, some ⟨true, false, false, rfl⟩⟩
  rotate := fun _ => operator
  revoke := fun _ => operator

def operator_actor : Actor := ⟨"operator".toList, none, "v5".toList⟩

def sample_account : AccountId := ⟨"7".toList, by decide⟩

def sample_value : ClientCredential := ⟨"client".toList, "secret".toList, by decide⟩

def sample_provisioned : ProvisionedAccount := ⟨sample_account, "uid".toList, sample_value⟩

def sample_credential : CredentialId := ⟨"token".toList, by decide⟩

def sample_provider_account : ProviderAccount := ⟨sample_account, sample_credential, sample_value⟩

def first_replacement : ClientCredential := ⟨"client".toList, "first".toList, by decide⟩

def second_replacement : ClientCredential := ⟨"client".toList, "second".toList, by decide⟩

def sample_url (credential : ClientCredential) : ConnectionUrl :=
  let pair := as_bytes (sample_connection.username ++ ':' :: credential.secret)
  ⟨Connection.serialize "https://a".toList .root sample_settings.issuer credential.client_id
    (some (URL_SAFE_NO_PAD.encode pair)), "https://a".toList, .root, sample_settings.issuer,
    credential.client_id, some (STANDARD.encode pair)⟩

theorem sample_managed : ∀ credential ∈ [sample_value, first_replacement, second_replacement],
    ConnectionUrl.managed sample_settings .root sample_connection.username credential =
      .ok (sample_url credential) := by
  decide +kernel

section Given

variable {credential : ClientCredential}
  (h : credential ∈ [sample_value, first_replacement, second_replacement])
include h

theorem sample_carries : (sample_url credential).Carries credential :=
  managed_carries (sample_managed credential h)

theorem sample_given {α : Type} {f : ConnectionUrl → Service α} :
    (Call.done (ConnectionUrl.managed sample_settings .root sample_connection.username
      credential)).bind f = f (sample_url credential) := by
  rw [sample_managed credential h]
  rfl

end Given

def empty_world : World := ⟨0, ⟨none, []⟩, none⟩

def active_columns : Columns :=
  ⟨some sample_account.as_str, some "uid".toList, some sample_credential.as_str, .Active, 0, 0⟩

def active_world : World := ⟨0, ⟨some active_columns, []⟩, some sample_provider_account⟩

example : authorize_create (.ok sample_connection.connection_id) sample_callers.create
    = .ok (sample_connection, operator_actor) := rfl

end SovereignConfig.Managed
