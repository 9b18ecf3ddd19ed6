/-
Creating a connection does not escalate: the grant `create` puts into the account's tokens, read
back from a token, allows nothing that the caller is not allowed.
-/
import SovereignConfig.Managed.Service

namespace SovereignConfig.Managed

open Lib Text List Function

/-! ## What a grant allows -/

/-- `Permission` as a token spells it. -/
def permission_of_token (token : Text) : Option Permission :=
  if token = "read".toList then some .Read
  else if token = "write".toList then some .Write
  else if token = "manage".toList then some .Manage
  else none

def AccountGrant.held (self : AccountGrant) : Option (List Grant) := do
  let permissions ← self.permissions.mapM permission_of_token
  (validate_grants [⟨self.root, permissions⟩]).toOption

theorem allows_below {principal : AuthenticatedPrincipal} {root path : ConfigPath}
    {permission : Permission} (hbel : AtOrBelow path root)
    (h : principal.allows root permission = true) : principal.allows path permission = true := by
  obtain ⟨grant, hgra, hper, hcov⟩ := (allows_iff _ _ _).mp h
  exact (allows_iff _ _ _).mpr ⟨grant, hgra, hper,
    at_or_below_trans ((at_or_below_fold path root).mpr hbel) hcov⟩

theorem permissions_of_grant_tokens (permissions : ManagedPermissions) :
    permissions.grant_tokens.mapM permission_of_token =
      some (permissions.iter.map required_permission) := by
  have htok : ∀ p : ManagedPermission,
      permission_of_token p.as_grant_token = some (required_permission p) := by
    intro p
    cases p <;> decide
  rw [ManagedPermissions.grant_tokens, mapM_map]
  induction permissions.iter with
  | nil => rfl
  | cons p rest ih =>
    rw [mapM_cons, comp_apply, htok, ih]
    rfl

def Connection.grant (self : Connection) : AccountGrant :=
  ⟨self.connection_id.as_str, self.display_name.as_str, self.root.as_str,
    self.permissions.grant_tokens⟩

theorem ManagedPermissions.iter_ne_nil (self : ManagedPermissions) : self.iter ≠ [] := by
  obtain ⟨read, write, manage, hnon⟩ := self
  revert hnon
  cases read <;> cases write <;> cases manage <;> simp [iter]

theorem held_allows (connection : Connection) : ∃ grants, connection.grant.held = some grants ∧
    ∀ subject name path permission,
      AuthenticatedPrincipal.allows ⟨subject, name, grants⟩ path permission = true ↔
        (∃ p ∈ connection.permissions.iter, required_permission p = permission) ∧
          AtOrBelow path connection.root := by
  have hpar : ConfigPath.parse_selection connection.root.as_str = .ok connection.root :=
    parse_selection_as_str connection.root
  have hval : ∃ grants, validate_grants [⟨connection.root.as_str,
      connection.permissions.iter.map required_permission⟩] = .ok grants := by
    have hne : (connection.permissions.iter.map required_permission).isEmpty = false := by
      simpa using connection.permissions.iter_ne_nil
    simp only [validate_grants, merge_grants, canonical_prefix, hpar, hne, Bool.false_eq_true,
      if_false, bind, Except.bind]
    exact ⟨_, rfl⟩
  obtain ⟨grants, hgra⟩ := hval
  refine ⟨grants, ?_, fun subject name path permission => ?_⟩
  · simp only [AccountGrant.held, Connection.grant, permissions_of_grant_tokens,
      Option.bind_eq_bind, Option.bind_some, hgra]
    rfl
  · rw [allows_validated hgra]
    simp only [mem_singleton, exists_eq_left, mem_map, hpar, Except.ok.injEq,
      exists_eq_left']

/-! ## What `create` asks for -/

/-- The caller manages `root` and holds there every permission to be granted. -/
def Entitled (principal : AuthenticatedPrincipal) (root : ConfigPath)
    (permissions : ManagedPermissions) : Prop :=
  principal.allows root .Manage = true ∧
    ∀ permission ∈ permissions.iter, principal.allows root (required_permission permission) = true

theorem allows_folded (principal : AuthenticatedPrincipal) (path : ConfigPath)
    (permission : Permission) :
    principal.allows path.folded permission = principal.allows path permission := by
  have hfol : path.folded.fold = path.fold := by
    simp [ConfigPath.folded, ConfigPath.fold, to_ascii_lowercase, Char.toLower_toLower_eq_toLower]
  rw [AuthenticatedPrincipal.allows, AuthenticatedPrincipal.allows, hfol]

theorem authorize_create_ok {generated : Except Status ConnectionId} {request : CreateRequest}
    {connection : Connection} {actor : Actor}
    (h : authorize_create generated request = .ok (connection, actor)) :
    ∃ principal root permissions, request.context.principal = .ok principal ∧
      ConfigPath.parse_selection request.root = .ok root ∧
      request.permissions = some permissions ∧ Entitled principal root permissions ∧
      connection.root = root.folded ∧ connection.permissions = permissions := by
  unfold authorize_create at h
  obtain ⟨principal, hpri, h⟩ := bind_eq_ok.mp h
  obtain ⟨actor', -, h⟩ := bind_eq_ok.mp h
  obtain ⟨display_name, -, h⟩ := bind_eq_ok.mp h
  obtain ⟨root, hroo, h⟩ := bind_eq_ok.mp h
  obtain ⟨permissions, hper, h⟩ := bind_eq_ok.mp h
  split at h
  · simp at h
  · rename_i hall
    obtain ⟨connection_id, -, h⟩ := bind_eq_ok.mp h
    obtain ⟨rfl, rfl⟩ := Prod.mk.inj (Except.ok.inj h)
    simp only [Bool.or_eq_true, Bool.not_eq_true', any_eq_true, not_or, not_exists, not_and,
      Bool.not_eq_false, allows_folded] at hall
    refine ⟨principal, root, permissions, hpri, mapError_eq_ok.mp hroo, ?_, hall, rfl,
      rfl⟩
    cases hsel : request.permissions with
    | none =>
      rw [hsel] at hper
      simp at hper
    | some selected =>
      rw [hsel] at hper
      exact congrArg some (Except.ok.inj hper)

def GrantsOnly (connection : Connection) (asked : Request) : Prop :=
  ∀ account grant, asked = .provider (.grant account grant) → grant = connection.grant

section Asks

variable {connection : Connection}

theorem asks_query (statement : Statement) :
    (store.query statement).Asks (GrantsOnly connection) := ⟨nofun, fun _ => trivial⟩

theorem asks_request {call : ProviderCall} (h : ∀ account grant, call ≠ .grant account grant) :
    (provider.request call).Asks (GrantsOnly connection) :=
  ⟨fun account grant heq => absurd (Request.provider.inj heq) (h account grant), fun _ => trivial⟩

theorem asks_grant (account : AccountId) :
    (provider.grant account connection.grant).Asks (GrantsOnly connection) := by
  refine ⟨?_, fun _ => trivial⟩
  rintro account grant h
  cases h
  rfl

theorem asks_delete_row : store.delete_row.Asks (GrantsOnly connection) :=
  Call.Asks.bind (asks_query _).attempt fun _ => trivial

theorem asks_cleanup_required : cleanup_required.Asks (GrantsOnly connection) :=
  Call.Asks.bind (asks_query _).attempt fun _ => trivial

theorem asks_compensate (account : AccountId) (failure : Status) :
    (compensate_created_account account failure).Asks (GrantsOnly connection) := by
  have hfor : (do if ← store.delete_row then return failure else cleanup_required :
      Service Status).Asks (GrantsOnly connection) := by
    refine asks_delete_row.bind fun deleted => ?_
    split
    · trivial
    · exact asks_cleanup_required
  refine Call.Asks.bind (asks_request (by simp)) fun answer => ?_
  split
  · exact hfor
  · exact hfor
  · exact asks_cleanup_required

theorem asks_reconcile (username : Text) (attempts : ℕ) :
    (reconcile username attempts).Asks (GrantsOnly connection) := by
  induction attempts with
  | zero => exact asks_cleanup_required
  | succ attempts ih =>
    refine Call.Asks.bind (asks_request (by simp)) fun answer => ?_
    split
    · exact asks_compensate _ _
    · exact ih
    · exact asks_cleanup_required

theorem asks_configure_account (username : Text) (account : AccountId) :
    (configure_account connection username account).Asks (GrantsOnly connection) := by
  refine Call.Asks.bind (asks_request (by simp)) fun answer => ?_
  split
  · refine (asks_query _).bind fun _ => Call.Asks.bind (asks_grant account) fun granted => ?_
    split
    · exact Call.Asks.bind (asks_request (by simp)) fun _ => trivial
    · trivial
  · trivial
  · trivial

theorem asks_provision_inserted (settings : ManagedSettings) (username : Text) (actor : Actor)
    (event : AuditEvent) :
    (provision_inserted settings connection username actor event).Asks (GrantsOnly connection) := by
  have hcom : ∀ account, (complete_provisioning settings connection username account actor
      event).Asks (GrantsOnly connection) := by
    intro account
    refine (asks_query _).bind fun _ => (asks_configure_account _ _).bind fun _ => ?_
    refine Call.Asks.bind (by trivial) fun url => (asks_query _).bind fun row => ?_
    split <;> trivial
  refine Call.Asks.bind (asks_request (by simp)) fun answer => ?_
  split
  · refine (hcom _).attempt.bind fun completed => ?_
    split
    · trivial
    · exact (asks_compensate _ _).bind fun _ => trivial
  · refine Call.Asks.bind ?_ fun _ => trivial
    unfold recover_ambiguous_create
    split
    · exact asks_delete_row.bind fun _ => trivial
    · exact asks_reconcile _ _

end Asks

/-- **Creating a connection does not escalate.** -/
theorem create_cannot_escalate (settings : ManagedSettings) (generated : Except Status ConnectionId)
    (request : CreateRequest) :
    ((create settings generated request).Asks fun asked =>
      ∃ principal root, request.context.principal = .ok principal ∧
        ConfigPath.parse_selection request.root = .ok root ∧
        (∀ path : ConfigPath, path.is_at_or_below root = true →
          principal.allows path .Manage = true) ∧
        ∀ account grant, asked = .provider (.grant account grant) →
          ∃ grants, grant.held = some grants ∧ ∀ subject name path permission,
            AuthenticatedPrincipal.allows ⟨subject, name, grants⟩ path permission = true →
              principal.allows path permission = true) ∧
    ((∀ principal root permissions, request.context.principal = .ok principal →
        ConfigPath.parse_selection request.root = .ok root →
        request.permissions = some permissions → ¬ Entitled principal root permissions) →
      (create settings generated request).Asks fun _ => False) := by
  unfold create
  cases haut : authorize_create generated request with
  | error e => exact ⟨trivial, fun _ => trivial⟩
  | ok checked =>
    obtain ⟨connection, actor⟩ := checked
    obtain ⟨principal, root, permissions, hpri, hroo, hper, hent, hcon,
      rfl⟩ := authorize_create_ok haut
    refine ⟨?_, fun hnot => absurd hent (hnot principal root _ hpri hroo hper)⟩
    have hask : (do
        store.insert_provisioning connection
        provision_inserted settings connection connection.username actor
          (.connection_created actor connection.subject connection.permissions.as_storage) :
        Service ProvisionedConnection).Asks (GrantsOnly connection) :=
      (asks_query _).bind fun _ => asks_provision_inserted settings _ _ _
    refine Call.Asks.imp (fun asked hgra => ⟨principal, root, hpri, hroo, ?_, ?_⟩) hask
    · intro path hbel
      exact allows_below ((at_or_below_segs path root).mpr ((is_at_or_below_iff path root).mp hbel))
        hent.1
    · rintro account grant rfl
      obtain rfl := hgra account grant rfl
      obtain ⟨grants, hhel, hallo⟩ := held_allows connection
      refine ⟨grants, hhel, fun subject name path permission hall => ?_⟩
      obtain ⟨⟨p, hp, rfl⟩, hbel⟩ := (hallo subject name path permission).mp hall
      refine allows_below hbel ?_
      rw [hcon, allows_folded]
      exact hent.2 p hp

def manager : CallContext :=
  ⟨some ⟨"manager".toList, none, [⟨"/app".toList, [.Manage]⟩]⟩, some "v5".toList⟩

theorem manager_cannot_grant_read :
    (create sample_settings (.ok sample_connection.connection_id)
      ⟨manager, "Build".toList, "/App".toList, some ⟨true, false, false, rfl⟩⟩).Asks fun _ => False := by
  refine (create_cannot_escalate sample_settings (.ok sample_connection.connection_id)
    ⟨manager, "Build".toList, "/App".toList, some ⟨true, false, false, rfl⟩⟩).2 ?_
  rintro principal root permissions hpri hroo hper ⟨_, hsel⟩
  obtain rfl := Except.ok.inj hpri
  obtain rfl : (⟨"/App".toList, by decide⟩ : ConfigPath) = root := Except.ok.inj hroo
  obtain rfl := Option.some.inj hper
  exact absurd (hsel .Read (by decide)) (by decide)

def inserted_world : World := ⟨0, ⟨some ⟨none, none, none, .Provisioning, 0, 0⟩, []⟩, none⟩

/-- **A creation that fails before it grants.** The provider cannot be reached: the row is inserted
and the provider has been called, although nothing is granted. -/
theorem create_inserts_before_granting : ∃ trace result world,
    Call.Runs (Served sample_settings sample_connection false
        (documented sample_connection.username) .create) (fun w w' => w' = w)
      (create sample_settings (.ok sample_connection.connection_id) sample_callers.create)
      empty_world trace result world ∧
    trace.map Sigma.fst = [.storage (.insert_provisioning sample_connection),
      .provider (.create_account sample_connection.username), .storage .delete_connection] := by
  refine ⟨[⟨.storage (.insert_provisioning sample_connection), .ok ()⟩,
    ⟨.provider (.create_account sample_connection.username), .error .Unavailable⟩,
    ⟨.storage .delete_connection, .ok ()⟩], .error dependency_error, empty_world, ?_, rfl⟩
  have inserted : Served sample_settings sample_connection false
      (documented sample_connection.username) .create
      (.storage (.insert_provisioning sample_connection)) empty_world (.ok ()) inserted_world :=
    ⟨rfl, rfl, Or.inl rfl⟩
  have refused : Served sample_settings sample_connection false
      (documented sample_connection.username) .create
      (.provider (.create_account sample_connection.username)) inserted_world
      (.error .Unavailable) inserted_world := by
    refine ⟨rfl, rfl, ?_⟩
    simp [documented, Contract]
  have deleted : Served sample_settings sample_connection false
      (documented sample_connection.username) .create (.storage .delete_connection) inserted_world
      (.ok ()) empty_world :=
    ⟨rfl, rfl, Or.inl rfl⟩
  exact .ask rfl inserted (.ask rfl refused (.ask rfl deleted (.done rfl)))

end SovereignConfig.Managed
