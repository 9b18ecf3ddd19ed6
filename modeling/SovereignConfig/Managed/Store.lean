/-
`managed/store.rs`: the statements on `managed_connections`, for one connection. A transaction is
one statement here. A failure that is reported may still have been applied.
-/
import SovereignConfig.Client.Connection
import SovereignConfig.Lib.Call
import SovereignConfig.Managed.Provider

namespace SovereignConfig.Managed

open Lib Text

/-- The settings the service is built with, and the `url` crate its connection URLs are checked
with. -/
structure ManagedSettings where
  public_origin : Text
  issuer : Text
  rotation_lease : ℤ
  url_crate : Connection.UrlCrate

inductive Statement where
  | insert_provisioning (connection : Connection)
  | record_provider_user (account : ProvisionedAccount)
  | record_credential_identifier (credential_identifier : CredentialId)
  | transition_state (expected_state state : ManagedConnectionState)
  | transition_state_recorded (expected_state state : ManagedConnectionState) (actor : Actor)
      (event : AuditEvent)
  | delete_connection
  | delete_connection_recorded (actor : Actor) (event : AuditEvent)
  | begin_rotation (principal : AuthenticatedPrincipal)
  | claim_for_revocation (principal : AuthenticatedPrincipal)
deriving DecidableEq

def Statement.Row : Statement → Type
  | insert_provisioning _ => Unit
  | record_provider_user _ => Unit
  | record_credential_identifier _ => Unit
  | transition_state .. => Option ConnectionRow
  | transition_state_recorded .. => Option ConnectionRow
  | delete_connection => Unit
  | delete_connection_recorded .. => Unit
  | begin_rotation _ => ConnectionRow
  | claim_for_revocation _ => ConnectionRow

abbrev Statement.Answer (statement : Statement) : Type := Except Status statement.Row

/-! ## The connection's slice of the database -/

structure Db where
  columns : Option Columns
  audit : List AuditRow
deriving DecidableEq

namespace Db

def row (db : Db) (connection : Connection) : Option ConnectionRow :=
  db.columns.map (⟨connection, ·⟩)

def update (db : Db) (set : Columns → Columns) : Db := { db with columns := db.columns.map set }

def delete (db : Db) : Db := { db with columns := none }

def in_state (db : Db) (expected_state : ManagedConnectionState) : Option Columns :=
  db.columns.filter (·.state = expected_state)

def record (db : Db) (actor : Actor) (now : OffsetDateTime) (event : AuditEvent) : Db :=
  { db with audit := db.audit ++ [⟨actor, now, event⟩] }

end Db

def Columns.moved (self : Columns) (state : ManagedConnectionState) (now : OffsetDateTime) :
    Columns :=
  { self with state := state, updated_at := now }

def lock_manageable (connection : Connection) (principal : AuthenticatedPrincipal) (db : Db) :
    Except Status ConnectionRow :=
  match db.row connection with
  | none => .error not_found
  | some row =>
    if !principal.allows row.connection.root .Manage then .error not_found else .ok row

/-- The checks of `begin_rotation` on the locked row. -/
def rotatable (settings : ManagedSettings) (now : OffsetDateTime) (row : ConnectionRow) :
    Except Status ConnectionRow :=
  let recoverable := row.columns.state = .RotationUnknown
    ∧ now - row.columns.updated_at ≥ settings.rotation_lease
  if ¬ (row.columns.state = .Active ∨ recoverable) then .error conflict_error
  else if row.columns.credential_identifier.isNone then .error conflict_error
  else .ok row

def exec (settings : ManagedSettings) (connection : Connection) (now : OffsetDateTime) :
    (statement : Statement) → Db → statement.Answer × Db
  | .insert_provisioning inserted, db =>
    -- A row with this identifier exists already, or it is another connection's row.
    if db.columns.isSome ∨ inserted ≠ connection then (.error storage_unavailable, db)
    else (.ok (), { db with columns := some ⟨none, none, none, .Provisioning, now, now⟩ })
  | .record_provider_user account, db =>
    (.ok (), db.update fun columns => { columns with
      provider_user_id := some account.account.as_str
      provider_user_uid := some account.subject
      updated_at := now })
  | .record_credential_identifier identifier, db =>
    (.ok (), db.update fun columns => { columns with
      credential_identifier := some identifier.as_str
      updated_at := now })
  | .transition_state expected_state state, db =>
    match db.in_state expected_state with
    | none => (.ok none, db)
    | some columns =>
      let moved := columns.moved state now
      (.ok (some ⟨connection, moved⟩), { db with columns := some moved })
  | .transition_state_recorded expected_state state actor event, db =>
    match db.in_state expected_state with
    | none => (.ok none, db)
    | some columns =>
      let moved := columns.moved state now
      (.ok (some ⟨connection, moved⟩),
        ({ db with columns := some moved } : Db).record actor now event)
  | .delete_connection, db => (.ok (), db.delete)
  | .delete_connection_recorded actor event, db =>
    if db.columns.isSome then (.ok (), db.delete.record actor now event) else (.ok (), db)
  | .begin_rotation principal, db =>
    match (lock_manageable connection principal db).bind (rotatable settings now) with
    | .error status => (.error status, db)
    | .ok row => (.ok row, db.update (·.moved .RotationUnknown now))
  | .claim_for_revocation principal, db =>
    match lock_manageable connection principal db with
    | .error status => (.error status, db)
    | .ok row => (.ok row, db.update (·.moved .Revoking now))

section Effects

variable {settings : ManagedSettings} {connection : Connection} {now : OffsetDateTime} {db : Db}

variable {row : ConnectionRow}

theorem lock_manageable_ok {principal : AuthenticatedPrincipal}
    (h : lock_manageable connection principal db = .ok row) :
    ∃ columns, db.columns = some columns ∧ row = ⟨connection, columns⟩ := by
  unfold lock_manageable Db.row at h
  cases hc : db.columns with
  | none => simp [hc] at h
  | some columns =>
    simp only [hc, Option.map_some] at h
    split at h
    · simp at h
    · exact ⟨columns, rfl, (Except.ok.inj h).symm⟩

theorem rotatable_ok {row' : ConnectionRow} (h : rotatable settings now row = .ok row') :
    row' = row ∧ (row.columns.state = .Active ∨ row.columns.state = .RotationUnknown ∧
      settings.rotation_lease ≤ now - row.columns.updated_at) := by
  simp only [rotatable] at h
  split at h
  · simp at h
  · rename_i hstate
    split at h
    · simp at h
    · exact ⟨(Except.ok.inj h).symm, not_not.mp hstate⟩

variable (settings connection now)

/-- **What a statement can do**, and what it answers. -/
inductive Effect : (statement : Statement) → Db → statement.Answer → Db → Prop
  | refused {statement : Statement} {status : Status} {db : Db} :
      Effect statement db (.error status) db
  | inserted {db : Db} : db.columns = none →
      Effect (.insert_provisioning connection) db (.ok ())
        { db with columns := some ⟨none, none, none, .Provisioning, now, now⟩ }
  | user_noted {account : ProvisionedAccount} {db : Db} :
      Effect (.record_provider_user account) db (.ok ())
        (db.update fun columns => { columns with
          provider_user_id := some account.account.as_str
          provider_user_uid := some account.subject
          updated_at := now })
  | credential_noted {identifier : CredentialId} {db : Db} :
      Effect (.record_credential_identifier identifier) db (.ok ())
        (db.update fun columns => { columns with
          credential_identifier := some identifier.as_str
          updated_at := now })
  | missed {expected state : ManagedConnectionState} {db : Db} :
      Effect (.transition_state expected state) db (.ok none) db
  | moved {expected state : ManagedConnectionState} {columns : Columns} {db : Db} :
      db.columns = some columns → columns.state = expected →
      Effect (.transition_state expected state) db
        (.ok (some ⟨connection, columns.moved state now⟩))
        { db with columns := some (columns.moved state now) }
  | missed_recorded {expected state : ManagedConnectionState} {actor : Actor} {event : AuditEvent}
      {db : Db} :
      Effect (.transition_state_recorded expected state actor event) db (.ok none) db
  | moved_recorded {expected state : ManagedConnectionState} {columns : Columns} {actor : Actor}
      {event : AuditEvent} {db : Db} : db.columns = some columns → columns.state = expected →
      Effect (.transition_state_recorded expected state actor event) db
        (.ok (some ⟨connection, columns.moved state now⟩))
        ⟨some (columns.moved state now), db.audit ++ [⟨actor, now, event⟩]⟩
  | deleted {db : Db} : Effect .delete_connection db (.ok ()) db.delete
  | nothing_deleted {actor : Actor} {event : AuditEvent} {db : Db} : db.columns = none →
      Effect (.delete_connection_recorded actor event) db (.ok ()) db
  | deleted_recorded {actor : Actor} {event : AuditEvent} {columns : Columns} {db : Db} :
      db.columns = some columns →
      Effect (.delete_connection_recorded actor event) db (.ok ())
        ⟨none, db.audit ++ [⟨actor, now, event⟩]⟩
  | marked {principal : AuthenticatedPrincipal} {columns : Columns} {db : Db} :
      db.columns = some columns →
      (columns.state = .Active ∨ columns.state = .RotationUnknown ∧
        settings.rotation_lease ≤ now - columns.updated_at) →
      Effect (.begin_rotation principal) db (.ok ⟨connection, columns⟩)
        { db with columns := some (columns.moved .RotationUnknown now) }
  | claimed {principal : AuthenticatedPrincipal} {columns : Columns} {db : Db} :
      db.columns = some columns →
      Effect (.claim_for_revocation principal) db
        (.ok ⟨connection, columns⟩) { db with columns := some (columns.moved .Revoking now) }

theorem Db.in_state_eq_some {expected : ManagedConnectionState} {columns : Columns} :
    db.in_state expected = some columns ↔ db.columns = some columns ∧ columns.state = expected := by
  simp [Db.in_state, Option.filter_eq_some_iff]

theorem exec_effect (statement : Statement) (db : Db) :
    Effect settings connection now statement db (exec settings connection now statement db).1
      (exec settings connection now statement db).2 := by
  cases statement with
  | insert_provisioning inserted =>
    simp only [exec]
    split
    · exact .refused
    · rename_i hfre
      obtain ⟨hnone, rfl⟩ : db.columns = none ∧ inserted = connection := by simpa using hfre
      exact .inserted hnone
  | record_provider_user account => exact .user_noted
  | record_credential_identifier identifier => exact .credential_noted
  | transition_state expected state =>
    simp only [exec]
    split
    · exact .missed
    · rename_i columns hin
      obtain ⟨hcol, hstate⟩ := Db.in_state_eq_some.mp hin
      exact .moved hcol hstate
  | transition_state_recorded expected state actor event =>
    simp only [exec]
    split
    · exact .missed_recorded
    · rename_i columns hin
      obtain ⟨hcol, hstate⟩ := Db.in_state_eq_some.mp hin
      exact .moved_recorded hcol hstate
  | delete_connection => exact .deleted
  | delete_connection_recorded actor event =>
    simp only [exec]
    split
    · rename_i hsom
      obtain ⟨columns, hcol⟩ := Option.isSome_iff_exists.mp hsom
      exact .deleted_recorded hcol
    · rename_i hnone
      exact .nothing_deleted (Option.not_isSome_iff_eq_none.mp hnone)
  | begin_rotation principal =>
    simp only [exec]
    split
    · exact .refused
    · rename_i row hok
      obtain ⟨locked, hloc, hrot⟩ : ∃ locked, lock_manageable connection principal db = .ok locked ∧
          rotatable settings now locked = .ok row := by
        cases hl : lock_manageable connection principal db with
        | error e => simp [hl, Except.bind] at hok
        | ok locked => exact ⟨locked, rfl, by simpa [hl, Except.bind] using hok⟩
      obtain ⟨columns, hcol, rfl⟩ := lock_manageable_ok hloc
      obtain ⟨rfl, hstate⟩ := rotatable_ok hrot
      rw [Db.update, hcol]
      exact .marked hcol hstate
  | claim_for_revocation principal =>
    simp only [exec]
    split
    · exact .refused
    · rename_i row hok
      obtain ⟨columns, hcol, rfl⟩ := lock_manageable_ok hok
      rw [Db.update, hcol]
      exact .claimed hcol

end Effects

/-! ## The world -/

inductive Request where
  | storage (statement : Statement)
  | provider (call : ProviderCall)
deriving DecidableEq

def Request.Answer : Request → Type
  | storage statement => statement.Answer
  | provider call => call.Answer

abbrev Asked : Type := (q : Request) × q.Answer

structure World where
  now : OffsetDateTime
  db : Db
  account : Option ProviderAccount
deriving DecidableEq

inductive CallId where
  | create
  | rotate (n : ℕ)
  | revoke (n : ℕ)
deriving DecidableEq

abbrev Turn : Type := Label CallId Request Request.Answer

/-- One statement's outcomes: it is served; or, where storage may fail, it fails without
effect, or takes effect although a failure is reported. -/
def Stored (settings : ManagedSettings) (connection : Connection) (faulty : Bool)
    (statement : Statement) (w : World) (answer : statement.Answer) (w' : World) : Prop :=
  w'.now = w.now ∧ w'.account = w.account ∧
    ((answer, w'.db) = exec settings connection w.now statement w.db ∨
      faulty = true ∧ answer = .error storage_unavailable ∧
        (w'.db = w.db ∨ w'.db = (exec settings connection w.now statement w.db).2))

section Outcomes

variable {settings : ManagedSettings} {connection : Connection} {faulty : Bool}
  {statement : Statement} {w w' : World} {answer : statement.Answer}

theorem Stored.db (h : Stored settings connection faulty statement w answer w') :
    w'.db = w.db ∨ ∃ answer', Effect settings connection w.now statement w.db answer' w'.db := by
  have heff := exec_effect settings connection w.now statement w.db
  rcases h.2.2 with hser | ⟨-, -, hkep | hdon⟩
  · rw [← hser] at heff
    exact Or.inr ⟨_, heff⟩
  · exact Or.inl hkep
  · rw [← hdon] at heff
    exact Or.inr ⟨_, heff⟩

theorem Stored.ok {row : statement.Row}
    (h : Stored settings connection faulty statement w (.ok row) w') :
    Effect settings connection w.now statement w.db (.ok row) w'.db := by
  have heff := exec_effect settings connection w.now statement w.db
  rcases h.2.2 with hser | ⟨_, herr, _⟩
  · rwa [← hser] at heff
  · simp at herr

variable {actor : Actor} {event : AuditEvent} {expected state : ManagedConnectionState}
  {row : ConnectionRow} {principal : AuthenticatedPrincipal} {columns : Columns}

theorem Stored.moved
    (h : Stored settings connection faulty (.transition_state_recorded expected state actor event)
      w (.ok (some row)) w') :
    ∃ columns, w.db.columns = some columns ∧ columns.state = expected ∧
      w'.db = ⟨some (columns.moved state w.now), w.db.audit ++ [⟨actor, w.now, event⟩]⟩ := by
  have heff := h.ok
  generalize w'.db = db at heff ⊢
  cases heff with
  | moved_recorded hcol hstate => exact ⟨_, hcol, hstate, rfl⟩

theorem Stored.marked
    (h : Stored settings connection faulty (.begin_rotation principal) w (.ok row) w') :
    ∃ columns, w.db.columns = some columns ∧
      (columns.state = .Active ∨ columns.state = .RotationUnknown ∧
        settings.rotation_lease ≤ w.now - columns.updated_at) ∧ row = ⟨connection, columns⟩ ∧
      w'.db = ⟨some (columns.moved .RotationUnknown w.now), w.db.audit⟩ := by
  have heff := h.ok
  generalize w'.db = db at heff ⊢
  cases heff with
  | marked hcol hstate => exact ⟨_, hcol, hstate, rfl, rfl⟩

theorem Stored.claimed
    (h : Stored settings connection faulty (.claim_for_revocation principal) w (.ok row) w') :
    ∃ columns, w.db.columns = some columns ∧ row = ⟨connection, columns⟩ ∧
      w'.db = ⟨some (columns.moved .Revoking w.now), w.db.audit⟩ := by
  have heff := h.ok
  generalize w'.db = db at heff ⊢
  cases heff with
  | claimed hcol => exact ⟨_, hcol, rfl, rfl⟩

theorem Stored.removed {u : Unit}
    (h : Stored settings connection faulty (.delete_connection_recorded actor event) w (.ok u) w')
    (hrow : w.db.columns.isSome = true) :
    w'.db = ⟨none, w.db.audit ++ [⟨actor, w.now, event⟩]⟩ := by
  have heff := h.ok
  generalize w'.db = db at heff ⊢
  cases heff with
  | nothing_deleted hnone => simp [hnone] at hrow
  | deleted_recorded _ => rfl

theorem Stored.served (h : Stored settings connection false statement w answer w') :
    (answer, w'.db) = exec settings connection w.now statement w.db := by
  rcases h.2.2 with hser | ⟨hfau, -⟩
  · exact hser
  · simp at hfau

theorem Stored.effect (h : Stored settings connection false statement w answer w') :
    Effect settings connection w.now statement w.db answer w'.db := by
  have heff := exec_effect settings connection w.now statement w.db
  rwa [← h.served] at heff

theorem Effect.of_error {now : OffsetDateTime} {status : Status} {db db' : Db}
    (h : Effect settings connection now statement db (.error status) db') : db' = db := by
  cases h
  rfl

theorem Stored.settles {answer : Except Status (Option ConnectionRow)}
    (h : Stored settings connection false (.transition_state expected state) w answer w')
    (hcol : w.db.columns = some columns) (hstate : columns.state = expected) :
    w'.db = { w.db with columns := some (columns.moved state w.now) } := by
  have hser := h.served
  simp only [exec, Db.in_state_eq_some.mpr ⟨hcol, hstate⟩] at hser
  exact congrArg Prod.snd hser

theorem Stored.settles_recorded {answer : Except Status (Option ConnectionRow)}
    (h : Stored settings connection false (.transition_state_recorded expected state actor event) w
      answer w') (hcol : w.db.columns = some columns) (hstate : columns.state = expected) :
    answer = .ok (some ⟨connection, columns.moved state w.now⟩) ∧
      w'.db = ⟨some (columns.moved state w.now), w.db.audit ++ [⟨actor, w.now, event⟩]⟩ := by
  have hser := h.served
  simp only [exec, Db.in_state_eq_some.mpr ⟨hcol, hstate⟩] at hser
  exact ⟨congrArg Prod.fst hser, congrArg Prod.snd hser⟩

end Outcomes

abbrev Provider : Type :=
  CallId → (call : ProviderCall) → Option ProviderAccount → call.Answer →
    Option ProviderAccount → Prop

/-- The provider keeps its contract; the create call is the account's creator. -/
def documented (username : Text) : Provider := fun caller =>
  Contract username (caller = .create)

def unconstrained : Provider := fun _ _ _ _ _ => True

def Served (settings : ManagedSettings) (connection : Connection) (faulty : Bool)
    (provider : Provider) (caller : CallId) :
    (request : Request) → World → request.Answer → World → Prop
  | .storage statement, w, answer, w' =>
    Stored settings connection faulty statement w answer w'
  | .provider call, w, answer, w' =>
    w'.now = w.now ∧ w'.db = w.db ∧ provider caller call w.account answer w'.account

/-- Time passes and nothing else changes. -/
def Later (w w' : World) : Prop :=
  w.now ≤ w'.now ∧ w'.db = w.db ∧ w'.account = w.account

def system (settings : ManagedSettings) (connection : Connection) (faulty : Bool)
    (provider : Provider) : System CallId World Request Request.Answer where
  serve := Served settings connection faulty provider
  crash := fun _ w w' => w' = w
  idle := Later

end SovereignConfig.Managed
