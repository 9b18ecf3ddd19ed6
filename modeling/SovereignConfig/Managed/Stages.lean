/-
Create, rotate and revoke as state machines: a `Stage` is a request about to be made, `Next` what
each answer leads to. The status of a failure is not kept.
-/
import SovereignConfig.Lib.Machine
import SovereignConfig.Managed.Service

namespace SovereignConfig.Managed

open Lib Text Call Function

structure Creation where
  connection : Connection
  actor : Actor

def Creation.event (self : Creation) : AuditEvent :=
  .connection_created self.actor self.connection.subject self.connection.permissions.as_storage

def Creation.grant (self : Creation) : AccountGrant :=
  ⟨self.connection.connection_id.as_str, self.connection.display_name.as_str,
    self.connection.root.as_str, self.connection.permissions.grant_tokens⟩

inductive Stage where
  -- create
  | inserting (c : Creation)
  | calling (c : Creation)
  | recording (c : Creation) (p : ProvisionedAccount)
  | listing (c : Creation) (p : ProvisionedAccount)
  | identifying (c : Creation) (p : ProvisionedAccount) (id : CredentialId)
  | granting (c : Creation) (p : ProvisionedAccount)
  | grouping (c : Creation) (p : ProvisionedAccount)
  | completing (c : Creation) (p : ProvisionedAccount) (url : ConnectionUrl)
  | undoing (id : AccountId)
  | discarding (compensating : Bool)
  | probing (username : Text) (attempts : ℕ)
  | giving_up
  -- rotate
  | marking (principal : AuthenticatedPrincipal) (actor : Actor)
  | replacing (actor : Actor) (row : ConnectionRow) (credential : CredentialId)
  | confirming (row : ConnectionRow)
  | settling (gone : Bool)
  | publishing (actor : Actor) (row : ConnectionRow) (replacement : ClientCredential)
      (url : ConnectionUrl)
  -- revoke
  | claiming (principal : AuthenticatedPrincipal) (actor : Actor)
  | locating (actor : Actor) (row : ConnectionRow)
  | deleting (actor : Actor) (row : ConnectionRow) (id : AccountId)
  | doubting (actor : Actor) (row : ConnectionRow)
  | removing (actor : Actor) (row : ConnectionRow)
  | finished (result : Except Status Reply)

section Machine

variable (settings : ManagedSettings) (connection : Connection)

def username_of (row : ConnectionRow) : Text :=
  managed_username connection.connection_id row.connection.display_name.as_str

inductive Next : Stage → (q : Request) → q.Answer → Stage → Prop
  -- create
  | inserted {c : Creation} :
      Next (.inserting c) (.storage (.insert_provisioning c.connection)) (.ok ()) (.calling c)
  | not_inserted {c : Creation} {e e' : Status} :
      Next (.inserting c) (.storage (.insert_provisioning c.connection)) (.error e)
        (.finished (.error e'))
  | created {c : Creation} {p : ProvisionedAccount} :
      Next (.calling c) (.provider (.create_account c.connection.username)) (.ok p)
        (.recording c p)
  | create_unknown {c : Creation} {err : ProviderError} : err = .Ambiguous ∨ err = .Invalid →
      Next (.calling c) (.provider (.create_account c.connection.username)) (.error err)
        (.probing c.connection.username CREATE_RECONCILIATION_ATTEMPTS)
  | create_refused {c : Creation} {err : ProviderError} : err ≠ .Ambiguous → err ≠ .Invalid →
      Next (.calling c) (.provider (.create_account c.connection.username)) (.error err)
        (.discarding false)
  | recorded {c : Creation} {p : ProvisionedAccount} :
      Next (.recording c p) (.storage (.record_provider_user p)) (.ok ()) (.listing c p)
  | not_recorded {c : Creation} {p : ProvisionedAccount} {e : Status} :
      Next (.recording c p) (.storage (.record_provider_user p)) (.error e) (.undoing p.account)
  | listed {c : Creation} {p : ProvisionedAccount} {id : CredentialId} :
      Next (.listing c p) (.provider (.find_credentials c.connection.username)) (.ok [id])
        (.identifying c p id)
  | listed_other {c : Creation} {p : ProvisionedAccount} {ids : List CredentialId} :
      ids.length ≠ 1 →
      Next (.listing c p) (.provider (.find_credentials c.connection.username)) (.ok ids)
        (.undoing p.account)
  | not_listed {c : Creation} {p : ProvisionedAccount} {err : ProviderError} :
      Next (.listing c p) (.provider (.find_credentials c.connection.username)) (.error err)
        (.undoing p.account)
  | identified {c : Creation} {p : ProvisionedAccount} {id : CredentialId} :
      Next (.identifying c p id) (.storage (.record_credential_identifier id)) (.ok ())
        (.granting c p)
  | not_identified {c : Creation} {p : ProvisionedAccount} {id : CredentialId} {e : Status} :
      Next (.identifying c p id) (.storage (.record_credential_identifier id)) (.error e)
        (.undoing p.account)
  | granted {c : Creation} {p : ProvisionedAccount} :
      Next (.granting c p) (.provider (.grant p.account c.grant)) (.ok ()) (.grouping c p)
  | not_granted {c : Creation} {p : ProvisionedAccount} {err : ProviderError} :
      Next (.granting c p) (.provider (.grant p.account c.grant)) (.error err)
        (.undoing p.account)
  | grouped {c : Creation} {p : ProvisionedAccount} {a : Except ProviderError Unit}
      {url : ConnectionUrl} :
      ConnectionUrl.managed settings c.connection.root c.connection.username p.credential
        = .ok url →
      Next (.grouping c p) (.provider (.assign_browse_group p.account)) a (.completing c p url)
  | no_url {c : Creation} {p : ProvisionedAccount} {a : Except ProviderError Unit} :
      Next (.grouping c p) (.provider (.assign_browse_group p.account)) a (.undoing p.account)
  | completed {c : Creation} {p : ProvisionedAccount} {url : ConnectionUrl}
      {row : ConnectionRow} :
      Next (.completing c p url)
        (.storage (.transition_state_recorded .Provisioning .Active c.actor c.event))
        (.ok (some row)) (.finished (.ok (.provisioned ⟨metadata row, url⟩)))
  | overtaken {c : Creation} {p : ProvisionedAccount} {url : ConnectionUrl} :
      Next (.completing c p url)
        (.storage (.transition_state_recorded .Provisioning .Active c.actor c.event)) (.ok none)
        (.undoing p.account)
  | not_completed {c : Creation} {p : ProvisionedAccount} {url : ConnectionUrl} {e : Status} :
      Next (.completing c p url)
        (.storage (.transition_state_recorded .Provisioning .Active c.actor c.event)) (.error e)
        (.undoing p.account)
  | undone {id : AccountId} {a : Except ProviderError Unit} :
      a = .ok () ∨ a = .error .NotFound →
      Next (.undoing id) (.provider (.delete_account id)) a (.discarding true)
  | not_undone {id : AccountId} {err : ProviderError} : err ≠ .NotFound →
      Next (.undoing id) (.provider (.delete_account id)) (.error err) .giving_up
  | discarded {compensating : Bool} {e : Status} :
      Next (.discarding compensating) (.storage .delete_connection) (.ok ())
        (.finished (.error e))
  | not_discarded {e : Status} :
      Next (.discarding true) (.storage .delete_connection) (.error e) .giving_up
  | discard_ignored {e e' : Status} :
      Next (.discarding false) (.storage .delete_connection) (.error e) (.finished (.error e'))
  | probe_found {u : Text} {n : ℕ} {id : AccountId} :
      Next (.probing u (n + 1)) (.provider (.find_account u)) (.ok (some id)) (.undoing id)
  | probe_empty {u : Text} {n : ℕ} :
      Next (.probing u (n + 2)) (.provider (.find_account u)) (.ok none) (.probing u (n + 1))
  | probe_exhausted {u : Text} :
      Next (.probing u 1) (.provider (.find_account u)) (.ok none) .giving_up
  | probe_failed {u : Text} {n : ℕ} {err : ProviderError} :
      Next (.probing u (n + 1)) (.provider (.find_account u)) (.error err) .giving_up
  | gave_up {a : Except Status (Option ConnectionRow)} {e : Status} :
      Next .giving_up (.storage (.transition_state .Provisioning .CleanupRequired)) a
        (.finished (.error e))
  -- rotate
  | marked {principal : AuthenticatedPrincipal} {actor : Actor} {row : ConnectionRow}
      {credential : CredentialId} : row.credential = some credential →
      Next (.marking principal actor) (.storage (.begin_rotation principal)) (.ok row)
        (.replacing actor row credential)
  | marked_in_vain {principal : AuthenticatedPrincipal} {actor : Actor} {row : ConnectionRow}
      {e : Status} :
      Next (.marking principal actor) (.storage (.begin_rotation principal)) (.ok row)
        (.finished (.error e))
  | not_marked {principal : AuthenticatedPrincipal} {actor : Actor} {e e' : Status} :
      Next (.marking principal actor) (.storage (.begin_rotation principal)) (.error e)
        (.finished (.error e'))
  | replaced {actor : Actor} {row : ConnectionRow} {credential : CredentialId}
      {v : ClientCredential} {url : ConnectionUrl} :
      ConnectionUrl.managed settings row.connection.root (username_of connection row) v
        = .ok url →
      Next (.replacing actor row credential) (.provider (.replace_credential credential)) (.ok v)
        (.publishing actor row v url)
  | replaced_in_vain {actor : Actor} {row : ConnectionRow} {credential : CredentialId}
      {v : ClientCredential} {e : Status} :
      Next (.replacing actor row credential) (.provider (.replace_credential credential)) (.ok v)
        (.finished (.error e))
  | undelivered {actor : Actor} {row : ConnectionRow} {credential : CredentialId} :
      Next (.replacing actor row credential) (.provider (.replace_credential credential))
        (.error .Unavailable) (.settling false)
  | refused {actor : Actor} {row : ConnectionRow} {credential : CredentialId} :
      Next (.replacing actor row credential) (.provider (.replace_credential credential))
        (.error .Rejected) (.confirming row)
  | missing {actor : Actor} {row : ConnectionRow} {credential : CredentialId} :
      Next (.replacing actor row credential) (.provider (.replace_credential credential))
        (.error .NotFound) (.settling true)
  | unknown {actor : Actor} {row : ConnectionRow} {credential : CredentialId}
      {err : ProviderError} {e : Status} : err = .Ambiguous ∨ err = .Invalid →
      Next (.replacing actor row credential) (.provider (.replace_credential credential))
        (.error err) (.finished (.error e))
  | confirmed {row : ConnectionRow} {ids : List CredentialId} :
      Next (.confirming row) (.provider (.find_credentials (username_of connection row)))
        (.ok ids) (.settling ids.isEmpty)
  | not_confirmed {row : ConnectionRow} {err : ProviderError} {e : Status} :
      Next (.confirming row) (.provider (.find_credentials (username_of connection row)))
        (.error err) (.finished (.error e))
  | settled {gone : Bool} {a : Except Status (Option ConnectionRow)} {e : Status} :
      Next (.settling gone) (.storage (.transition_state .RotationUnknown (settled_state gone))) a
        (.finished (.error e))
  | published {actor : Actor} {row row' : ConnectionRow} {v : ClientCredential}
      {url : ConnectionUrl} :
      Next (.publishing actor row v url)
        (.storage (.transition_state_recorded .RotationUnknown .Active actor
          (.connection_rotated actor row.connection.subject)))
        (.ok (some row')) (.finished (.ok (.provisioned ⟨metadata row', url⟩)))
  | outrun {actor : Actor} {row : ConnectionRow} {v : ClientCredential} {url : ConnectionUrl}
      {e : Status} :
      Next (.publishing actor row v url)
        (.storage (.transition_state_recorded .RotationUnknown .Active actor
          (.connection_rotated actor row.connection.subject)))
        (.ok none) (.finished (.error e))
  | not_published {actor : Actor} {row : ConnectionRow} {v : ClientCredential}
      {url : ConnectionUrl} {e e' : Status} :
      Next (.publishing actor row v url)
        (.storage (.transition_state_recorded .RotationUnknown .Active actor
          (.connection_rotated actor row.connection.subject)))
        (.error e) (.finished (.error e'))
  -- revoke
  | claimed_known {principal : AuthenticatedPrincipal} {actor : Actor} {row : ConnectionRow}
      {id : AccountId} : row.account = some id →
      Next (.claiming principal actor) (.storage (.claim_for_revocation principal)) (.ok row)
        (.deleting actor row id)
  | claimed_unknown {principal : AuthenticatedPrincipal} {actor : Actor} {row : ConnectionRow} :
      row.account = none →
      Next (.claiming principal actor) (.storage (.claim_for_revocation principal)) (.ok row)
        (.locating actor row)
  | not_claimed {principal : AuthenticatedPrincipal} {actor : Actor} {e e' : Status} :
      Next (.claiming principal actor) (.storage (.claim_for_revocation principal)) (.error e)
        (.finished (.error e'))
  | located {actor : Actor} {row : ConnectionRow} {id : AccountId} :
      Next (.locating actor row) (.provider (.find_account (username_of connection row)))
        (.ok (some id)) (.deleting actor row id)
  | nowhere {actor : Actor} {row : ConnectionRow} :
      Next (.locating actor row) (.provider (.find_account (username_of connection row)))
        (.ok none) (.removing actor row)
  | lookup_failed {actor : Actor} {row : ConnectionRow} {err : ProviderError} :
      Next (.locating actor row) (.provider (.find_account (username_of connection row)))
        (.error err) (.doubting actor row)
  | deleted {actor : Actor} {row : ConnectionRow} {id : AccountId} :
      Next (.deleting actor row id) (.provider (.delete_account id)) (.ok ()) (.removing actor row)
  | not_deleted {actor : Actor} {row : ConnectionRow} {id : AccountId} {err : ProviderError} :
      Next (.deleting actor row id) (.provider (.delete_account id)) (.error err)
        (.doubting actor row)
  | gone {actor : Actor} {row : ConnectionRow} :
      Next (.doubting actor row) (.provider (.find_credentials (username_of connection row)))
        (.ok []) (.removing actor row)
  | not_gone {actor : Actor} {row : ConnectionRow} {id : CredentialId} {ids : List CredentialId}
      {e : Status} :
      Next (.doubting actor row) (.provider (.find_credentials (username_of connection row)))
        (.ok (id :: ids)) (.finished (.error e))
  | in_doubt {actor : Actor} {row : ConnectionRow} {err : ProviderError} {e : Status} :
      Next (.doubting actor row) (.provider (.find_credentials (username_of connection row)))
        (.error err) (.finished (.error e))
  | removed {actor : Actor} {row : ConnectionRow} :
      Next (.removing actor row)
        (.storage (.delete_connection_recorded actor
          (.connection_revoked actor row.connection.subject)))
        (.ok ()) (.finished (.ok .revoked))
  | not_removed {actor : Actor} {row : ConnectionRow} {e e' : Status} :
      Next (.removing actor row)
        (.storage (.delete_connection_recorded actor
          (.connection_revoked actor row.connection.subject)))
        (.error e) (.finished (.error e'))

abbrev machine : Machine Request Request.Answer Status Reply where
  Stage := Stage
  next := Next settings connection
  finished := .finished

abbrev Staged : Type := (machine settings connection).Staged CallId World

/-- A call that runs by itself, from a stage of it, against a provider that keeps its contract. -/
abbrev Alone (faulty : Bool) (i : CallId) :
    Stage → World → List Asked → Except Status Reply → World → Prop :=
  (machine settings connection).Runs
    (Served settings connection faulty (documented connection.username) i) Later

end Machine

variable {settings : ManagedSettings} {connection : Connection}

/-! ## The operations conform -/

section Conformance

theorem conforms_ask {q : Request} {k : q.Answer → Service Reply} {s : Stage}
    (hope : ∀ r, s ≠ .finished r)
    (h : ∀ a, ∃ s', Next settings connection s q a s' ∧
      (machine settings connection).Conforms (k a) s') :
    (machine settings connection).Conforms (.ask q k) s := ⟨hope, h⟩

theorem conforms_bind {α β : Type} {x : Service α} {f : α → Service β} {g : β → Service Reply}
    {s : Stage} (h : (machine settings connection).Conforms (x.bind fun a => (f a).bind g) s) :
    (machine settings connection).Conforms ((x.bind f).bind g) s := by
  rwa [bind_assoc]

def Fails {α : Type} (f : α → Service Reply) : Prop := ∀ a, ∃ e, f a = .done (.error e)

theorem Fails.conforms {α : Type} {f : α → Service Reply} (hf : Fails f) (a : α) :
    ∃ e, (machine settings connection).Conforms (f a) (.finished (.error e)) := by
  obtain ⟨e, he⟩ := hf a
  exact ⟨e, by rw [he]; rfl⟩

variable {f : Status → Service Reply} {id : AccountId} {u : Text} {actor : Actor}
  {callers : Callers} {n : ℕ} {principal : AuthenticatedPrincipal} {row : ConnectionRow}

theorem conforms_cleanup_required (hf : Fails f) :
    (machine settings connection).Conforms (cleanup_required.bind f) .giving_up := by
  refine conforms_ask (by simp) fun a => ?_
  obtain ⟨e, he⟩ := hf.conforms (.unavailable CLEANUP_MESSAGE)
  exact ⟨_, .gave_up, by cases a <;> exact he⟩

theorem conforms_compensate {failure : Status} (hf : Fails f) :
    (machine settings connection).Conforms ((compensate_created_account id failure).bind f)
      (.undoing id) := by
  have hdis : (machine settings connection).Conforms
      ((do if ← store.delete_row then return failure else cleanup_required : Service Status).bind f)
      (.discarding true) := by
    refine conforms_ask (by simp) fun a => ?_
    cases a with
    | ok u =>
      obtain ⟨e, he⟩ := hf.conforms failure
      exact ⟨_, .discarded, he⟩
    | error e => exact ⟨_, .not_discarded, conforms_cleanup_required hf⟩
  refine conforms_ask (by simp) fun a => ?_
  cases a with
  | ok u => exact ⟨_, .undone (Or.inl rfl), hdis⟩
  | error err =>
    cases err with
    | NotFound => exact ⟨_, .undone (Or.inr rfl), hdis⟩
    | _ => exact ⟨_, .not_undone (by simp), conforms_cleanup_required hf⟩

theorem reconcile_succ (u : Text) (n : ℕ) :
    reconcile u (n + 1) = .ask (.provider (.find_account u)) fun answer => match answer with
      | .ok (some account) => compensate_created_account account dependency_error
      | .ok none => reconcile u n
      | .error _ => cleanup_required :=
  congrArg (Call.ask _) (funext fun answer => by rcases answer with _ | _ | _ <;> rfl)

theorem conforms_reconcile (hf : Fails f) :
    ∀ n, (machine settings connection).Conforms ((reconcile u (n + 1)).bind f) (.probing u (n + 1))
  | 0 => by
    rw [reconcile_succ, ask_bind]
    refine conforms_ask (by simp) fun a => ?_
    rcases a with err | none | id
    · exact ⟨_, .probe_failed, conforms_cleanup_required hf⟩
    · exact ⟨_, .probe_exhausted, conforms_cleanup_required hf⟩
    · exact ⟨_, .probe_found, conforms_compensate hf⟩
  | n + 1 => by
    rw [reconcile_succ, ask_bind]
    refine conforms_ask (by simp) fun a => ?_
    rcases a with err | none | id
    · exact ⟨_, .probe_failed, conforms_cleanup_required hf⟩
    · exact ⟨_, .probe_empty, conforms_reconcile hf n⟩
    · exact ⟨_, .probe_found, conforms_compensate hf⟩

theorem conforms_complete {c : Creation} {p : ProvisionedAccount}
    {g : Except Status (ConnectionRow × ConnectionUrl) → Service Reply}
    (hfai : ∀ e, (machine settings connection).Conforms (g (.error e)) (.undoing p.account))
    (hdon : ∀ row url, (machine settings connection).Conforms (g (.ok (row, url)))
      (.finished (.ok (.provisioned ⟨metadata row, url⟩)))) :
    (machine settings connection).Conforms ((complete_provisioning settings c.connection
      c.connection.username p c.actor c.event).attempt.bind g) (.recording c p) := by
  refine conforms_ask (by simp) fun a => ?_
  cases a with
  | error e => exact ⟨_, .not_recorded, hfai e⟩
  | ok u =>
    refine ⟨_, .recorded, conforms_ask (by simp) fun a => ?_⟩
    rcases a with err | _ | ⟨id, _ | ⟨id', ids⟩⟩
    · exact ⟨_, .not_listed, hfai dependency_error⟩
    · exact ⟨_, .listed_other (by simp), hfai dependency_error⟩
    · refine ⟨_, .listed, conforms_ask (by simp) fun a => ?_⟩
      cases a with
      | error e => exact ⟨_, .not_identified, hfai e⟩
      | ok u =>
        refine ⟨_, .identified, conforms_ask (by simp) fun a => ?_⟩
        cases a with
        | error err => exact ⟨_, .not_granted, hfai dependency_error⟩
        | ok u =>
          refine ⟨_, .granted, conforms_ask (by simp) fun a => ?_⟩
          cases hurl : ConnectionUrl.managed settings c.connection.root c.connection.username
              p.credential with
          | error e => exact ⟨_, .no_url, hfai e⟩
          | ok url =>
            refine ⟨_, .grouped hurl, conforms_ask (by simp) fun a => ?_⟩
            rcases a with e | _ | row
            · exact ⟨_, .not_completed, hfai e⟩
            · exact ⟨_, .overtaken, hfai internal_error⟩
            · exact ⟨_, .completed, hdon row url⟩
    · exact ⟨_, .listed_other (by simp), hfai dependency_error⟩

theorem conforms_create {callers : Callers} {c : Creation}
    (hc : authorize_create (.ok connection.connection_id) callers.create
      = .ok (c.connection, c.actor)) :
    (machine settings connection).Conforms (operation settings connection callers .create)
      (.inserting c) := by
  have hfai : Fails fun st : Status =>
      (Call.fail st : Service ProvisionedConnection).bind fun p => .done (.ok (.provisioned p)) :=
    fun st => ⟨st, rfl⟩
  simp only [operation, create, hc, lift_eq]
  refine conforms_ask (by simp) fun a => ?_
  cases a with
  | error e => exact ⟨_, .not_inserted, rfl⟩
  | ok u =>
    refine ⟨_, .inserted, conforms_ask (by simp) fun a => ?_⟩
    cases a with
    | ok p =>
      refine ⟨_, .created, conforms_bind (x := Call.attempt _) ?_⟩
      refine conforms_complete (fun e => ?_) fun row url => rfl
      exact conforms_bind (x := compensate_created_account _ _) (conforms_compensate hfai)
    | error err =>
      by_cases herr : err = .Ambiguous ∨ err = .Invalid
      · refine ⟨_, .create_unknown herr, conforms_bind (x := recover_ambiguous_create _ _) ?_⟩
        rw [recover_ambiguous_create, if_neg (by tauto)]
        exact conforms_reconcile hfai 2
      · have hne : err ≠ .Ambiguous ∧ err ≠ .Invalid := by tauto
        refine ⟨_, .create_refused hne.1 hne.2, conforms_bind (x := recover_ambiguous_create _ _) ?_⟩
        rw [recover_ambiguous_create, if_pos hne]
        refine conforms_ask (by simp) fun a => ?_
        cases a with
        | ok u => exact ⟨_, .discarded, rfl⟩
        | error e => exact ⟨_, .discard_ignored, rfl⟩

theorem parse_as_str (id : ConnectionId) : ConnectionId.parse id.as_str = .ok id :=
  dif_pos id.ok

theorem conforms_settle {gone : Bool} {f : Unit → Service Reply} (hf : Fails f) :
    (machine settings connection).Conforms
      (((store.transition_state .RotationUnknown (settled_state gone)).attempt.bind fun _ =>
        (.done (.ok ()) : Service Unit)).bind f) (.settling gone) := by
  refine conforms_ask (by simp) fun a => ?_
  obtain ⟨e, he⟩ := hf.conforms ()
  exact ⟨_, .settled, by cases a <;> exact he⟩

theorem conforms_settle_failed {actor : Actor} {row : ConnectionRow} {credential : CredentialId}
    {err : ProviderError} {f : Unit → Service Reply} (hf : Fails f) :
    ∃ s', Next settings connection (.replacing actor row credential)
        (.provider (.replace_credential credential)) (.error err) s' ∧
      (machine settings connection).Conforms
        ((settle_failed_rotation (username_of connection row) err).bind f) s' := by
  obtain ⟨e, he⟩ := hf.conforms ()
  cases err with
  | NotFound => exact ⟨_, .missing, conforms_settle hf⟩
  | Unavailable => exact ⟨_, .undelivered, conforms_settle hf⟩
  | Ambiguous => exact ⟨_, .unknown (Or.inl rfl), he⟩
  | Invalid => exact ⟨_, .unknown (Or.inr rfl), he⟩
  | Rejected =>
    refine ⟨_, .refused, conforms_ask (by simp) fun a => ?_⟩
    cases a with
    | ok ids => exact ⟨_, .confirmed, conforms_settle hf⟩
    | error err => exact ⟨_, .not_confirmed, he⟩

theorem conforms_rotate (hp : (callers.rotate n).principal = .ok principal)
    (ha : (callers.rotate n).actor = .ok actor) :
    (machine settings connection).Conforms (operation settings connection callers (.rotate n))
      (.marking principal actor) := by
  simp only [operation, rotate, parse_as_str, hp, ha, lift_eq]
  refine conforms_ask (by simp) fun a => ?_
  cases a with
  | error e => exact ⟨_, .not_marked, rfl⟩
  | ok row =>
    cases hcre : ConnectionRow.credential row with
    | none =>
      refine ⟨.finished (.error internal_error), .marked_in_vain, ?_⟩
      change (machine settings connection).Conforms (Call.bind (Call.bind
        (done ((ConnectionRow.credential row).elim _ _)) _) _) _
      rw [hcre]
      rfl
    | some credential =>
      refine ⟨.replacing actor row credential, .marked hcre, ?_⟩
      change (machine settings connection).Conforms (Call.bind (Call.bind
        (done ((ConnectionRow.credential row).elim _ _)) _) _) _
      rw [hcre]
      refine conforms_ask (by simp) fun a => ?_
      cases a with
      | error err =>
        have hfai : Fails fun _ : Unit =>
            (Call.fail dependency_error : Service ProvisionedConnection).bind fun p =>
              .done (.ok (.provisioned p)) := fun _ => ⟨dependency_error, rfl⟩
        obtain ⟨s', hnex, hcon⟩ :=
          @conforms_settle_failed settings connection actor row credential err _ hfai
        exact ⟨s', hnex, conforms_bind (x := settle_failed_rotation _ _) hcon⟩
      | ok v =>
        cases hurl : ConnectionUrl.managed settings (ConnectionRow.connection row).root
            (username_of connection row) v with
        | error e =>
          refine ⟨.finished (.error e), .replaced_in_vain, ?_⟩
          change (machine settings connection).Conforms (Call.bind (Call.bind
            (done (ConnectionUrl.managed settings (ConnectionRow.connection row).root
              (username_of connection row) v)) _) _) _
          rw [hurl]
          rfl
        | ok url =>
          refine ⟨.publishing actor row v url, .replaced hurl, ?_⟩
          change (machine settings connection).Conforms (Call.bind (Call.bind
            (done (ConnectionUrl.managed settings (ConnectionRow.connection row).root
              (username_of connection row) v)) _) _) _
          rw [hurl]
          refine conforms_ask (by simp) fun a => ?_
          rcases a with e | _ | row'
          · exact ⟨_, .not_published, rfl⟩
          · exact ⟨_, .outrun, rfl⟩
          · exact ⟨_, .published, rfl⟩

def remove_row (actor : Actor) (row : ConnectionRow) : Service Unit :=
  store.delete_connection_recorded actor (.connection_revoked actor row.connection.subject)

theorem conforms_remove :
    (machine settings connection).Conforms
      ((remove_row actor row).bind fun _ => .done (.ok .revoked)) (.removing actor row) := by
  refine conforms_ask (by simp) fun a => ?_
  cases a with
  | ok u => exact ⟨_, .removed, rfl⟩
  | error e => exact ⟨_, .not_removed, rfl⟩

theorem conforms_doubt {f : Bool → Service Reply}
    (hyes : (machine settings connection).Conforms (f true) (.removing actor row))
    (hno : ∃ e, f false = .done (.error e)) :
    (machine settings connection).Conforms
      ((credential_is_gone (username_of connection row)).bind f) (.doubting actor row) := by
  obtain ⟨e, he⟩ := hno
  have hfai : (machine settings connection).Conforms (f false) (.finished (.error e)) := by
    rw [he]
    rfl
  refine conforms_ask (by simp) fun a => ?_
  rcases a with err | _ | ⟨id, ids⟩
  · exact ⟨_, .in_doubt, hfai⟩
  · exact ⟨_, .gone, hyes⟩
  · exact ⟨_, .not_gone, hfai⟩

theorem conforms_delete :
    (machine settings connection).Conforms
      ((delete_account_confirmed id (username_of connection row)).bind fun _ =>
        (remove_row actor row).bind fun _ => .done (.ok .revoked)) (.deleting actor row id) := by
  refine conforms_ask (by simp) fun a => ?_
  cases a with
  | ok u => exact ⟨_, .deleted, conforms_remove⟩
  | error err =>
    refine ⟨_, .not_deleted, conforms_bind (x := credential_is_gone _) ?_⟩
    exact conforms_doubt conforms_remove ⟨dependency_error, rfl⟩

theorem revocation_target_known (h : row.account = some id) :
    revocation_target row u = .done (.ok (some id)) := by
  unfold revocation_target
  rw [h]
  rfl

theorem revocation_target_unknown (h : row.account = none) :
    revocation_target row u = (provider.find_account u).bind fun answer => match answer with
      | .ok found => .done (.ok found)
      | .error _ => (credential_is_gone u).bind fun gone =>
          if gone = true then .done (.ok none) else Call.fail dependency_error := by
  unfold revocation_target
  rw [h]
  rfl

theorem conforms_revoke (hp : (callers.revoke n).principal = .ok principal)
    (ha : (callers.revoke n).actor = .ok actor) :
    (machine settings connection).Conforms (operation settings connection callers (.revoke n))
      (.claiming principal actor) := by
  simp only [operation, revoke, parse_as_str, hp, ha, lift_eq]
  refine conforms_ask (by simp) fun a => ?_
  cases a with
  | error e => exact ⟨_, .not_claimed, rfl⟩
  | ok row =>
    cases hacc : ConnectionRow.account row with
    | some id =>
      refine ⟨.deleting actor row id, .claimed_known hacc, ?_⟩
      change (machine settings connection).Conforms
        (Call.bind (Call.bind (revocation_target row (username_of connection row)) _) _) _
      rw [revocation_target_known hacc]
      exact conforms_bind (x := delete_account_confirmed _ _) conforms_delete
    | none =>
      refine ⟨.locating actor row, .claimed_unknown hacc, ?_⟩
      change (machine settings connection).Conforms
        (Call.bind (Call.bind (revocation_target row (username_of connection row)) _) _) _
      rw [revocation_target_unknown hacc]
      refine conforms_ask (by simp) fun a => ?_
      rcases a with err | _ | id
      · refine ⟨_, .lookup_failed,
          conforms_bind (x := Call.bind _ _) (conforms_bind (x := credential_is_gone _) ?_)⟩
        exact conforms_doubt conforms_remove ⟨dependency_error, rfl⟩
      · exact ⟨_, .nowhere, conforms_remove⟩
      · exact ⟨_, .located, conforms_bind (x := delete_account_confirmed _ _) conforms_delete⟩

/-! ## The pool -/

def start (connection : Connection) (callers : Callers) : CallId → Stage
  | .create =>
    match authorize_create (.ok connection.connection_id) callers.create with
    | .ok (connection, actor) => .inserting ⟨connection, actor⟩
    | .error e => .finished (.error e)
  | .rotate n =>
    match (callers.rotate n).principal, (callers.rotate n).actor with
    | .ok principal, .ok actor => .marking principal actor
    | .error e, _ => .finished (.error e)
    | _, .error e => .finished (.error e)
  | .revoke n =>
    match (callers.revoke n).principal, (callers.revoke n).actor with
    | .ok principal, .ok actor => .claiming principal actor
    | .error e, _ => .finished (.error e)
    | _, .error e => .finished (.error e)

theorem actor_of_principal {context : CallContext} (h : context.principal = .ok principal) :
    ∃ actor, context.actor = .ok actor :=
  ⟨_, by simp only [CallContext.actor, h]; rfl⟩

theorem operation_conforms (callers : Callers) (i : CallId) :
    (machine settings connection).Conforms (operation settings connection callers i)
      (start connection callers i) := by
  cases i with
  | create =>
    rw [start]
    cases hc : authorize_create (.ok connection.connection_id) callers.create with
    | error e =>
      simp only [operation, create, hc]
      rfl
    | ok c => exact @conforms_create settings connection callers ⟨c.1, c.2⟩ hc
  | rotate n =>
    rw [start]
    cases hp : (callers.rotate n).principal with
    | error e =>
      simp only [operation, rotate, parse_as_str, hp]
      rfl
    | ok principal =>
      obtain ⟨actor, ha⟩ := actor_of_principal hp
      simp only [ha]
      exact conforms_rotate hp ha
  | revoke n =>
    rw [start]
    cases hp : (callers.revoke n).principal with
    | error e =>
      simp only [operation, revoke, parse_as_str, hp]
      rfl
    | ok principal =>
      obtain ⟨actor, ha⟩ := actor_of_principal hp
      simp only [ha]
      exact conforms_revoke hp ha

end Conformance

def initial {W : Type} (settings : ManagedSettings) (connection : Connection) (callers : Callers)
    (w : W) : Config CallId W Request Request.Answer Status Reply :=
  ⟨w, fun i => .live (operation settings connection callers i)⟩

def staged {W : Type} (settings : ManagedSettings) (connection : Connection) (callers : Callers)
    (w : W) : (machine settings connection).Staged CallId W :=
  ⟨w, fun i => some (start connection callers i)⟩

theorem initial_follows {W : Type} {callers : Callers} {w : W} :
    (machine settings connection).Follows (staged settings connection callers w)
      (initial settings connection callers w) :=
  ⟨rfl, operation_conforms callers⟩

section Playing

variable {faulty : Bool} {provider : Provider} {cond : World → Turn → World → Prop}
  {c₀ c : Config CallId World Request Request.Answer Status Reply}

theorem reach_stored (h : Reach (system settings connection faulty provider) cond c₀ c)
    (i : CallId) (statement : Statement) {k : statement.Answer → Service Reply}
    (hp : c.pool i = .live (.ask (.storage statement) k))
    (hc : cond c.world
      (.asked i (.storage statement) (exec settings connection c.world.now statement c.world.db).1)
      { c.world with db := (exec settings connection c.world.now statement c.world.db).2 }) :
    Reach (system settings connection faulty provider) cond c₀
      ⟨{ c.world with db := (exec settings connection c.world.now statement c.world.db).2 },
        update c.pool i
          (.live (k (exec settings connection c.world.now statement c.world.db).1))⟩ :=
  h.step (.asked hp ⟨rfl, rfl, Or.inl rfl⟩) hc

theorem reach_called (h : Reach (system settings connection faulty provider) cond c₀ c)
    (i : CallId) (call : ProviderCall) (answer : call.Answer) (account : Option ProviderAccount)
    {k : call.Answer → Service Reply} (hp : c.pool i = .live (.ask (.provider call) k))
    (hs : provider i call c.world.account answer account)
    (hc : cond c.world (.asked i (.provider call) answer) { c.world with account := account }) :
    Reach (system settings connection faulty provider) cond c₀
      ⟨{ c.world with account := account }, update c.pool i (.live (k answer))⟩ :=
  h.step (.asked hp ⟨rfl, rfl, hs⟩) hc

theorem reach_crashed (h : Reach (system settings connection faulty provider) cond c₀ c)
    (i : CallId) {q : Request} {k : q.Answer → Service Reply} (hp : c.pool i = .live (.ask q k))
    (hc : cond c.world (.crashed i) c.world) :
    Reach (system settings connection faulty provider) cond c₀
      ⟨c.world, update c.pool i .crashed⟩ :=
  h.step (.crashed hp rfl) hc

variable {i : CallId} {r : Except Status Reply} {tr : List Asked}
  {w' : World}

theorem runs_stored (w : World) (statement : Statement) {k : statement.Answer → Service Reply}
    (h : Call.Runs (Served settings connection faulty provider i) Later
      (k (exec settings connection w.now statement w.db).1)
      { w with db := (exec settings connection w.now statement w.db).2 } tr r w') :
    Call.Runs (Served settings connection faulty provider i) Later (.ask (.storage statement) k) w
      (⟨.storage statement, (exec settings connection w.now statement w.db).1⟩ :: tr) r w' := by
  refine .ask ⟨le_refl _, rfl, rfl⟩ ?_ h
  exact ⟨rfl, rfl, Or.inl rfl⟩

theorem runs_called (w : World) (call : ProviderCall) (answer : call.Answer)
    (account : Option ProviderAccount) (hs : provider i call w.account answer account)
    {k : call.Answer → Service Reply}
    (h : Call.Runs (Served settings connection faulty provider i) Later (k answer)
      { w with account := account } tr r w') :
    Call.Runs (Served settings connection faulty provider i) Later (.ask (.provider call) k) w
      (⟨.provider call, answer⟩ :: tr) r w' := by
  refine .ask ⟨le_refl _, rfl, rfl⟩ ?_ h
  exact ⟨rfl, rfl, hs⟩

theorem runs_returned (w : World) (r : Except Status Reply) :
    Call.Runs (Served settings connection faulty provider i) Later (.done r : Service Reply) w [] r
      w :=
  .done ⟨le_refl _, rfl, rfl⟩

theorem runs_given {c c' : Service Reply} (heq : c = c')
    (h : Call.Runs (Served settings connection faulty provider i) Later c' w tr r w') :
    Call.Runs (Served settings connection faulty provider i) Later c w tr r w' :=
  heq ▸ h

theorem alone_finished {w : World} {r' : Except Status Reply}
    (h : Alone settings connection faulty i (.finished r) w tr r' w') :
    r' = r ∧ tr = [] ∧ w'.db = w.db ∧ w'.account = w.account := by
  obtain ⟨heq, rfl, hlat⟩ := h.returned rfl
  exact ⟨(Stage.finished.inj heq).symm, rfl, hlat.2.1, hlat.2.2⟩

end Playing

/-! ## Roles -/

inductive Role where
  | create
  | rotate
  | revoke
deriving DecidableEq

def CallId.role : CallId → Role
  | create => .create
  | rotate _ => .rotate
  | revoke _ => .revoke

def Stage.role : Stage → Option Role
  | inserting _ | calling _ | recording .. | listing .. | identifying .. | granting ..
  | grouping .. | completing .. | undoing _ | discarding _ | probing .. | giving_up =>
    some .create
  | marking .. | replacing .. | confirming _ | settling _ | publishing .. => some .rotate
  | claiming .. | locating .. | deleting .. | doubting .. | removing .. => some .revoke
  | finished _ => none

section Roles

variable {W : Type} {q : Request} {s s' : Stage} {callers : Callers}

theorem Next.role {a : q.Answer} (h : Next settings connection s q a s') :
    s'.role = none ∨ s'.role = s.role := by
  cases h <;> simp [Stage.role]

def Stage.claimed_row : Stage → Option ConnectionRow
  | locating _ row | deleting _ row _ | doubting _ row | removing _ row => some row
  | _ => none

theorem Next.claim {a : q.Answer} (h : Next settings connection s q a s') {row : ConnectionRow}
    (hs' : s'.claimed_row = some row) :
    s.claimed_row = some row ∨ ∃ principal answer,
      (⟨q, a⟩ : Asked) = ⟨.storage (.claim_for_revocation principal), answer⟩ ∧
      answer = .ok row := by
  cases h with
  | claimed_known | claimed_unknown =>
    exact Or.inr ⟨_, _, rfl, congrArg _ (Option.some.inj hs')⟩
  | located | nowhere | lookup_failed | deleted | not_deleted | gone => exact Or.inl hs'
  | _ => exact absurd hs' (by simp [Stage.claimed_row])

theorem Next.create_account {name : Text} {answer : (ProviderCall.create_account name).Answer}
    (h : Next settings connection s (.provider (.create_account name)) answer s') :
    s.role = some .create := by
  cases h <;> rfl

theorem start_unclaimed (callers : Callers) (i : CallId) :
    (start connection callers i).claimed_row = none ∧
      ∀ reply, start connection callers i ≠ .finished (.ok reply) := by
  cases i <;> rw [start] <;> split <;> simp [Stage.claimed_row]

def Cast (d : (machine settings connection).Staged CallId W) : Prop :=
  ∀ i s, d.stage i = some s → ∀ r, s.role = some r → i.role = r

theorem start_role {i : CallId} {r : Role} (h : (start connection callers i).role = some r) :
    i.role = r := by
  cases i <;>
  · rw [start] at h
    split at h <;> simp_all [Stage.role, CallId.role]

theorem staged_cast {w : W} : Cast (staged settings connection callers w) := by
  rintro i s hs r hr
  obtain rfl := Option.some.inj hs
  exact start_role hr

theorem Cast.step {S : System CallId W Request Request.Answer}
    {l : Turn}
    {d d' : (machine settings connection).Staged CallId W} (h : Cast d)
    (hste : (machine settings connection).Step S d l d') : Cast d' := by
  intro j s' hs' r hr
  rcases hste.stage hs' with hs | ⟨s, q, a, -, hs, hnex, -⟩
  · exact h j s' hs r hr
  · rcases Next.role hnex with hnone | hsam
    · rw [hnone] at hr
      simp at hr
    · exact h j s hs r (hsam ▸ hr)

end Roles

theorem step_db {faulty : Bool} {provider : Provider}
    {d d' : Staged settings connection}
    {l : Turn}
    (h : (machine settings connection).Step (system settings connection faulty provider) d l d') :
    d'.world.db = d.world.db ∨ ∃ i s s' statement answer, l = .asked i (.storage statement) answer ∧
      d.stage i = some s ∧ Next settings connection s (.storage statement) answer s' ∧
      d'.stage i = some s' ∧ ∃ answer',
        Effect settings connection d.world.now statement d.world.db answer' d'.world.db := by
  cases h with
  | @asked i s s' q a w hi hnex hser =>
    cases q with
    | provider call => exact Or.inl hser.2.1
    | storage statement =>
      rcases Stored.db hser with hkep | hdon
      · exact Or.inl hkep
      · exact Or.inr ⟨i, s, s', statement, a, rfl, hi, hnex, update_self .., hdon⟩
  | crashed hi hope hcra => exact Or.inl (congrArg World.db hcra)
  | idled hidl => exact Or.inl hidl.2.1

end SovereignConfig.Managed
