/-
`values/shim.rs`: the protocol versions of the `Configuration` service. From `v4` on a malformed
request is refused before the caller is authorized. No statement reads the label.
-/
import SovereignConfig.Lib.Translate
import SovereignConfig.Values.Normalize
import SovereignConfig.Values.Transaction

namespace SovereignConfig

def Actor.labelled (version : Text) (actor : Actor) : Actor :=
  { actor with protocol_version := version }

def AuditRow.labelled (version : Text) (row : AuditRow) : AuditRow :=
  { row with actor := row.actor.labelled version }

namespace Values

open Lib Text Call

variable {env : Env} {db : Db} {α : Type}

structure Validation where
  put_value : Option PutContent → Except Status Unit
  replace_sub_tree : List SubTreeEntry → Except Status Unit

/-- The policy of `v3`: validate nothing here. -/
def Deferred : Validation := ⟨fun _ => .ok (), fun _ => .ok ()⟩

def PutContent.text : PutContent → Text
  | .Plain value => value
  | .Secret value => value

def Upfront : Validation where
  put_value
    | none => .error (.invalid_argument "configuration value is invalid")
    | some written =>
      if contains_char written.text '\x00' then
        .error (.invalid_argument "configuration value contains an invalid character")
      else .ok ()
  replace_sub_tree values :=
    if values.any fun value => value.content.isNone then
      .error (.invalid_argument "configuration subtree is invalid")
    else .ok ()

/-! ## The adapter -/

namespace proto

inductive PutValueContent where
  | PlainValue (value : Text)
  | SecretValue (value : Text)
deriving DecidableEq

structure PutValueRequest where
  path : Text
  content : Option PutValueContent
deriving DecidableEq

structure PutValueResponse where
  created_at : Option Timestamp
  updated_at : Option Timestamp
deriving DecidableEq

inductive MutationValueContent where
  | PlainValue (value : Text)
  | PreserveSecret
deriving DecidableEq

structure SubTreeMutationValue where
  path : Text
  content : Option MutationValueContent
deriving DecidableEq

structure ReplaceSubTreeRequest where
  path : Text
  values : List SubTreeMutationValue
deriving DecidableEq

structure ReplaceSubTreeResponse where
  updated_at : Option Timestamp
  value_count : ℕ
deriving DecidableEq

end proto

def proto.PutValueContent.written : proto.PutValueContent → PutContent
  | .PlainValue value => .Plain value
  | .SecretValue value => .Secret value

def proto.MutationValueContent.entry : proto.MutationValueContent → SubTreeEntryContent
  | .PlainValue value => .PlainValue value
  | .PreserveSecret => .PreserveSecret

def subtree_entry (value : proto.SubTreeMutationValue) : SubTreeEntry :=
  ⟨value.path, value.content.map proto.MutationValueContent.entry⟩

namespace configuration_shim

def put_value (validation : Validation) (context : CallContext) (message : proto.PutValueRequest) :
    Service proto.PutValueResponse := do
  let written := message.content.map proto.PutValueContent.written
  Call.lift (validation.put_value written)
  let metadata ← Values.put_value context message.path written
  return ⟨some metadata.created_at, some metadata.updated_at⟩

def replace_sub_tree (validation : Validation) (context : CallContext)
    (message : proto.ReplaceSubTreeRequest) : Service proto.ReplaceSubTreeResponse := do
  let values := message.values.map subtree_entry
  Call.lift (validation.replace_sub_tree values)
  let metadata ← Values.replace_sub_tree context message.path values
  return ⟨some metadata.updated_at, metadata.value_count⟩

end configuration_shim

inductive WriteRequest where
  | PutValue (message : proto.PutValueRequest)
  | ReplaceSubTree (message : proto.ReplaceSubTreeRequest)
deriving DecidableEq

inductive WriteResponse where
  | PutValue (message : proto.PutValueResponse)
  | ReplaceSubTree (message : proto.ReplaceSubTreeResponse)
deriving DecidableEq

namespace WriteRequest

def serve (validation : Validation) (context : CallContext) : WriteRequest → Service WriteResponse
  | PutValue message => .PutValue <$> configuration_shim.put_value validation context message
  | ReplaceSubTree message =>
    .ReplaceSubTree <$> configuration_shim.replace_sub_tree validation context message

def check (validation : Validation) : WriteRequest → Except Status Unit
  | PutValue message => validation.put_value (message.content.map proto.PutValueContent.written)
  | ReplaceSubTree message => validation.replace_sub_tree (message.values.map subtree_entry)

def shared (context : CallContext) : WriteRequest → Service WriteResponse
  | PutValue message =>
    (put_value context message.path (message.content.map proto.PutValueContent.written)).bind
      fun metadata =>
        .done (.ok (.PutValue ⟨some metadata.created_at, some metadata.updated_at⟩))
  | ReplaceSubTree message =>
    (replace_sub_tree context message.path (message.values.map subtree_entry)).bind
      fun metadata =>
        .done (.ok (.ReplaceSubTree ⟨some metadata.updated_at, metadata.value_count⟩))

theorem serve_eq (validation : Validation) (context : CallContext) (request : WriteRequest) :
    request.serve validation context
      = (Call.lift (request.check validation)).bind fun _ => request.shared context := by
  cases request with
  | PutValue message =>
    show (((Call.lift _).bind _).bind _ : Service WriteResponse) = _
    rw [bind_assoc]
    refine congrArg _ (funext fun _ => ?_)
    exact bind_assoc _ _ _
  | ReplaceSubTree message =>
    show (((Call.lift _).bind _).bind _ : Service WriteResponse) = _
    rw [bind_assoc]
    refine congrArg _ (funext fun _ => ?_)
    exact bind_assoc _ _ _

end WriteRequest

variable {e : Status} {request : WriteRequest}

theorem upfront_put_value {written : Option PutContent} (h : Upfront.put_value written = .error e) :
    e.code = .InvalidArgument ∧ ∀ value classification,
      put_content written = .ok (value, classification) → contains_char value '\x00' = true := by
  cases written with
  | none =>
    obtain rfl := Except.error.inj h
    exact ⟨rfl, fun _ _ hcon => nomatch hcon⟩
  | some written =>
    simp only [Upfront] at h
    split_ifs at h with hnul
    obtain rfl := Except.error.inj h
    refine ⟨rfl, fun value classification hcon => ?_⟩
    cases written with
    | Plain text =>
      obtain ⟨rfl, -⟩ := Prod.mk.inj (Except.ok.inj hcon)
      exact hnul
    | Secret text =>
      obtain ⟨rfl, -⟩ := Prod.mk.inj (Except.ok.inj hcon)
      exact hnul

theorem upfront_replace_sub_tree {values : List SubTreeEntry}
    (h : Upfront.replace_sub_tree values = .error e) :
    e.code = .InvalidArgument ∧ ∃ value ∈ values, value.content = none := by
  simp only [Upfront] at h
  split_ifs at h with huns
  obtain rfl := Except.error.inj h
  obtain ⟨value, hval, hnone⟩ := List.any_eq_true.mp huns
  exact ⟨rfl, value, hval, Option.isNone_iff_eq_none.mp hnone⟩

/-- **What the early check refuses, the shared implementation refuses**, whoever calls and
whatever is stored, and before it asks the store for anything. -/
theorem shared_refuses (context : CallContext) (h : request.check Upfront = .error e) :
    e.code = .InvalidArgument ∧ ∃ e', request.shared context = .done (.error e') := by
  cases request with
  | PutValue message =>
    obtain ⟨hcod, href⟩ := upfront_put_value h
    refine ⟨hcod, ?_⟩
    simp only [WriteRequest.shared, put_value, bind_eq, lift_eq]
    cases haut : authorize context message.path [.Write] false with
    | error e' => exact ⟨e', rfl⟩
    | ok path =>
      cases hcon : put_content (message.content.map proto.PutValueContent.written) with
      | error e' => exact ⟨e', rfl⟩
      | ok content =>
        simp only [done_ok_bind, if_pos (href content.1 content.2 hcon)]
        exact ⟨_, rfl⟩
  | ReplaceSubTree message =>
    obtain ⟨hcod, value, hval, hnone⟩ := upfront_replace_sub_tree h
    refine ⟨hcod, ?_⟩
    simp only [WriteRequest.shared, replace_sub_tree, bind_eq, lift_eq]
    cases haut : authorize context message.path [.Write, .Manage] true with
    | error e' => exact ⟨e', rfl⟩
    | ok path =>
      cases hnor : normalize path (message.values.map subtree_entry) with
      | error e' => exact ⟨e', by simp only [done_ok_bind, hnor]; rfl⟩
      | ok normalized =>
        -- `normalize` lets no entry through whose content is unset.
        have hcon := ((normalize_eq_ok hnor).1 value hval).1
        rw [hnone] at hcon
        exact absurd hcon (by decide)

/-! ## The label of an event -/

def Tables.recorded (base : List AuditRow) (version : Text) (t : Tables) : Tables :=
  { t with audit := base ++ t.audit.map (AuditRow.labelled version) }

def Db.recorded (base : List AuditRow) (version : Text) (db : Db) : Db :=
  ⟨db.committed.recorded base version, db.working.recorded base version, db.next_content_id⟩

def Request.labelled (version : Text) : Request → Request
  | insert_events actor occurred_at events =>
      insert_events (actor.labelled version) occurred_at events
  | q => q

theorem Request.labelled_answer (version : Text) (q : Request) :
    q.Answer = (q.labelled version).Answer := by
  cases q <;> rfl

def labels (version : Text) : Translation Request Request.Answer where
  request := Request.labelled version
  answer q := cast (q.labelled_answer version)
  covers _ := True

section Recorded

variable {base : List AuditRow} {version : Text}

theorem apply_recorded (db : Db) (answer : α) (written : Option Tables) :
    (db.recorded base version).apply answer (written.map (Tables.recorded base version)) =
      ((db.apply answer written).1, (db.apply answer written).2.recorded base version) := by
  cases written <;> rfl

theorem insert_content_recorded (t : Tables) (row : ContentRow) :
    (t.recorded base version).insert_content_row row =
      (t.insert_content_row row).map (Tables.recorded base version) :=
  Tables.constrained_map Iff.rfl fun _ _ => rfl

theorem insert_path_recorded (t : Tables) (row : PathRow) :
    (t.recorded base version).insert_path_row row =
      (t.insert_path_row row).map (Tables.recorded base version) :=
  Tables.constrained_map Iff.rfl fun _ _ => rfl

theorem update_content_recorded (t : Tables) (id : ℕ) (value : Text)
    (classification : Classification) (now : OffsetDateTime) :
    (t.recorded base version).update_content_row id value classification now =
      (t.update_content_row id value classification now).map (Tables.recorded base version) :=
  Tables.constrained_map Iff.rfl fun _ _ => rfl

theorem exec_recorded (env : Env) (q : Request) (db : Db) :
    exec env (q.labelled version) (db.recorded base version) =
      ((labels version).answer q (exec env q db).1, (exec env q db).2.recorded base version) := by
  cases q with
  | insert_content id value classification now =>
    exact (congrArg ((db.recorded base version).apply (⟨id, now, now⟩ : InsertedContentRow))
      (insert_content_recorded db.working _)).trans (apply_recorded db _ _)
  | insert_path path id now =>
    exact (congrArg ((db.recorded base version).apply ())
      (insert_path_recorded db.working _)).trans (apply_recorded db () _)
  | update_content id stored classification now =>
    have hrow : (db.recorded base version).working.content_row id = db.working.content_row id := rfl
    have hupd : (db.recorded base version).working.update_content_row id stored classification
        now = _ := update_content_recorded db.working id stored classification now
    simp only [Request.labelled, exec, hrow, hupd]
    cases db.working.content_row id with
    | none => rfl
    | some row => exact apply_recorded db _ _
  | update_plain_content id value now =>
    have hrow : (db.recorded base version).working.content_row id = db.working.content_row id := rfl
    have hupd : (db.recorded base version).working.update_content_row id value .PLAIN now
        = _ := update_content_recorded db.working id value .PLAIN now
    simp only [Request.labelled, exec, hrow, hupd]
    cases db.working.content_row id with
    | none => rfl
    | some row => exact apply_recorded db _ _
  | insert_events actor occurred_at events =>
    have happ : (db.working.recorded base version).insert_audit_rows
        (events.map fun event => ⟨actor.labelled version, occurred_at, event⟩) =
      (db.working.insert_audit_rows
        (events.map fun event => ⟨actor, occurred_at, event⟩)).recorded base version := by
      simp [Tables.insert_audit_rows, Tables.recorded, AuditRow.labelled, Function.comp_def]
    exact congrArg (fun t => (db.recorded base version).apply () (some t)) happ
  | encrypt id classification value =>
    show exec env (.encrypt id classification value) (db.recorded base version) = _
    simp only [exec]
    cases env.encrypt id classification value <;> rfl
  | _ => rfl

/-! ## The operations under a label -/

theorem labels_lift (r : Except Status α) :
    (labels version).Calls Eq (Call.lift r : Service α) (Call.lift r) := .done (agree_refl r)

def Request.bare : Request → Bool
  | insert_events .. => false
  | _ => true

variable {x : Service α}

theorem labels_self (h : x.Asks fun q => q.bare = true) : (labels version).Calls Eq x x := by
  induction x with
  | done r => exact .done (agree_refl r)
  | ask q k ih =>
    cases q with
    | insert_events => exact absurd h.1 Bool.false_ne_true
    | _ => exact .ask trivial fun a => ih a (h.2 a)

theorem labels_query {q : Request} (h : q.bare = true) :
    (labels version).Calls Eq (query q) (query q) := labels_self ⟨h, fun _ => trivial⟩

theorem labels_quiet (h : Quiet x) : (labels version).Calls Eq x x := by
  refine labels_self (h.imp fun q hq => ?_)
  cases q with
  | insert_events => exact hq
  | _ => rfl

theorem labels_lock_mutation_path (path : ConfigPath) :
    (labels version).Calls Eq (lock_mutation_path path) (lock_mutation_path path) := by
  refine labels_self (Call.Asks.forM (fun lock => ?_) _)
  exact ⟨rfl, fun _ => trivial⟩

theorem labels_actor (caller : Option AuthenticatedPrincipal) :
    (labels version).Calls (fun actor actor' => actor' = actor.labelled version)
      (Call.lift (CallContext.actor ⟨caller, none⟩) : Service Actor)
      (Call.lift (CallContext.actor ⟨caller, some version⟩)) := by
  cases caller with
  | none => exact .done (.error _)
  | some principal => exact .done (.ok rfl)

theorem labels_record_in (actor : Actor) (now : OffsetDateTime) (events : List AuditEvent) :
    (labels version).Calls Eq (record_in actor now events)
      (record_in (actor.labelled version) now events) :=
  Translation.Calls.ask (q := Request.insert_events actor now events) trivial
    fun a => .done (agree_refl a)

theorem labels_put_value (caller : Option AuthenticatedPrincipal) (path : Text)
    (written : Option PutContent) :
    (labels version).Calls Eq (put_value ⟨caller, none⟩ path written)
      (put_value ⟨caller, some version⟩ path written) := by
  refine (labels_lift _).then_same fun root => ?_
  refine (labels_lift _).then_same fun content => ?_
  obtain ⟨value, classification⟩ := content
  simp only
  split
  · exact labels_lift _
  · refine (labels_actor caller).bind fun actor _ hact => ?_
    subst hact
    refine (labels_query rfl).then_same fun _ => ?_
    refine (labels_lock_mutation_path root).then_same fun _ => ?_
    refine (labels_query rfl).then_same fun now => ?_
    refine (labels_query rfl).then_same fun existing => ?_
    refine (labels_quiet (quiet_write_value _ _ _ _ _)).then_same fun row => ?_
    refine (labels_record_in actor now _).then_same fun _ => ?_
    exact (labels_query rfl).then_same fun _ => labels_lift _

theorem labels_replace_sub_tree (caller : Option AuthenticatedPrincipal) (path : Text)
    (values : List SubTreeEntry) :
    (labels version).Calls Eq (replace_sub_tree ⟨caller, none⟩ path values)
      (replace_sub_tree ⟨caller, some version⟩ path values) := by
  refine (labels_lift _).then_same fun root => ?_
  refine (labels_lift _).then_same fun normalized => ?_
  refine (labels_actor caller).bind fun actor _ hact => ?_
  subst hact
  refine (labels_query rfl).then_same fun _ => ?_
  refine (labels_lock_mutation_path root).then_same fun _ => ?_
  refine (labels_query rfl).then_same fun secret_paths => ?_
  refine (labels_lift _).then_same fun keep => ?_
  refine (labels_query rfl).then_same fun now => ?_
  refine (labels_query rfl).then_same fun cleared => ?_
  refine (labels_quiet (quiet_prune_orphan_contents _)).then_same fun _ => ?_
  refine (labels_quiet (quiet_resolve_plain_writes _)).then_same fun writes => ?_
  refine (labels_quiet (quiet_update_shared _ _)).then_same fun previous => ?_
  refine (labels_quiet (quiet_insert_fresh _ _ _)).then_same fun _ => ?_
  refine (labels_record_in actor now _).then_same fun _ => ?_
  exact (labels_query rfl).then_same fun _ => labels_lift _

theorem labels_shared (caller : Option AuthenticatedPrincipal) (request : WriteRequest) :
    (labels version).Calls Eq (request.shared ⟨caller, none⟩)
      (request.shared ⟨caller, some version⟩) := by
  cases request with
  | PutValue message =>
    exact (labels_put_value caller _ _).then_same fun _ => .done (agree_refl _)
  | ReplaceSubTree message =>
    exact (labels_replace_sub_tree caller _ _).then_same fun _ => .done (agree_refl _)

end Recorded

/-! ## One call on one store -/

def Begins : Service α → Prop
  | .done _ => True
  | .ask q _ => q = .begin

theorem Begins.lift {β : Type} {r : Except Status β} {f : β → Service α} (h : ∀ b, Begins (f b)) :
    Begins ((Call.lift r).bind f) := by
  cases r with
  | ok b => exact h b
  | error e => trivial

theorem Begins.map {β : Type} {x : Service β} (h : Begins x) (f : β → α) :
    Begins (x.bind fun b => .done (.ok (f b))) := by
  cases x with
  | done r => cases r <;> trivial
  | ask q k => exact h

theorem begins_shared (context : CallContext) (request : WriteRequest) :
    Begins (request.shared context) := by
  cases request with
  | PutValue message =>
    refine Begins.map (.lift fun path => .lift fun content => ?_) _
    obtain ⟨value, classification⟩ := content
    simp only
    split
    · trivial
    · exact .lift fun actor => rfl
  | ReplaceSubTree message =>
    refine Begins.map (.lift fun path => .lift fun normalized => .lift fun actor => ?_) _
    rfl

theorem perform_begins {x : Service α} (h : Begins x) (db : Db) :
    perform env x db = perform env x { db with working := db.committed } := by
  cases x with
  | done r => rfl
  | ask q k =>
    obtain rfl : q = .begin := h
    rfl

theorem transaction_shared (context : CallContext) (request : WriteRequest) :
    ∃ plan, Transaction (request.shared context) plan := by
  cases request with
  | PutValue message => exact ⟨_, (transaction_put_value context _ _).map⟩
  | ReplaceSubTree message => exact ⟨_, (transaction_replace_sub_tree context _ _).map⟩

theorem shared_failed {context : CallContext}
    (h : (perform env (request.shared context) db).1 = .error e) :
    (perform env (request.shared context) db).2.committed = db.committed := by
  obtain ⟨plan, hpla⟩ := transaction_shared context request
  have hrun : (request.shared context).run (exec env) db
      = (.error e, ((request.shared context).run (exec env) db).2) := Prod.ext h rfl
  have hkep := hpla.failed hrun
  exact hkep

def Db.untold (db : Db) : Db :=
  ⟨{ db.committed with audit := [] }, { db.committed with audit := [] }, db.next_content_id⟩

/-- **A version is a label**: what a call under any version answers and leaves is what the
call without one does on the untold store, with the events it recorded put behind the trail
under the version. -/
theorem perform_recorded (caller : Option AuthenticatedPrincipal) (version : Text)
    (request : WriteRequest) (db : Db) :
    perform env (request.shared ⟨caller, some version⟩) db =
      ((perform env (request.shared ⟨caller, none⟩) db.untold).1,
        (perform env (request.shared ⟨caller, none⟩) db.untold).2.recorded
          db.committed.audit version) := by
  have hfou : db.untold.recorded db.committed.audit version
      = { db with working := db.committed } := by
    have ht : ({ db.committed with audit := [] } : Tables).recorded db.committed.audit version
        = db.committed := Tables.ext rfl rfl (List.append_nil _)
    rw [Db.recorded]
    simp only [Db.untold, ht]
  have hser : ∀ (q : Request) (w : Db), (labels version).covers q →
      exec env (q.labelled version) (w.recorded db.committed.audit version) =
        ((labels version).answer q (exec env q w).1,
          (exec env q w).2.recorded db.committed.audit version) :=
    fun q w _ => exec_recorded env q w
  obtain ⟨hres, hdb⟩ := Translation.Calls.run hser (labels_shared caller request) db.untold
  rw [hfou] at hres hdb
  rw [perform_begins (begins_shared _ request) db]
  unfold perform
  simp only [hdb, ← hres.eq]
  rfl

theorem perform_serve (validation : Validation) (context : CallContext) (request : WriteRequest)
    (db : Db) :
    perform env (request.serve validation context) db =
      match request.check validation with
      | .error e => (.error e, { db with working := db.committed })
      | .ok _ => perform env (request.shared context) db := by
  rw [WriteRequest.serve_eq]
  cases request.check validation <;> rfl

/-- **The versions differ in the order of their errors only.** -/
theorem versions_differ_in_error_order (env : Env) (db : Db)
    (caller : Option AuthenticatedPrincipal) (v3 later : Text) (request : WriteRequest) :
    let first := perform env (request.serve Deferred ⟨caller, some v3⟩) db
    let second := perform env (request.serve Upfront ⟨caller, some later⟩) db
    ((∃ (response : WriteResponse) (after : Db),
        first = (.ok response, after.recorded db.committed.audit v3) ∧
        second = (.ok response, after.recorded db.committed.audit later)) ∨
      (∃ e e', first.1 = .error e ∧ second.1 = .error e' ∧
        first.2.committed = db.committed ∧ second.2.committed = db.committed)) ∧
    (first.1 ≠ second.1 → ∃ e, request.check Upfront = .error e) ∧
    ∀ e, request.check Upfront = .error e →
      e.code = .InvalidArgument ∧ second.1 = .error e ∧ ∃ e', first.1 = .error e' := by
  have hfir : perform env (request.serve Deferred ⟨caller, some v3⟩) db
      = perform env (request.shared ⟨caller, some v3⟩) db := by
    rw [perform_serve]
    cases request <;> rfl
  intro first second
  cases hche : request.check Upfront with
  | error e =>
    have hsec : second = (.error e, { db with working := db.committed }) := by
      rw [show second = _ from perform_serve Upfront _ request db, hche]
    obtain ⟨hcod, e', hsha⟩ := shared_refuses ⟨caller, some v3⟩ hche
    have href : first = (.error e', { db with working := db.committed }) := by
      rw [show first = _ from hfir, hsha]
      rfl
    rw [hsec, href]
    refine ⟨Or.inr ⟨e', e, rfl, rfl, rfl, rfl⟩, fun _ => ⟨e, rfl⟩, fun e'' he => ?_⟩
    obtain rfl := Except.error.inj he
    exact ⟨hcod, rfl, e', rfl⟩
  | ok u =>
    have hsec : second = perform env (request.shared ⟨caller, some later⟩) db := by
      rw [show second = _ from perform_serve Upfront _ request db, hche]
    rw [hsec, show first = _ from hfir]
    refine ⟨?_, fun hne => ?_, fun e he => nomatch he⟩
    · cases hres : (perform env (request.shared ⟨caller, none⟩) db.untold).1 with
      | ok response =>
        rw [perform_recorded, perform_recorded, hres]
        exact Or.inl ⟨response, _, rfl, rfl⟩
      | error e =>
        have hfai : ∀ version,
            (perform env (request.shared ⟨caller, some version⟩) db).1 = .error e := by
          intro version
          rw [perform_recorded]
          exact hres
        exact Or.inr ⟨e, e, hfai v3, hfai later, shared_failed (hfai v3),
          shared_failed (hfai later)⟩
    · rw [perform_recorded, perform_recorded] at hne
      exact absurd rfl hne

def unset_put : WriteRequest := .PutValue ⟨"/a".toList, none⟩

/-- Without a caller, `v3` asks for authentication and `v5` refuses the content. -/
theorem unset_content_differs :
    (perform quiet_env (unset_put.serve Upfront ⟨none, some "v5".toList⟩) .empty).1
        = .error (.invalid_argument "configuration value is invalid") ∧
      (perform quiet_env (unset_put.serve Deferred ⟨none, some "v3".toList⟩) .empty).1
        = .error (.unauthenticated "authentication required") ∧
      unset_put.check Upfront = .error (.invalid_argument "configuration value is invalid") := by
  obtain ⟨-, -, href⟩ := versions_differ_in_error_order quiet_env .empty none
    "v3".toList "v5".toList unset_put
  have hv3 : (perform quiet_env (unset_put.serve Deferred ⟨none, some "v3".toList⟩) .empty).1
      = .error (.unauthenticated "authentication required") := rfl
  have hche : unset_put.check Upfront
      = .error (.invalid_argument "configuration value is invalid") := rfl
  exact ⟨(href _ hche).2.1, hv3, hche⟩

end Values

end SovereignConfig
