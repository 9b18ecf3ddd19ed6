/-
`values/service.rs`: the mutations of the `Configuration` service, statement by statement. A call
that returns an error drops its transaction.
-/
import SovereignConfig.Lib.LockOrder
import SovereignConfig.Values.Store
import SovereignConfig.Values.Subtree

namespace SovereignConfig.Values

open Lib Text

abbrev Service (α : Type) := Call Request Request.Answer Status α

def query (q : Request) : Service q.Row := .ask q .done

/-! ## The store's functions, one request each -/

namespace store

def begin : Service Unit := query .begin

def commit : Service Unit := query .commit

def lock_path (path : Text) (exclusive : Bool) : Service Unit := query (.lock_path path exclusive)

def lock_content (content_id : ℕ) : Service Unit := query (.lock_content content_id)

def path_collides (path : Text) : Service Bool := query (.path_collides path)

def reserve_content_id : Service ℕ := query .reserve_content_id

def insert_content (content_id : ℕ) (value : Text) (classification : Classification)
    (now : OffsetDateTime) : Service InsertedContentRow :=
  query (.insert_content content_id value classification now)

def insert_path (path : Text) (content_id : ℕ) (now : OffsetDateTime) : Service Unit :=
  query (.insert_path path content_id now)

def delete_orphan_contents (content_ids : List ℕ) : Service Unit :=
  query (.delete_orphan_contents content_ids)

def path_content_class (fold : Text) : Service (Option PathContentClassRow) :=
  query (.path_content_class fold)

def update_content (content_id : ℕ) (stored : Text) (classification : Classification)
    (now : OffsetDateTime) : Service MutationRow :=
  query (.update_content content_id stored classification now)

def secret_paths_touching (fold : Text) : Service (List Text) :=
  query (.secret_paths_touching fold)

def delete_plain_paths_except (fold : Text) (keep : List Text) : Service (List DeletedPathRow) :=
  query (.delete_plain_paths_except fold keep)

def content_id_at (fold : Text) : Service (Option ℕ) := query (.content_id_at fold)

def update_plain_content (content_id : ℕ) (value : Text) (now : OffsetDateTime) :
    Service PreviousContentRow :=
  query (.update_plain_content content_id value now)

def delete_paths (fold : Text) (recurse : Bool) : Service (List DeletedPathRow) :=
  query (.delete_paths fold recurse)

def path_is_occupied (fold : Text) : Service Bool := query (.path_is_occupied fold)

end store

def record_in (actor : Actor) (time : OffsetDateTime) (events : List AuditEvent) : Service Unit :=
  query (.insert_events actor time events)

def system_time : Service OffsetDateTime := query .system_time

def encrypt (content_id : ℕ) (classification : Classification) (value : Text) : Service Text :=
  query (.encrypt content_id classification value)

structure PutMetadata where
  created_at : Timestamp
  updated_at : Timestamp
deriving DecidableEq

structure ReplaceMetadata where
  updated_at : Timestamp
  value_count : ℕ
deriving DecidableEq

structure DeleteMetadata where
  deleted_at : Timestamp
  deleted_count : ℕ
deriving DecidableEq

structure AddPathMetadata where
  created_at : Timestamp
deriving DecidableEq

/-! ## Locks (`values/store.rs`) -/

def ancestor_keys (built : Text) : List Text → List Text
  | [] => []
  | segment :: segments =>
    let built := built ++ '/' :: segment
    built :: ancestor_keys built segments

/-- The advisory locks of `lock_mutation_path`, in order: shared on the root and on every
proper ancestor from the top, then exclusive on the fold itself. -/
def mutation_locks (path : ConfigPath) : List (LockRequest Text) :=
  let fold := path.fold
  let parent := parent_path fold
  (if fold ≠ root_text then
    ⟨root_text, false⟩ ::
      (if parent ≠ root_text then
        (ancestor_keys [] ((parent.dropWhile (· == '/')).splitOn '/')).map (⟨·, false⟩)
      else [])
  else []) ++ [⟨fold, true⟩]

def lock_mutation_path (path : ConfigPath) : Service Unit :=
  (mutation_locks path).forM fun lock => store.lock_path lock.key lock.exclusive

def prune_orphan_contents (content_ids : List ℕ) : Service Unit :=
  if content_ids.isEmpty then return ()
  else do
    content_ids.forM fun content_id => store.lock_content content_id
    store.delete_orphan_contents content_ids

/-! ## `put_value` -/

inductive PutContent where
  | Plain (value : Text)
  | Secret (value : Text)
deriving DecidableEq

def stored_representation (content_id : ℕ) (classification : Classification) (value : Text) :
    Service Text :=
  if classification = .SECRET then encrypt content_id classification value
  else return value

def overwrite_existing (existing : PathContentClassRow) (value : Text)
    (classification : Classification) (now : OffsetDateTime) : Service MutationRow :=
  if existing.path_count > 1 ∧ existing.classification ≠ classification then
    Call.fail (.invalid_argument
      "configuration value has multiple paths and cannot change classification")
  else do
    let stored ← stored_representation existing.content_id classification value
    store.update_content existing.content_id stored classification now

def create_value (path : ConfigPath) (value : Text) (classification : Classification)
    (now : OffsetDateTime) : Service MutationRow := do
  if ← store.path_collides path.fold then
    Call.fail (.invalid_argument "configuration value collides with an existing value")
  else
    let content_id ← store.reserve_content_id
    let stored ← stored_representation content_id classification value
    let content ← store.insert_content content_id stored classification now
    store.insert_path path.as_str content.id now
    return ⟨content.created_at, content.updated_at⟩

def put_content : Option PutContent → Except Status (Text × Classification)
  | some (.Plain value) => .ok (value, .PLAIN)
  | some (.Secret value) => .ok (value, .SECRET)
  | none => .error (.invalid_argument "configuration value is invalid")

def write_value (path : ConfigPath) (existing : Option PathContentClassRow) (value : Text)
    (classification : Classification) (now : OffsetDateTime) : Service MutationRow :=
  match existing with
  | some existing => overwrite_existing existing value classification now
  | none => create_value path value classification now

def put_event (actor : Actor) (path : ConfigPath) (existing : Option PathContentClassRow)
    (written : Recorded) : AuditEvent :=
  match existing with
  | some existing =>
      .value_updated actor path.as_str (.of existing.classification existing.value) written
  | none => .value_created actor path.as_str written

def put_value (context : CallContext) (path : Text) (written : Option PutContent) :
    Service PutMetadata := do
  let path ← Call.lift (authorize context path [.Write] false)
  let (value, classification) ← Call.lift (put_content written)
  if contains_char value '\x00' then
    Call.fail (.invalid_argument "configuration value contains an invalid character")
  else do
    let actor ← Call.lift context.actor
    store.begin
    lock_mutation_path path
    let now ← system_time
    let existing ← store.path_content_class path.fold
    let row ← write_value path existing value classification now
    record_in actor now [put_event actor path existing (.of classification value)]
    store.commit
    return ⟨to_timestamp row.created_at, to_timestamp row.updated_at⟩

/-! ## `replace_sub_tree` -/

structure ResolvedWrites where
  shared : Std.TreeMap ℕ Text
  shared_paths : List (Text × ℕ)
  fresh : List (Text × Text)

def ResolvedWrites.empty : ResolvedWrites := ⟨∅, [], []⟩

def conflicting_values : Status :=
  .invalid_argument "configuration subtree assigns conflicting values to one stored value"

def ResolvedWrites.add (writes : ResolvedWrites) (path content : Text) :
    Option ℕ → Except Status ResolvedWrites
  | some content_id =>
    let shared_paths := writes.shared_paths ++ [(path, content_id)]
    match writes.shared[content_id]? with
    | some assigned =>
      if assigned ≠ content then .error conflicting_values
      else .ok { writes with shared_paths := shared_paths }
    | none =>
      .ok { writes with
        shared_paths := shared_paths
        shared := writes.shared.insert content_id content }
  | none => .ok { writes with fresh := writes.fresh ++ [(path, content)] }

def resolve_plain_writes (values : List SubTreeEntry) : Service ResolvedWrites :=
  values.foldlM (fun writes value =>
    match value.content with
    | some (.PlainValue content) => do
      let content_id ← store.content_id_at value.path
      Call.lift (writes.add value.path content content_id)
    | _ => return writes) .empty

def update_one (now : OffsetDateTime) (previous : Std.TreeMap ℕ PreviousContentRow)
    (write : ℕ × Text) : Service (Std.TreeMap ℕ PreviousContentRow) := do
  let replaced ← store.update_plain_content write.1 write.2 now
  return previous.insert write.1 replaced

def update_shared (now : OffsetDateTime) (shared : List (ℕ × Text)) :
    Service (Std.TreeMap ℕ PreviousContentRow) :=
  shared.foldlM (update_one now) ∅

def insert_one (now : OffsetDateTime) (displays : Displays) (write : Text × Text) :
    Service Unit := do
  let content_id ← store.reserve_content_id
  let inserted ← store.insert_content content_id write.2 .PLAIN now
  store.insert_path (display_of displays write.1) inserted.id now

def insert_fresh (now : OffsetDateTime) (displays : Displays) (fresh : List (Text × Text)) :
    Service Unit :=
  fresh.forM (insert_one now displays)

structure SubtreeChanges where
  cleared : List DeletedPathRow
  writes : ResolvedWrites
  previous : Std.TreeMap ℕ PreviousContentRow
  displays : Displays

def push_capped (events : List AuditEvent) (event : AuditEvent) : List AuditEvent :=
  if events.length < BULK_EVENT_CAP then events ++ [event] else events

def updated_events (actor : Actor) (changes : SubtreeChanges) : List AuditEvent :=
  changes.writes.shared_paths.filterMap fun (fold, content_id) => do
    let before ← changes.previous[content_id]?
    let after ← changes.writes.shared[content_id]?
    if before.value ≠ after ∨ before.classification ≠ .PLAIN then
      some (.value_updated actor (display_of changes.displays fold)
        (.of before.classification before.value) (.of .PLAIN after))
    else none

def replacement_events (actor : Actor) (root : ConfigPath) (changes : SubtreeChanges) :
    List AuditEvent :=
  let deleted := changes.cleared.map fun row =>
    AuditEvent.value_deleted actor row.path (.of row.classification row.value)
  let updated := updated_events actor changes
  let created := changes.writes.fresh.map fun (fold, content) =>
    AuditEvent.value_created actor (display_of changes.displays fold) (.of .PLAIN content)
  let events := (deleted ++ updated ++ created).foldl push_capped []
  let total := deleted.length + updated.length + created.length
  events ++ [.subtree_replaced actor root.as_str created.length updated.length deleted.length
    (total - events.length)]

def replace_sub_tree (context : CallContext) (path : Text) (values : List SubTreeEntry) :
    Service ReplaceMetadata := do
  let path ← Call.lift (authorize context path [.Write, .Manage] true)
  let normalized ← Call.lift (normalize path values)
  let actor ← Call.lift context.actor
  store.begin
  lock_mutation_path path
  let secret_paths ← store.secret_paths_touching path.fold
  let values := resolve_preserve_markers normalized.values secret_paths
  let keep ← Call.lift (plain_paths values secret_paths)
  let now ← system_time
  let cleared ← store.delete_plain_paths_except path.fold keep
  prune_orphan_contents (content_ids cleared)
  let writes ← resolve_plain_writes values
  let previous ← update_shared now writes.shared.toList
  insert_fresh now normalized.displays writes.fresh
  record_in actor now
    (replacement_events actor path ⟨cleared, writes, previous, normalized.displays⟩)
  store.commit
  return ⟨to_timestamp now, values.length⟩

/-! ## `delete_values` -/

def deletion_events (actor : Actor) (root : ConfigPath) (deleted : List DeletedPathRow)
    (recurse : Bool) : List AuditEvent :=
  let events := (deleted.map fun row =>
    AuditEvent.value_deleted actor row.path (.of row.classification row.value)).foldl
      push_capped []
  if recurse then
    events ++ [.subtree_deleted actor root.as_str deleted.length (deleted.length - events.length)]
  else events

def delete_values (context : CallContext) (path : Text) (recurse : Bool) :
    Service DeleteMetadata := do
  let path ← Call.lift (authorize context path [.Write] recurse)
  let actor ← Call.lift context.actor
  store.begin
  lock_mutation_path path
  let deleted ← store.delete_paths path.fold recurse
  if deleted.isEmpty then Call.fail (.not_found "configuration value not found")
  else do
    prune_orphan_contents (content_ids deleted)
    let deleted_at ← system_time
    record_in actor deleted_at (deletion_events actor path deleted recurse)
    store.commit
    return ⟨to_timestamp deleted_at, deleted.length⟩

/-! ## `add_value_path` -/

structure AliasPaths where
  source : Text
  new_path : Text
deriving DecidableEq

def alias_paths (context : CallContext) (paths : AliasPaths) :
    Except Status (Actor × ConfigPath × ConfigPath) := do
  let principal ← context.principal
  let actor ← context.actor
  let invalid := Status.invalid_argument "configuration path is invalid"
  let source ← (ConfigPath.parse_operation paths.source).mapError fun _ => invalid
  let new_path ← (ConfigPath.parse_operation paths.new_path).mapError fun _ => invalid
  if !principal.allows source .Read || !principal.allows source .Write
      || !principal.allows new_path .Write then
    .error (.permission_denied "configuration operation is not permitted")
  else if source.fold = new_path.fold then
    .error (.invalid_argument "configuration value already has that path")
  else .ok (actor, source, new_path)

/-- The order the two hierarchies are locked in: `ConfigPath` compares by the bytes of the fold. -/
def alias_order (source new_path : ConfigPath) : ConfigPath × ConfigPath :=
  if source.fold ≤ new_path.fold then (source, new_path) else (new_path, source)

def add_value_path (context : CallContext) (paths : AliasPaths) : Service AddPathMetadata := do
  let (actor, source, new_path) ← Call.lift (alias_paths context paths)
  store.begin
  lock_mutation_path (alias_order source new_path).1
  lock_mutation_path (alias_order source new_path).2
  match ← store.content_id_at source.fold with
  | none => Call.fail (.not_found "configuration value not found")
  | some content_id =>
    if ← store.path_is_occupied new_path.fold then
      Call.fail (.already_exists "configuration path already exists")
    else
      if ← store.path_collides new_path.fold then
        Call.fail (.invalid_argument "configuration value collides with an existing value")
      else
        let now ← system_time
        store.insert_path new_path.as_str content_id now
        record_in actor now (AuditEvent.path_added actor source new_path)
        store.commit
        return ⟨to_timestamp now⟩

/-! ## Mutations -/

inductive Mutation where
  | put_value (path : Text) (written : Option PutContent)
  | replace_sub_tree (path : Text) (values : List SubTreeEntry)
  | delete_values (path : Text) (recurse : Bool)
  | add_value_path (paths : AliasPaths)
deriving DecidableEq

inductive Reply where
  | put (metadata : PutMetadata)
  | replaced (metadata : ReplaceMetadata)
  | deleted (metadata : DeleteMetadata)
  | path_added (metadata : AddPathMetadata)
deriving DecidableEq

def Mutation.call (context : CallContext) : Mutation → Service Reply
  | put_value path written => Reply.put <$> Values.put_value context path written
  | replace_sub_tree path values => Reply.replaced <$> Values.replace_sub_tree context path values
  | delete_values path recurse => Reply.deleted <$> Values.delete_values context path recurse
  | add_value_path paths => Reply.path_added <$> Values.add_value_path context paths

def perform {α : Type} (env : Env) (call : Service α) (db : Db) : Except Status α × Db :=
  let (result, db) := call.run (exec env) db
  (result, { db with working := db.committed })

def Db.empty : Db := ⟨.empty, .empty, 1⟩

/-- The databases a sequence of calls can lead to, each call by any caller at any time, each
meeting `cond` in the state it finds; calls that fail are part of the sequence. -/
inductive Reachable (cond : Tables → Mutation → Prop) : Db → Prop
  | empty : Reachable cond .empty
  | step {db db' : Db} {env : Env} {context : CallContext} {mutation : Mutation}
      {result : Except Status Reply} :
      Reachable cond db → cond db.committed mutation →
      perform env (mutation.call context) db = (result, db') → Reachable cond db'

theorem Reachable.perform {cond : Tables → Mutation → Prop} {db : Db} (h : Reachable cond db)
    (env : Env) (context : CallContext) (mutation : Mutation) (hc : cond db.committed mutation) :
    Reachable cond (Values.perform env (mutation.call context) db).2 :=
  h.step hc rfl

def quiet_env : Env := ⟨0, fun _ _ value => some value⟩

/-- The operator's calls at time 0, one after another. -/
def performed (mutations : List Mutation) : Db :=
  mutations.foldl (fun db mutation => (perform quiet_env (mutation.call operator) db).2) .empty

/-- A value with two paths, a secret and a third value. The replacement changes the first, leaves the
secret, drops the third and adds a fourth; the deletion takes the second path of the first. -/
def mixed_mutations : List Mutation :=
  [.put_value "/a/x".toList (some (.Plain "x".toList)),
    .add_value_path ⟨"/a/x".toList, "/b/y".toList⟩,
    .put_value "/a/s".toList (some (.Secret "s".toList)),
    .put_value "/a/w".toList (some (.Plain "w".toList)),
    .replace_sub_tree "/a".toList [⟨"/a/x".toList, some (.PlainValue "z".toList)⟩,
      ⟨"/a/t/u".toList, some (.PlainValue "u".toList)⟩],
    .delete_values "/b".toList true]

end SovereignConfig.Values
