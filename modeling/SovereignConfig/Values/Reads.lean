/-
The reads of the `Configuration` service (`values/service.rs`). A read has no transaction, and a
plain read goes on if it cannot be recorded.
-/
import SovereignConfig.Confinement
import SovereignConfig.Lib.OrderBy
import SovereignConfig.Values.Encryption
import SovereignConfig.Values.Service

namespace SovereignConfig.Values

open Lib Text

/-! ## Rows -/

structure PathContentRow where
  path : Text
  lowercase_path : Text
  content_id : ℕ
  created_at : OffsetDateTime
deriving DecidableEq

structure ListedValueRow where
  path : Text
  lowercase_path : Text
  content_id : ℕ
  value : Text
  classification : Classification
  created_at : OffsetDateTime
  updated_at : OffsetDateTime
deriving DecidableEq

structure SubTreeRow where
  path : Text
  value : Text
  classification : Classification
deriving DecidableEq

structure PathWithFoldRow where
  path : Text
  lowercase_path : Text
deriving DecidableEq

structure RevealedRow where
  content_id : ℕ
  value : Text
  classification : Classification
deriving DecidableEq

namespace Tables

def ordered (t : Tables) : List (PathRow × ContentRow) :=
  order_by (fun pc => pc.1.lowercase_path) t.joined

def path_candidates (t : Tables) : List PathContentRow :=
  (order_by PathRow.lowercase_path t.paths).map fun p =>
    ⟨p.path, p.lowercase_path, p.content_id, p.created_at⟩

def listed_values (t : Tables) (fold_paths : List Text) : List ListedValueRow :=
  (t.ordered.filter fun pc => fold_paths.contains pc.1.lowercase_path).map fun pc =>
    ⟨pc.1.path, pc.1.lowercase_path, pc.1.content_id, pc.2.value, pc.2.classification,
      pc.2.created_at, pc.2.updated_at⟩

def sub_tree_rows (t : Tables) (fold : Text) : List SubTreeRow :=
  (t.ordered.filter fun pc => at_or_below pc.1.lowercase_path fold).map fun pc =>
    ⟨pc.1.path, pc.2.value, pc.2.classification⟩

def paths_of_content (t : Tables) (content_id : ℕ) : List PathWithFoldRow :=
  ((order_by PathRow.lowercase_path t.paths).filter fun p => p.content_id == content_id).map
    fun p => ⟨p.path, p.lowercase_path⟩

def revealed_row (t : Tables) (fold : Text) : Option RevealedRow := do
  let row ← t.path_row fold
  let content ← t.content_row row.content_id
  return ⟨row.content_id, content.value, content.classification⟩

end Tables

/-! ## Requests -/

inductive ReadRequest where
  | path_candidates
  | listed_values (fold_paths : List Text)
  | sub_tree_rows (fold : Text)
  | content_id_at (fold : Text)
  | paths_of_content (content_id : ℕ)
  | revealed_row (fold : Text)
  | decrypt (content_id : ℕ) (classification : Classification) (stored : Text)
  | now_utc
  | insert_event (actor : Actor) (occurred_at : OffsetDateTime) (event : AuditEvent)

def ReadRequest.Row : ReadRequest → Type
  | path_candidates => List PathContentRow
  | listed_values .. => List ListedValueRow
  | sub_tree_rows .. => List SubTreeRow
  | content_id_at .. => Option ℕ
  | paths_of_content .. => List PathWithFoldRow
  | revealed_row .. => Option RevealedRow
  | decrypt .. => Text
  | now_utc => OffsetDateTime
  | insert_event .. => Unit

abbrev ReadRequest.Answer (q : ReadRequest) : Type := Except Status q.Row

structure ReadEnv where
  now : OffsetDateTime
  decrypt : ℕ → Classification → Text → Except DecryptError Text
  records : Bool

def decryption_failed : Status := .internal "configuration value could not be decrypted"

def serve_read (env : ReadEnv) : (q : ReadRequest) → Tables → q.Answer × Tables
  | .path_candidates, t => (.ok t.path_candidates, t)
  | .listed_values fold_paths, t => (.ok (t.listed_values fold_paths), t)
  | .sub_tree_rows fold, t => (.ok (t.sub_tree_rows fold), t)
  | .content_id_at fold, t => (.ok ((t.path_row fold).map PathRow.content_id), t)
  | .paths_of_content content_id, t => (.ok (t.paths_of_content content_id), t)
  | .revealed_row fold, t => (.ok (t.revealed_row fold), t)
  | .decrypt content_id classification stored, t =>
      ((env.decrypt content_id classification stored).mapError fun _ => decryption_failed, t)
  | .now_utc, t => (.ok env.now, t)
  | .insert_event actor occurred_at event, t =>
      if env.records then (.ok (), t.insert_audit_rows [⟨actor, occurred_at, event⟩])
      else (.error storage_unavailable, t)

abbrev Read (α : Type) := Call ReadRequest ReadRequest.Answer Status α

def fetch_rows (q : ReadRequest) : Read q.Row := .ask q .done

def record (actor : Actor) (event : AuditEvent) : Read Unit := do
  let now ← fetch_rows .now_utc
  fetch_rows (.insert_event actor now event)

/-- `AuditRecorder::record_best_effort`: whatever comes of it, the read is served. -/
def record_best_effort (actor : Actor) (event : AuditEvent) : Read Unit := do
  let _ ← ((record actor event).attempt : Read (Except Status Unit))
  return ()

inductive ValueContent where
  | Plain (value : Text)
  | Secret
deriving DecidableEq

def masked_content (value : Text) : Classification → Option ValueContent
  | .PLAIN => some (.Plain value)
  | .SECRET => some .Secret

def stored_path (path : Text) : Except Status ConfigPath :=
  (ConfigPath.parse_operation path).mapError fun _ => storage_unavailable

abbrev Namespaces := Std.TreeMap Text (OffsetDateTime × Text)

def upsert_ancestor (paths : Namespaces) (fold : Text) (created_at : OffsetDateTime)
    (display : Text) : Namespaces :=
  match paths[fold]? with
  | none => paths.insert fold (created_at, display)
  | some entry =>
    if created_at < entry.1 ∨ (created_at = entry.1 ∧ display < entry.2) then
      paths.insert fold (created_at, display)
    else paths

def add_ancestors (created_at : OffsetDateTime) (paths : Namespaces)
    (fold_built display_built : Text) : List Text → List Text → Namespaces
  | fold_segment :: fold_segments, display_segment :: display_segments =>
    let fold_built := fold_built ++ '/' :: fold_segment
    let display_built := display_built ++ '/' :: display_segment
    add_ancestors created_at (upsert_ancestor paths fold_built created_at display_built)
      fold_built display_built fold_segments display_segments
  | _, _ => paths

def add_parent_paths (paths : Namespaces) (fold_path display_path : Text)
    (created_at : OffsetDateTime) : Namespaces :=
  let paths := upsert_ancestor paths root_text created_at root_text
  let fold_parent := parent_path fold_path
  if fold_parent = root_text then paths
  else
    add_ancestors created_at paths [] [] ((fold_parent.dropWhile (· == '/')).splitOn '/')
      ((display_path.dropWhile (· == '/')).splitOn '/')

/-! ## `list_values` -/

structure ListedValue where
  path : ConfigPath
  value : ValueContent
  created_at : Timestamp
  updated_at : Timestamp
  alias_paths : List ConfigPath

structure ValueListing where
  values : List ListedValue
  paths : List ConfigPath

/-- What the loop over the candidates gathers: the readable paths of each content, the
namespaces, and the paths directly in the selected one. -/
structure Candidates where
  content_paths : Std.TreeMap ℕ (List (Text × Text))
  paths : Namespaces
  direct : List Text

def Candidates.empty : Candidates := ⟨∅, ∅, []⟩

def Candidates.add (principal : AuthenticatedPrincipal) (selected : ConfigPath)
    (gathered : Candidates) (row : PathContentRow) : Except Status Candidates :=
  match ConfigPath.parse row.lowercase_path with
  | .error _ => .error storage_unavailable
  | .ok path =>
    if !principal.allows path .Read then .ok gathered
    else .ok
      { content_paths := gathered.content_paths.insert row.content_id
          ((gathered.content_paths[row.content_id]?).getD []
            ++ [(row.lowercase_path, row.path)])
        paths := add_parent_paths gathered.paths row.lowercase_path row.path row.created_at
        direct :=
          if parent_path row.lowercase_path = selected.fold then
            gathered.direct ++ [row.lowercase_path]
          else gathered.direct }

def listed_value (content_paths : Std.TreeMap ℕ (List (Text × Text))) (row : ListedValueRow) :
    Except Status ListedValue := do
  let value ← (masked_content row.value row.classification).elim (.error storage_unavailable) .ok
  let aliases := ((content_paths[row.content_id]?).getD []).filter fun pair =>
    pair.1 ≠ row.lowercase_path
  let alias_paths ← aliases.mapM fun pair => stored_path pair.2
  let path ← stored_path row.path
  return ⟨path, value, to_timestamp row.created_at, to_timestamp row.updated_at, alias_paths⟩

def direct_values (gathered : Candidates) : Read (List ListedValue) :=
  if gathered.direct.isEmpty then return []
  else do
    let rows ← fetch_rows (.listed_values gathered.direct)
    Call.lift (rows.mapM (listed_value gathered.content_paths))

def namespace_path (display : Text) : Except Status ConfigPath :=
  (ConfigPath.parse_selection display).mapError fun _ => storage_unavailable

def list_values (context : CallContext) (path : Text) : Read ValueListing := do
  let selected ← Call.lift ((ConfigPath.parse_selection path).mapError fun _ =>
    Status.invalid_argument "configuration path is invalid")
  let principal ← Call.lift context.principal
  let actor ← Call.lift context.actor
  let candidates ← fetch_rows .path_candidates
  let gathered ← Call.lift (candidates.foldlM (Candidates.add principal selected) .empty)
  let values ← direct_values gathered
  let namespaces ← Call.lift ((gathered.paths.toList.map fun entry => entry.2.2).mapM namespace_path)
  record_best_effort actor (.values_listed actor selected.as_str values.length)
  return ⟨values, namespaces⟩

/-! ## `get_sub_tree`, `reveal_secret`, `list_value_paths` -/

structure SubTreeValue where
  path : ConfigPath
  value : ValueContent

def sub_tree_value (row : SubTreeRow) : Except Status SubTreeValue := do
  let value ← (masked_content row.value row.classification).elim (.error storage_unavailable) .ok
  let path ← stored_path row.path
  return ⟨path, value⟩

def get_sub_tree (context : CallContext) (path : Text) : Read (List SubTreeValue) := do
  let path ← Call.lift (authorize context path [.Read] true)
  let actor ← Call.lift context.actor
  let rows ← fetch_rows (.sub_tree_rows path.fold)
  let values ← Call.lift (rows.mapM sub_tree_value)
  record_best_effort actor (.subtree_read actor path.as_str values.length)
  return values

def reveal_secret (context : CallContext) (path : Text) : Read Text := do
  let path ← Call.lift (authorize context path [.Read] false)
  let actor ← Call.lift context.actor
  match ← fetch_rows (.revealed_row path.fold) with
  | none => Call.fail (.not_found "configuration value not found")
  | some row =>
    if row.classification ≠ .SECRET then
      Call.fail (.invalid_argument "configuration value is not a secret")
    else do
      let value ← fetch_rows (.decrypt row.content_id row.classification row.value)
      record actor (.secret_revealed actor path.as_str)
      return value

def readable_path (principal : AuthenticatedPrincipal) (paths : List ConfigPath)
    (row : PathWithFoldRow) : Except Status (List ConfigPath) := do
  let candidate ← (ConfigPath.parse row.lowercase_path).mapError fun _ => storage_unavailable
  if principal.allows candidate .Read then
    let path ← stored_path row.path
    return paths ++ [path]
  else return paths

def list_value_paths (context : CallContext) (path : Text) : Read (List ConfigPath) := do
  let path ← Call.lift (authorize context path [.Read] false)
  let principal ← Call.lift context.principal
  match ← fetch_rows (.content_id_at path.fold) with
  | none => Call.fail (.not_found "configuration value not found")
  | some content_id =>
    let rows ← fetch_rows (.paths_of_content content_id)
    Call.lift (rows.foldlM (readable_path principal) [])

end SovereignConfig.Values
