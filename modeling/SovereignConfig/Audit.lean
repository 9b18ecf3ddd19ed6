/-
`audit/mod.rs` and `audit/narrative.rs`: the events the services record. A secret reaches this file
only as `Recorded.Secret`, which carries nothing.
-/
import SovereignConfig.Rpc

namespace SovereignConfig

open Text

inductive Classification where
  | PLAIN
  | SECRET
deriving DecidableEq

def BULK_EVENT_CAP : ℕ := 1000

inductive EventKind where
  | ValueCreated
  | ValueUpdated
  | ValueDeleted
  | ValuePathAdded
  | SubtreeReplaced
  | SubtreeDeleted
  | SecretRevealed
  | SubtreeRead
  | ValuesListed
  | ConnectionCreated
  | ConnectionRotated
  | ConnectionRevoked
deriving DecidableEq

def EventKind.coalesces : EventKind → Bool
  | SecretRevealed | SubtreeRead | ValuesListed => true
  | _ => false

inductive Recorded where
  | Plain (value : Text)
  | Secret
deriving DecidableEq

namespace Recorded

def of (classification : Classification) (value : Text) : Recorded :=
  if classification = .PLAIN then .Plain value else .Secret

def plain : Recorded → Option Text
  | Plain value => some value
  | Secret => none

end Recorded

/-! ## Narratives -/

namespace narrative

def QUOTED_VALUE_CHARACTERS : ℕ := 80

def quoted (value : Text) : Text :=
  let shown := (value.take QUOTED_VALUE_CHARACTERS).map (fun c => if is_control c then ' ' else c)
  ['"'] ++ shown ++ (if value.length > QUOTED_VALUE_CHARACTERS then ['…'] else []) ++ ['"']

def decimal (n : ℕ) : Text := (toString n).toList

def counted (count : ℕ) (singular plural : String) : Text :=
  if count = 1 then "1 ".toList ++ singular.toList
  else decimal count ++ " ".toList ++ plural.toList

def value_created (actor path : Text) : Recorded → Text
  | .Plain value => actor ++ " created ".toList ++ path ++ " as ".toList ++ quoted value
  | .Secret => actor ++ " created secret ".toList ++ path

def value_updated (actor path : Text) : Recorded → Recorded → Text
  | .Plain old, .Plain new =>
      actor ++ " changed ".toList ++ path ++ " from ".toList ++ quoted old ++ " to ".toList
        ++ quoted new
  | .Secret, .Secret => actor ++ " replaced secret ".toList ++ path
  | .Plain old, .Secret =>
      actor ++ " replaced ".toList ++ path ++ ", previously ".toList ++ quoted old
        ++ ", with a secret".toList
  | .Secret, .Plain new =>
      actor ++ " replaced secret ".toList ++ path ++ " with plain value ".toList ++ quoted new

def value_deleted (actor path : Text) : Recorded → Text
  | .Plain value => actor ++ " deleted ".toList ++ path ++ ", previously ".toList ++ quoted value
  | .Secret => actor ++ " deleted secret ".toList ++ path

def path_added (actor new_path source : Text) : Text :=
  actor ++ " added ".toList ++ new_path ++ " as a path to the value at ".toList ++ source

def path_exposed (actor source new_path : Text) : Text :=
  actor ++ " exposed the value at ".toList ++ source ++ " at ".toList ++ new_path

def unrecorded_note (unrecorded : ℕ) (singular plural : String) : Text :=
  if unrecorded > 0 then
    "; ".toList ++ counted unrecorded singular plural ++ " not recorded individually".toList
  else []

def subtree_replaced (actor root : Text) (created updated deleted unrecorded : ℕ) : Text :=
  actor ++ " replaced subtree ".toList ++ root ++ ": ".toList ++ decimal created
    ++ " created, ".toList ++ decimal updated ++ " changed, ".toList ++ decimal deleted
    ++ " deleted".toList ++ unrecorded_note unrecorded "change" "changes"

def subtree_deleted (actor root : Text) (deleted unrecorded : ℕ) : Text :=
  actor ++ " deleted ".toList ++ counted deleted "value" "values" ++ " at or below ".toList
    ++ root ++ unrecorded_note unrecorded "deletion" "deletions"

def secret_revealed (actor path : Text) : Text := actor ++ " revealed secret ".toList ++ path

def subtree_read (actor root : Text) (value_count : ℕ) : Text :=
  actor ++ " read subtree ".toList ++ root ++ " (".toList
    ++ counted value_count "value" "values" ++ ")".toList

def values_listed (actor path : Text) (value_count : ℕ) : Text :=
  actor ++ " listed ".toList ++ path ++ " (".toList
    ++ counted value_count "value" "values" ++ ")".toList

def connection_event (verb : String) (actor root display_name connection_id : Text) : Text :=
  actor ++ verb.toList ++ quoted display_name ++ " (".toList ++ connection_id ++ ") on ".toList
    ++ root

def connection_created (actor root display_name connection_id permissions : Text) : Text :=
  connection_event " created managed connection " actor root display_name connection_id
    ++ " with ".toList ++ permissions

def connection_rotated : Text → Text → Text → Text → Text :=
  connection_event " rotated managed connection "

def connection_revoked : Text → Text → Text → Text → Text :=
  connection_event " revoked managed connection "

end narrative

/-! ## Events -/

structure AuditEvent where
  kind : EventKind
  path : Text
  counterpart : Option Text
  old_value : Option Text
  new_value : Option Text
  narrative : Text
deriving DecidableEq

structure ConnectionSubject where
  root : Text
  display_name : Text
  connection_id : Text
deriving DecidableEq

namespace AuditEvent

def bare (kind : EventKind) (path narrative : Text) : AuditEvent :=
  ⟨kind, path, none, none, none, narrative⟩

def value_created (actor : Actor) (path : Text) (new : Recorded) : AuditEvent :=
  ⟨.ValueCreated, path, none, none, new.plain, narrative.value_created actor.shown path new⟩

def value_updated (actor : Actor) (path : Text) (old new : Recorded) : AuditEvent :=
  ⟨.ValueUpdated, path, none, old.plain, new.plain,
    narrative.value_updated actor.shown path old new⟩

def value_deleted (actor : Actor) (path : Text) (old : Recorded) : AuditEvent :=
  ⟨.ValueDeleted, path, none, old.plain, none, narrative.value_deleted actor.shown path old⟩

def path_added (actor : Actor) (source new_path : ConfigPath) : List AuditEvent :=
  [⟨.ValuePathAdded, new_path.as_str, some source.as_str, none, none,
      narrative.path_added actor.shown new_path.as_str source.as_str⟩,
    ⟨.ValuePathAdded, source.as_str, some new_path.as_str, none, none,
      narrative.path_exposed actor.shown source.as_str new_path.as_str⟩]

def subtree_replaced (actor : Actor) (root : Text) (created updated deleted unrecorded : ℕ) :
    AuditEvent :=
  bare .SubtreeReplaced root
    (narrative.subtree_replaced actor.shown root created updated deleted unrecorded)

def subtree_deleted (actor : Actor) (root : Text) (deleted unrecorded : ℕ) : AuditEvent :=
  bare .SubtreeDeleted root (narrative.subtree_deleted actor.shown root deleted unrecorded)

def secret_revealed (actor : Actor) (path : Text) : AuditEvent :=
  bare .SecretRevealed path (narrative.secret_revealed actor.shown path)

def subtree_read (actor : Actor) (root : Text) (value_count : ℕ) : AuditEvent :=
  bare .SubtreeRead root (narrative.subtree_read actor.shown root value_count)

def values_listed (actor : Actor) (path : Text) (value_count : ℕ) : AuditEvent :=
  bare .ValuesListed path (narrative.values_listed actor.shown path value_count)

def connection_created (actor : Actor) (connection : ConnectionSubject) (permissions : Text) :
    AuditEvent :=
  bare .ConnectionCreated connection.root (narrative.connection_created actor.shown
    connection.root connection.display_name connection.connection_id permissions)

def connection_rotated (actor : Actor) (connection : ConnectionSubject) : AuditEvent :=
  bare .ConnectionRotated connection.root (narrative.connection_rotated actor.shown
    connection.root connection.display_name connection.connection_id)

def connection_revoked (actor : Actor) (connection : ConnectionSubject) : AuditEvent :=
  bare .ConnectionRevoked connection.root (narrative.connection_revoked actor.shown
    connection.root connection.display_name connection.connection_id)

end AuditEvent

structure AuditRow where
  actor : Actor
  occurred_at : OffsetDateTime
  event : AuditEvent
deriving DecidableEq

end SovereignConfig
