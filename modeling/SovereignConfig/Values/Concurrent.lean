/-
The store under many transactions, a statement at a time, as under READ COMMITTED. Locks stay held
until the transaction ends; a statement that has to wait is served once the lock is free. Every
request can fail, and a failed `commit` may have taken effect.
-/
import SovereignConfig.Lib.Cell
import SovereignConfig.Values.Service

namespace SovereignConfig.Values

open Lib Text Function

variable {ι : Type}

/-- The two tables, the locks held on them, and what each open transaction has recorded and not
yet committed. -/
structure Shared (ι : Type) where
  paths : Text → Cell ι PathRow
  contents : ℕ → Cell ι ContentRow
  next_content_id : ℕ
  path_locks : ι → List (LockRequest Text)
  content_locks : ι → List ℕ
  recorded : ι → List AuditRow
  audit : List AuditRow
  opened : ι → Bool

namespace Shared

def at_rest (t : Tables) (next_content_id : ℕ) : Shared ι where
  paths := fun fold => ⟨t.path_row fold, none⟩
  contents := fun id => ⟨t.content_row id, none⟩
  next_content_id := next_content_id
  path_locks := fun _ => []
  content_locks := fun _ => []
  recorded := fun _ => []
  audit := []
  opened := fun _ => false

variable [DecidableEq ι]

def write_path (i : ι) (fold : Text) (v : Option PathRow) (w : Shared ι) : Shared ι :=
  { w with paths := update w.paths fold ((w.paths fold).write i v) }

def write_content (i : ι) (id : ℕ) (v : Option ContentRow) (w : Shared ι) : Shared ι :=
  { w with contents := update w.contents id ((w.contents id).write i v) }

def commit (i : ι) (w : Shared ι) : Shared ι where
  paths := fun fold => (w.paths fold).commit i
  contents := fun id => (w.contents id).commit i
  next_content_id := w.next_content_id
  path_locks := update w.path_locks i []
  content_locks := update w.content_locks i []
  recorded := update w.recorded i []
  audit := w.audit ++ w.recorded i
  opened := update w.opened i false

def abort (i : ι) (w : Shared ι) : Shared ι where
  paths := fun fold => (w.paths fold).abort i
  contents := fun id => (w.contents id).abort i
  next_content_id := w.next_content_id
  path_locks := update w.path_locks i []
  content_locks := update w.content_locks i []
  recorded := update w.recorded i []
  audit := w.audit
  opened := update w.opened i false

def Joined (w : Shared ι) (i : ι) (p : PathRow) (c : ContentRow) : Prop :=
  (w.paths p.lowercase_path).seen i = some p ∧ (w.contents p.content_id).seen i = some c

def PathCount (w : Shared ι) (i : ι) (id n : ℕ) : Prop :=
  ∃ folds : Finset Text, folds.card = n ∧
    ∀ fold, fold ∈ folds ↔ ∃ row, (w.paths fold).seen i = some row ∧ row.content_id = id

/-- A `DELETE` of the paths that satisfy a condition, with the rows it returns, sorted by path. A
row another transaction has written is waited for. -/
structure DeletesPaths (i : ι) (cond : PathRow → ContentRow → Bool) (w : Shared ι)
    (deleted : List DeletedPathRow) (w' : Shared ι) : Prop where
  free : ∀ p c, w.Joined i p c → cond p c = true → (w.paths p.lowercase_path).Free i
  rows : ∀ d, d ∈ deleted ↔ ∃ p c, w.Joined i p c ∧ cond p c = true ∧
    d = ⟨p.path, p.content_id, c.value, c.classification⟩
  sorted : deleted.Pairwise fun left right => left.path ≤ right.path
  nodup : deleted.Nodup
  gone : ∀ p c, w.Joined i p c → cond p c = true →
    w'.paths p.lowercase_path = (w.paths p.lowercase_path).write i none
  kept : ∀ fold, (∀ p c, w.Joined i p c → cond p c = true → p.lowercase_path ≠ fold) →
    w'.paths fold = w.paths fold
  rest : w' = { w with paths := w'.paths }

def Orphan (w : Shared ι) (i : ι) (ids : List ℕ) (id : ℕ) : Prop :=
  id ∈ ids ∧ (w.contents id).seen i ≠ none ∧
    ∀ fold row, (w.paths fold).seen i = some row → row.content_id ≠ id

/-- The `DELETE` of orphans. It waits for whoever has written one of them, or a path to one. -/
structure DeletesOrphans (i : ι) (ids : List ℕ) (w w' : Shared ι) : Prop where
  free : ∀ id, w.Orphan i ids id → (w.contents id).Free i
  unreferenced : ∀ id, w.Orphan i ids id → ∀ fold j row,
    (w.paths fold).pending = some (j, some row) → row.content_id = id → j = i
  gone : ∀ id, w.Orphan i ids id → w'.contents id = (w.contents id).write i none
  kept : ∀ id, ¬ w.Orphan i ids id → w'.contents id = w.contents id
  rest : w' = { w with contents := w'.contents }

def UpdatesContent (i : ι) (id : ℕ) (value : Text) (classification : Classification)
    (now : OffsetDateTime) (w : Shared ι) (old : ContentRow) (w' : Shared ι) : Prop :=
  (w.contents id).seen i = some old ∧ (w.contents id).Free i ∧ old.created_at ≤ now ∧
    w' = w.write_content i id
      (some { old with value := value, classification := classification, updated_at := now })

def Executes (i : ι) : (q : Request) → Shared ι → q.Row → Shared ι → Prop
  | .begin, w, _, w' => w.opened i = false ∧ w' = { w with opened := update w.opened i true }
  | .system_time, w, _, w' => w' = w
  | .encrypt .., w, _, w' => w' = w
  | .commit, w, _, w' => w.opened i = true ∧ w' = w.commit i
  | .lock_path key exclusive, w, _, w' =>
      w.opened i = true ∧ (∀ j, j ≠ i → ∀ r ∈ w.path_locks j, ¬ r.Conflicts ⟨key, exclusive⟩) ∧
      w' = { w with
        path_locks := update w.path_locks i (⟨key, exclusive⟩ :: w.path_locks i) }
  | .lock_content id, w, _, w' =>
      w.opened i = true ∧ (∀ j, j ≠ i → id ∉ w.content_locks j) ∧
      w' = { w with content_locks := update w.content_locks i (id :: w.content_locks i) }
  | .path_collides path, w, (collides : Bool), w' =>
      w.opened i = true ∧ w' = w ∧
      (collides = true ↔ ∃ fold row, (w.paths fold).seen i = some row ∧ fold ≠ path ∧
        (starts_with fold (path ++ ['/']) = true ∨ starts_with path (fold ++ ['/']) = true))
  | .reserve_content_id, w, (id : ℕ), w' =>
      w.opened i = true ∧ id = w.next_content_id ∧
      w' = { w with next_content_id := w.next_content_id + 1 }
  | .insert_content id value classification now, w, (row : InsertedContentRow), w' =>
      w.opened i = true ∧ (w.contents id).seen i = none ∧ (w.contents id).Free i ∧
      row = ⟨id, now, now⟩ ∧ w' = w.write_content i id (some ⟨id, value, classification, now, now⟩)
  | .insert_path path id now, w, _, w' =>
      w.opened i = true ∧ operation_path path = true ∧
      (w.paths (to_ascii_lowercase path)).seen i = none ∧
      (w.paths (to_ascii_lowercase path)).Free i ∧ (w.contents id).seen i ≠ none ∧
      (∀ j, (w.contents id).pending = some (j, none) → j = i) ∧
      w' = w.write_path i (to_ascii_lowercase path) (some ⟨path, id, now, now⟩)
  | .delete_orphan_contents ids, w, _, w' => w.opened i = true ∧ DeletesOrphans i ids w w'
  | .path_content_class fold, w, (found : Option PathContentClassRow), w' =>
      w.opened i = true ∧ w' = w ∧
      (found = none → ∀ p c, w.Joined i p c → p.lowercase_path ≠ fold) ∧
      ∀ row, found = some row → ∃ p c, w.Joined i p c ∧ p.lowercase_path = fold ∧
        row.content_id = p.content_id ∧ row.value = c.value ∧
        row.classification = c.classification ∧ w.PathCount i p.content_id row.path_count
  | .update_content id stored classification now, w, (row : MutationRow), w' =>
      w.opened i = true ∧ ∃ old, UpdatesContent i id stored classification now w old w' ∧
        row = ⟨old.created_at, now⟩
  | .secret_paths_touching fold, w, (folds : List Text), w' =>
      w.opened i = true ∧ w' = w ∧
      ∀ key, key ∈ folds ↔ ∃ p c, w.Joined i p c ∧ p.lowercase_path = key ∧
        c.classification = .SECRET ∧
        (at_or_below key fold = true ∨ starts_with fold (key ++ ['/']) = true)
  | .delete_plain_paths_except fold keep, w, (deleted : List DeletedPathRow), w' =>
      w.opened i = true ∧ DeletesPaths i (Tables.plain_except fold keep) w deleted w'
  | .content_id_at fold, w, (id : Option ℕ), w' =>
      w.opened i = true ∧ w' = w ∧ id = ((w.paths fold).seen i).map PathRow.content_id
  | .update_plain_content id value now, w, (row : PreviousContentRow), w' =>
      w.opened i = true ∧ ∃ old, UpdatesContent i id value .PLAIN now w old w' ∧
        row = ⟨old.value, old.classification⟩
  | .delete_paths fold recurse, w, (deleted : List DeletedPathRow), w' =>
      w.opened i = true ∧ DeletesPaths i (Tables.selected fold recurse) w deleted w'
  | .path_is_occupied fold, w, (occupied : Bool), w' =>
      w.opened i = true ∧ w' = w ∧ occupied = ((w.paths fold).seen i).isSome
  | .insert_events actor occurred_at events, w, _, w' =>
      w.opened i = true ∧ w' = { w with
        recorded := update w.recorded i
          (w.recorded i ++ events.map fun event => ⟨actor, occurred_at, event⟩) }

def Fails (i : ι) (q : Request) (w w' : Shared ι) : Prop :=
  w' = w ∨ q = .commit ∧ w.opened i = true ∧ w' = w.commit i

def system (ι : Type) [DecidableEq ι] : System ι (Shared ι) Request Request.Answer where
  serve i q w a w' :=
    match a with
    | .ok row => Executes i q w row w'
    | .error _ => Fails i q w w'
  crash _ w w' := w' = w
  idle w w' := ∃ i, w' = w.abort i

end Shared

/-- All mutations about to start on the stored tables. -/
def gathered (t : Tables) (next_content_id : ℕ) (contexts : ι → CallContext)
    (mutations : ι → Mutation) : Config ι (Shared ι) Request Request.Answer Status Reply :=
  ⟨.at_rest t next_content_id, fun i => .live ((mutations i).call (contexts i))⟩

end SovereignConfig.Values
