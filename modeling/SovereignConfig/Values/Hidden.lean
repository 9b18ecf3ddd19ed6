/-
`Tables.hidden` empties the stored text of every secret. No statement can tell the difference: its
answer on the hidden tables is the real one with the secrets hidden.
-/
import SovereignConfig.Lib.Translate
import SovereignConfig.Values.Reads

namespace SovereignConfig.Values

open Lib Text List

def hide : Classification → Text → Text
  | .PLAIN, value => value
  | .SECRET, _ => []

def ContentRow.hidden (c : ContentRow) : ContentRow :=
  { c with value := hide c.classification c.value }

def Tables.hidden (t : Tables) : Tables where
  paths := t.paths
  contents := t.contents.map ContentRow.hidden
  audit := t.audit
  unique_path := t.unique_path
  path_grammar := t.path_grammar
  path_times := t.path_times
  unique_content := nodup_update_key t.unique_content fun _ => rfl
  content_times := by
    intro row hrow
    obtain ⟨c, hc, rfl⟩ := List.mem_map.mp hrow
    exact t.content_times c hc
  content_exists := by
    intro row hrow
    obtain ⟨c, hc, hid⟩ := t.content_exists row hrow
    exact ⟨c.hidden, List.mem_map_of_mem hc, hid⟩

def PathContentClassRow.hidden (row : PathContentClassRow) : PathContentClassRow :=
  { row with value := hide row.classification row.value }

def DeletedPathRow.hidden (row : DeletedPathRow) : DeletedPathRow :=
  { row with value := hide row.classification row.value }

def PreviousContentRow.hidden (row : PreviousContentRow) : PreviousContentRow :=
  { row with value := hide row.classification row.value }

def ListedValueRow.hidden (row : ListedValueRow) : ListedValueRow :=
  { row with value := hide row.classification row.value }

def SubTreeRow.hidden (row : SubTreeRow) : SubTreeRow :=
  { row with value := hide row.classification row.value }

/-! ## Statements -/

namespace Tables

variable {t : Tables}

@[simp] theorem hidden_paths : t.hidden.paths = t.paths := rfl

@[simp] theorem hidden_contents : t.hidden.contents = t.contents.map ContentRow.hidden := rfl

@[simp] theorem hidden_audit : t.hidden.audit = t.audit := rfl

theorem hidden_path_row (fold : Text) : t.hidden.path_row fold = t.path_row fold := rfl

theorem hidden_content_row (id : ℕ) :
    t.hidden.content_row id = (t.content_row id).map ContentRow.hidden :=
  row_at_map fun _ => rfl

theorem hidden_joined :
    t.hidden.joined = t.joined.map fun pc => (pc.1, pc.2.hidden) := by
  rw [joined, joined, map_filterMap]
  refine congrArg (fun f => t.paths.filterMap f) (funext fun p => ?_)
  rw [hidden_content_row, Option.map_map, Option.map_map]
  rfl

theorem hidden_content_class (fold : Text) :
    t.hidden.content_class fold = (t.content_class fold).map PathContentClassRow.hidden := by
  unfold content_class
  rw [hidden_path_row]
  cases hrow : t.path_row fold with
  | none => rfl
  | some row =>
    simp only [Option.bind_eq_bind, Option.bind_some, hidden_content_row]
    cases t.content_row row.content_id <;> rfl

theorem hidden_secrets_touching (fold : Text) :
    t.hidden.secrets_touching fold = t.secrets_touching fold := by
  unfold secrets_touching
  rw [hidden_joined, filter_map, map_map]
  rfl

def Blind (cond : PathRow → ContentRow → Bool) : Prop := ∀ p c, cond p c.hidden = cond p c

variable {cond : PathRow → ContentRow → Bool}

theorem hidden_deleted_rows (h : Blind cond) :
    t.hidden.deleted_rows cond = (t.deleted_rows cond).map DeletedPathRow.hidden := by
  unfold deleted_rows
  -- Rows are sorted by their path, which hiding keeps.
  rw [map_insertionSort (fun l r : DeletedPathRow => l.path ≤ r.path)
    (fun l r : DeletedPathRow => l.path ≤ r.path) DeletedPathRow.hidden _
    (fun _ _ _ _ => Iff.rfl), map_map, hidden_joined, filter_map, map_map]
  refine congrArg _ ?_
  have hfil : t.joined.filter ((fun pc => cond pc.1 pc.2) ∘ fun pc => (pc.1, pc.2.hidden))
      = t.joined.filter fun pc => cond pc.1 pc.2 :=
    filter_congr fun pc _ => h pc.1 pc.2
  rw [hfil]
  rfl

theorem hidden_delete_paths_where (h : Blind cond) :
    (t.delete_paths_where cond).hidden = t.hidden.delete_paths_where cond := by
  refine Tables.ext (filter_congr fun p _ => ?_) rfl rfl
  rw [hidden_content_row]
  cases t.content_row p.content_id with
  | none => rfl
  | some c => exact congrArg (!·) (h p c).symm

theorem hidden_prune (ids : List ℕ) :
    (t.delete_contents_where (t.orphan ids)).hidden =
      t.hidden.delete_contents_where (t.hidden.orphan ids) := by
  refine Tables.ext ?_ ?_ rfl
  · show (t.delete_contents_where (t.orphan ids)).paths =
      (t.hidden.delete_contents_where (t.hidden.orphan ids)).paths
    rw [paths_prune, paths_prune]
    rfl
  · show (t.contents.filter fun c => !t.orphan ids c).map ContentRow.hidden =
      (t.contents.map ContentRow.hidden).filter fun c => !t.hidden.orphan ids c
    rw [filter_map]
    rfl

theorem overwrite_hidden (id : ℕ) (value : Text) (classification : Classification)
    (now : OffsetDateTime) (c : ContentRow) :
    (c.overwrite id value classification now).hidden =
      c.hidden.overwrite id (hide classification value) classification now := by
  have hid : c.hidden.id = c.id := rfl
  unfold ContentRow.overwrite
  rw [hid]
  split
  · rfl
  · rfl

theorem hidden_update_content_row (id : ℕ) (value : Text) (classification : Classification)
    (now : OffsetDateTime) :
    t.hidden.update_content_row id (hide classification value) classification now =
      (t.update_content_row id value classification now).map hidden := by
  refine constrained_map forall_mem_map fun _ _ => Tables.ext rfl ?_ rfl
  show (t.contents.map ContentRow.hidden).map _ = (t.contents.map _).map ContentRow.hidden
  rw [map_map, map_map]
  exact map_congr_left fun c _ => (overwrite_hidden id value classification now c).symm

theorem hidden_insert_content_row (row : ContentRow) :
    t.hidden.insert_content_row row.hidden = (t.insert_content_row row).map hidden := by
  refine constrained_map (and_congr forall_mem_map Iff.rfl) fun _ _ => Tables.ext rfl ?_ rfl
  show t.contents.map ContentRow.hidden ++ [row.hidden] =
    (t.contents ++ [row]).map ContentRow.hidden
  rw [map_append, map_cons, map_nil]

theorem hidden_insert_path_row (row : PathRow) :
    t.hidden.insert_path_row row = (t.insert_path_row row).map hidden := by
  have hexi : (∃ c ∈ t.hidden.contents, c.id = row.content_id) ↔
      ∃ c ∈ t.contents, c.id = row.content_id := by
    simp [hidden, ContentRow.hidden]
  exact constrained_map (and_congr Iff.rfl (and_congr Iff.rfl (and_congr Iff.rfl hexi)))
    fun _ _ => rfl

theorem hidden_ordered : t.hidden.ordered = t.ordered.map fun pc => (pc.1, pc.2.hidden) := by
  rw [ordered, ordered, hidden_joined, order_by, order_by,
    map_insertionSort (fun l r : PathRow × ContentRow => l.1.lowercase_path ≤ r.1.lowercase_path)
      (fun l r : PathRow × ContentRow => l.1.lowercase_path ≤ r.1.lowercase_path)
      (fun pc => (pc.1, pc.2.hidden)) _ (fun _ _ _ _ => Iff.rfl)]

theorem hidden_listed_values (folds : List Text) :
    t.hidden.listed_values folds = (t.listed_values folds).map ListedValueRow.hidden := by
  unfold listed_values
  rw [hidden_ordered, filter_map, map_map, map_map]
  rfl

theorem hidden_sub_tree_rows (fold : Text) :
    t.hidden.sub_tree_rows fold = (t.sub_tree_rows fold).map SubTreeRow.hidden := by
  unfold sub_tree_rows
  rw [hidden_ordered, filter_map, map_map, map_map]
  rfl

end Tables

/-! ## Requests and answers -/

def Request.hidden : Request → Request
  | insert_content id value classification now =>
      insert_content id (hide classification value) classification now
  | update_content id stored classification now =>
      update_content id (hide classification stored) classification now
  | encrypt id classification value => encrypt id classification (hide classification value)
  | q => q

def Request.hide_row : (q : Request) → q.Row → q.hidden.Row
  | .path_content_class _, row => Option.map PathContentClassRow.hidden row
  | .delete_plain_paths_except _ _, rows => List.map DeletedPathRow.hidden rows
  | .delete_paths _ _, rows => List.map DeletedPathRow.hidden rows
  | .update_plain_content _ _ _, row => PreviousContentRow.hidden row
  | .encrypt _ _ _, _ => ([] : Text)
  | .begin, row => row
  | .commit, row => row
  | .lock_path _ _, row => row
  | .lock_content _, row => row
  | .path_collides _, row => row
  | .reserve_content_id, row => row
  | .insert_content _ _ _ _, row => row
  | .insert_path _ _ _, row => row
  | .delete_orphan_contents _, row => row
  | .update_content _ _ _ _, row => row
  | .secret_paths_touching _, row => row
  | .content_id_at _, row => row
  | .path_is_occupied _, row => row
  | .insert_events _ _ _, row => row
  | .system_time, row => row

def hides : Translation Request Request.Answer where
  request := Request.hidden
  answer q := Except.map q.hide_row
  covers _ := True

def Db.hidden (db : Db) : Db := ⟨db.committed.hidden, db.working.hidden, db.next_content_id⟩

def Env.hidden (env : Env) : Env := ⟨env.now, fun _ _ _ => some []⟩

def Env.Seals (env : Env) : Prop := ∀ id classification value,
  ∃ stored, env.encrypt id classification value = some stored

theorem apply_hidden {α β : Type} (f : α → β) (db : Db) (answer : α) (written : Option Tables) :
    db.hidden.apply (f answer) (written.map Tables.hidden) =
      ((db.apply answer written).1.map f, (db.apply answer written).2.hidden) := by
  cases written <;> rfl

theorem blind_plain_except (fold : Text) (keep : List Text) :
    Tables.Blind (Tables.plain_except fold keep) := fun _ _ => rfl

theorem blind_selected (fold : Text) (recurse : Bool) :
    Tables.Blind (Tables.selected fold recurse) := fun _ _ => rfl

theorem delete_hidden {cond : PathRow → ContentRow → Bool} (h : Tables.Blind cond) (db : Db) :
    db.hidden.apply (db.hidden.working.deleted_rows cond)
        (some (db.hidden.working.delete_paths_where cond)) =
      ((db.apply (db.working.deleted_rows cond)
          (some (db.working.delete_paths_where cond))).1.map (List.map DeletedPathRow.hidden),
        (db.apply (db.working.deleted_rows cond)
          (some (db.working.delete_paths_where cond))).2.hidden) := by
  show db.hidden.apply (db.working.hidden.deleted_rows cond)
    (some (db.working.hidden.delete_paths_where cond)) = _
  rw [Tables.hidden_deleted_rows h, ← Tables.hidden_delete_paths_where h]
  rfl

theorem exec_hidden {env : Env} (hsea : env.Seals) (q : Request) (db : Db) :
    exec env.hidden q.hidden db.hidden =
      ((exec env q db).1.map q.hide_row, (exec env q db).2.hidden) := by
  cases q with
  | begin | commit | lock_path | lock_content | path_collides | reserve_content_id
  | content_id_at | path_is_occupied | insert_events | system_time => rfl
  | insert_content id value classification now =>
    have hrow := Tables.hidden_insert_content_row (t := db.working)
      ⟨id, value, classification, now, now⟩
    exact (congrArg (db.hidden.apply (⟨id, now, now⟩ : InsertedContentRow)) hrow).trans
      (apply_hidden (fun row : InsertedContentRow => row) db _ _)
  | insert_path path id now =>
    exact (congrArg (db.hidden.apply ()) (Tables.hidden_insert_path_row _)).trans
      (apply_hidden (fun u : Unit => u) db () _)
  | delete_orphan_contents ids =>
    exact (congrArg (fun t => db.hidden.apply () (some t)) (Tables.hidden_prune ids).symm).trans
      (apply_hidden (fun u : Unit => u) db () (some _))
  | path_content_class fold =>
    exact congrArg (fun row => (Except.ok row, db.hidden)) (Tables.hidden_content_class fold)
  | update_content id stored classification now =>
    have hrow : db.hidden.working.content_row id = (db.working.content_row id).map _ :=
      Tables.hidden_content_row id
    have hupd : db.hidden.working.update_content_row id (hide classification stored)
        classification now = _ := Tables.hidden_update_content_row id stored classification now
    simp only [Request.hidden, exec, hrow, hupd]
    cases db.working.content_row id with
    | none => rfl
    | some row => exact apply_hidden (fun row : MutationRow => row) db _ _
  | secret_paths_touching fold =>
    exact congrArg (fun row => (Except.ok row, db.hidden)) (Tables.hidden_secrets_touching fold)
  | delete_plain_paths_except fold keep =>
    exact delete_hidden (blind_plain_except fold keep) db
  | update_plain_content id value now =>
    have hrow : db.hidden.working.content_row id = (db.working.content_row id).map _ :=
      Tables.hidden_content_row id
    have hupd : db.hidden.working.update_content_row id value .PLAIN now = _ :=
      Tables.hidden_update_content_row id value .PLAIN now
    simp only [Request.hidden, exec, hrow, hupd]
    cases db.working.content_row id with
    | none => rfl
    | some row => exact apply_hidden PreviousContentRow.hidden db ⟨row.value, row.classification⟩ _
  | delete_paths fold recurse => exact delete_hidden (blind_selected fold recurse) db
  | encrypt id classification value =>
    obtain ⟨stored, hsto⟩ := hsea id classification value
    simp only [Request.hidden, exec, hsto]
    rfl

def ReadRequest.hide_row : (q : ReadRequest) → q.Row → q.Row
  | .listed_values _, rows => List.map ListedValueRow.hidden rows
  | .sub_tree_rows _, rows => List.map SubTreeRow.hidden rows
  | .path_candidates, rows => rows
  | .content_id_at _, row => row
  | .paths_of_content _, rows => rows
  | .revealed_row _, row => row
  | .decrypt _ _ _, text => text
  | .now_utc, now => now
  | .insert_event _ _ _, u => u

def read_hides : Translation ReadRequest ReadRequest.Answer where
  request q := q
  answer q := Except.map q.hide_row
  covers
    | .revealed_row _ => False
    | .decrypt _ _ _ => False
    | _ => True

def ReadEnv.hidden (env : ReadEnv) : ReadEnv :=
  ⟨env.now, fun _ _ _ => .error .NotEncrypted, env.records⟩

theorem serve_read_hidden (env : ReadEnv) (q : ReadRequest) (t : Tables) (h : read_hides.covers q) :
    serve_read env.hidden q t.hidden =
      ((serve_read env q t).1.map q.hide_row, (serve_read env q t).2.hidden) := by
  cases q with
  | path_candidates => rfl
  | listed_values folds =>
    exact congrArg (fun rows => (Except.ok rows, t.hidden)) (Tables.hidden_listed_values folds)
  | sub_tree_rows fold =>
    exact congrArg (fun rows => (Except.ok rows, t.hidden)) (Tables.hidden_sub_tree_rows fold)
  | content_id_at fold => rfl
  | paths_of_content id => rfl
  | revealed_row fold => exact h.elim
  | decrypt id classification stored => exact h.elim
  | now_utc => rfl
  | insert_event actor time event =>
    unfold serve_read ReadEnv.hidden
    cases env.records <;> rfl

end SovereignConfig.Values
