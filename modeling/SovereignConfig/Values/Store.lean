/-
`values/store.rs` and its tables, with the constraints PostgreSQL enforces. A `Request` is a
statement; `exec` is its meaning on a database used by one call at a time.
-/
import SovereignConfig.Audit
import SovereignConfig.Lib.Call
import SovereignConfig.Lib.Keyed

namespace SovereignConfig.Values

open Lib Text List

/-! ## Tables -/

structure PathRow where
  path : Text
  content_id : ℕ
  created_at : OffsetDateTime
  updated_at : OffsetDateTime
deriving DecidableEq

/-- The generated column `lower(path)`, the table's key. -/
def PathRow.lowercase_path (row : PathRow) : Text := to_ascii_lowercase row.path

structure ContentRow where
  id : ℕ
  value : Text
  classification : Classification
  created_at : OffsetDateTime
  updated_at : OffsetDateTime
deriving DecidableEq

/-- `SET value = …, classification = …, updated_at = …` on the row with the id. -/
def ContentRow.overwrite (id : ℕ) (value : Text) (classification : Classification)
    (now : OffsetDateTime) (c : ContentRow) : ContentRow :=
  if c.id = id then { c with value := value, classification := classification, updated_at := now }
  else c

@[simp] theorem ContentRow.overwrite_id (id : ℕ) (value : Text) (classification : Classification)
    (now : OffsetDateTime) (c : ContentRow) :
    (c.overwrite id value classification now).id = c.id := by
  unfold overwrite
  split <;> rfl

@[ext] structure Tables where
  paths : List PathRow
  contents : List ContentRow
  audit : List AuditRow
  unique_path : (paths.map PathRow.lowercase_path).Nodup
  path_grammar : ∀ row ∈ paths, operation_path row.path = true
  path_times : ∀ row ∈ paths, row.created_at ≤ row.updated_at
  unique_content : (contents.map ContentRow.id).Nodup
  content_times : ∀ row ∈ contents, row.created_at ≤ row.updated_at
  content_exists : ∀ row ∈ paths, ∃ content ∈ contents, content.id = row.content_id

namespace Tables

def empty : Tables where
  paths := []
  contents := []
  audit := []
  unique_path := List.nodup_nil
  path_grammar := by simp
  path_times := by simp
  unique_content := List.nodup_nil
  content_times := by simp
  content_exists := by simp

def path_row (t : Tables) (fold : Text) : Option PathRow :=
  row_at PathRow.lowercase_path t.paths fold

def content_row (t : Tables) (id : ℕ) : Option ContentRow := row_at ContentRow.id t.contents id

/-- `JOIN configuration_value_contents c ON c.id = p.content_id`. -/
def joined (t : Tables) : List (PathRow × ContentRow) :=
  t.paths.filterMap fun p => (t.content_row p.content_id).map fun c => (p, c)

/-- `DELETE FROM configuration_paths p USING configuration_value_contents c WHERE p.content_id = c.id
AND …`. -/
def delete_paths_where (t : Tables) (cond : PathRow → ContentRow → Bool) : Tables where
  paths := t.paths.filter fun p => !(t.content_row p.content_id).any (cond p)
  contents := t.contents
  audit := t.audit
  unique_path := nodup_filter_key t.unique_path _
  path_grammar := fun row h => t.path_grammar row (List.mem_of_mem_filter h)
  path_times := fun row h => t.path_times row (List.mem_of_mem_filter h)
  unique_content := t.unique_content
  content_times := t.content_times
  content_exists := fun row h => t.content_exists row (List.mem_of_mem_filter h)

/-- `DELETE FROM configuration_value_contents WHERE …`, with the foreign key's `ON DELETE CASCADE`. -/
def delete_contents_where (t : Tables) (cond : ContentRow → Bool) : Tables where
  paths := t.paths.filter fun p => !(t.content_row p.content_id).any cond
  contents := t.contents.filter fun c => !cond c
  audit := t.audit
  unique_path := nodup_filter_key t.unique_path _
  path_grammar := fun row h => t.path_grammar row (List.mem_of_mem_filter h)
  path_times := fun row h => t.path_times row (List.mem_of_mem_filter h)
  unique_content := nodup_filter_key t.unique_content _
  content_times := fun row h => t.content_times row (List.mem_of_mem_filter h)
  content_exists := by
    intro row h
    obtain ⟨hrow, hkept⟩ := List.mem_filter.mp h
    obtain ⟨content, hc, hid⟩ := t.content_exists row hrow
    have hat : t.content_row row.content_id = some content :=
      (row_at_eq_some t.unique_content).mpr ⟨hc, hid⟩
    rw [hat] at hkept
    exact ⟨content, List.mem_filter.mpr ⟨hc, by simpa using hkept⟩, hid⟩

/-- `UPDATE configuration_value_contents SET value, classification, updated_at WHERE id = $1`,
refused when the row's times would run backwards. -/
def update_content_row (t : Tables) (id : ℕ) (value : Text) (classification : Classification)
    (now : OffsetDateTime) : Option Tables :=
  if h : ∀ row ∈ t.contents, row.id = id → row.created_at ≤ now then
    some
      { t with
        contents := t.contents.map (ContentRow.overwrite id value classification now)
        unique_content := nodup_update_key t.unique_content (by simp)
        content_times := by
          intro row hrow
          obtain ⟨c, hc, rfl⟩ := List.mem_map.mp hrow
          by_cases hid : c.id = id
          · simpa [ContentRow.overwrite, hid] using h c hc hid
          · simpa [ContentRow.overwrite, hid] using t.content_times c hc
        content_exists := by
          intro row hrow
          obtain ⟨c, hc, hid⟩ := t.content_exists row hrow
          exact ⟨_, List.mem_map_of_mem hc, by simpa using hid⟩ }
  else none

/-- `INSERT INTO configuration_value_contents`, refused when the id is taken. -/
def insert_content_row (t : Tables) (row : ContentRow) : Option Tables :=
  if h : (∀ c ∈ t.contents, c.id ≠ row.id) ∧ row.created_at ≤ row.updated_at then
    some
      { t with
        contents := t.contents ++ [row]
        unique_content := nodup_insert_key t.unique_content h.1
        content_times := by
          intro c hc
          rcases List.mem_append.mp hc with hc | hc
          · exact t.content_times c hc
          · rw [List.mem_singleton.mp hc]
            exact h.2
        content_exists := by
          intro p hp
          obtain ⟨c, hc, hid⟩ := t.content_exists p hp
          exact ⟨c, List.mem_append_left _ hc, hid⟩ }
  else none

/-- `INSERT INTO configuration_paths`, refused when the fold is taken, the path is not
grammatical or the content does not exist. -/
def insert_path_row (t : Tables) (row : PathRow) : Option Tables :=
  if h : (∀ p ∈ t.paths, p.lowercase_path ≠ row.lowercase_path) ∧ operation_path row.path = true
      ∧ row.created_at ≤ row.updated_at ∧ ∃ c ∈ t.contents, c.id = row.content_id then
    some
      { t with
        paths := t.paths ++ [row]
        unique_path := nodup_insert_key t.unique_path h.1
        path_grammar := by
          intro p hp
          rcases List.mem_append.mp hp with hp | hp
          · exact t.path_grammar p hp
          · rw [List.mem_singleton.mp hp]
            exact h.2.1
        path_times := by
          intro p hp
          rcases List.mem_append.mp hp with hp | hp
          · exact t.path_times p hp
          · rw [List.mem_singleton.mp hp]
            exact h.2.2.1
        content_exists := by
          intro p hp
          rcases List.mem_append.mp hp with hp | hp
          · exact t.content_exists p hp
          · rw [List.mem_singleton.mp hp]
            exact h.2.2.2 }
  else none

def insert_audit_rows (t : Tables) (rows : List AuditRow) : Tables :=
  { t with audit := t.audit ++ rows }

/-! ### What the statements do to the rows -/

variable {t t' : Tables}

variable {row : PathRow} {id : ℕ}

theorem path_row_eq_some {fold : Text} :
    t.path_row fold = some row ↔ row ∈ t.paths ∧ row.lowercase_path = fold :=
  row_at_eq_some t.unique_path

theorem content_row_eq_some {row : ContentRow} :
    t.content_row id = some row ↔ row ∈ t.contents ∧ row.id = id :=
  row_at_eq_some t.unique_content

theorem content_row_of_path (h : row ∈ t.paths) : ∃ c, t.content_row row.content_id = some c := by
  obtain ⟨c, hc, hid⟩ := t.content_exists row h
  exact ⟨c, content_row_eq_some.mpr ⟨hc, hid⟩⟩

theorem mem_joined {p : PathRow} {c : ContentRow} :
    (p, c) ∈ t.joined ↔ p ∈ t.paths ∧ c ∈ t.contents ∧ c.id = p.content_id := by
  simp only [joined, mem_filterMap, Option.map_eq_some_iff, Prod.mk.injEq,
    content_row_eq_some]
  constructor
  · rintro ⟨p', hp, c', hc, rfl, rfl⟩
    exact ⟨hp, hc⟩
  · rintro ⟨hp, hc⟩
    exact ⟨p, hp, c, hc, rfl, rfl⟩

theorem mem_delete_paths_where {cond : PathRow → ContentRow → Bool} :
    row ∈ (t.delete_paths_where cond).paths ↔
      row ∈ t.paths ∧ ∀ c ∈ t.contents, c.id = row.content_id → cond row c = false := by
  simp only [delete_paths_where, mem_filter, Bool.not_eq_true', Option.any_eq_false]
  refine and_congr_right (fun _ => ?_)
  constructor
  · intro h c hc hid
    simpa using h c (content_row_eq_some.mpr ⟨hc, hid⟩)
  · intro h c hc
    obtain ⟨hmem, hid⟩ := content_row_eq_some.mp hc
    simpa using h c hmem hid

theorem constrained_iff {P : Prop} [Decidable P] {write : P → Tables} {paths : List PathRow}
    {contents : List ContentRow} {audit : List AuditRow}
    (h : ∀ hP, (write hP).paths = paths ∧ (write hP).contents = contents ∧
      (write hP).audit = audit) :
    (if hP : P then some (write hP) else none) = some t' ↔
      P ∧ t'.paths = paths ∧ t'.contents = contents ∧ t'.audit = audit := by
  by_cases hP : P
  · obtain ⟨rfl, rfl, rfl⟩ := h hP
    rw [dif_pos hP, Option.some.injEq, and_iff_right hP, eq_comm, Tables.ext_iff]
  · exact iff_of_false (by simp [hP]) fun hc => hP hc.1

theorem constrained_map {P Q : Prop} [Decidable P] [Decidable Q] {write : P → Tables}
    {write' : Q → Tables} {f : Tables → Tables} (hiff : Q ↔ P)
    (h : ∀ hP hQ, write' hQ = f (write hP)) :
    (if hQ : Q then some (write' hQ) else none)
      = (if hP : P then some (write hP) else none).map f := by
  by_cases hP : P
  · rw [dif_pos hP, dif_pos (hiff.mpr hP)]
    exact congrArg some (h hP _)
  · rw [dif_neg hP, dif_neg (mt hiff.mp hP)]
    rfl

theorem insert_content_row_eq_some {row : ContentRow} :
    t.insert_content_row row = some t' ↔
      ((∀ c ∈ t.contents, c.id ≠ row.id) ∧ row.created_at ≤ row.updated_at) ∧
      t'.paths = t.paths ∧ t'.contents = t.contents ++ [row] ∧ t'.audit = t.audit :=
  constrained_iff fun _ => ⟨rfl, rfl, rfl⟩

theorem insert_path_row_eq_some :
    t.insert_path_row row = some t' ↔
      ((∀ p ∈ t.paths, p.lowercase_path ≠ row.lowercase_path) ∧ operation_path row.path = true
        ∧ row.created_at ≤ row.updated_at ∧ ∃ c ∈ t.contents, c.id = row.content_id) ∧
      t'.paths = t.paths ++ [row] ∧ t'.contents = t.contents ∧ t'.audit = t.audit :=
  constrained_iff fun _ => ⟨rfl, rfl, rfl⟩

theorem update_content_row_eq_some {value : Text} {classification : Classification}
    {now : OffsetDateTime} :
    t.update_content_row id value classification now = some t' ↔
      (∀ row ∈ t.contents, row.id = id → row.created_at ≤ now) ∧
      t'.paths = t.paths ∧
      t'.contents = t.contents.map (ContentRow.overwrite id value classification now) ∧
      t'.audit = t.audit :=
  constrained_iff fun _ => ⟨rfl, rfl, rfl⟩

def config_path (t : Tables) {row : PathRow} (h : row ∈ t.paths) : ConfigPath :=
  ⟨row.path, Or.inr (t.path_grammar row h)⟩

theorem path_segments (h : row ∈ t.paths) :
    FoldSegments (segments row.lowercase_path) ∧
      row.lowercase_path = path_text (segments row.lowercase_path) ∧
      segments row.lowercase_path ≠ [] := by
  refine ⟨(t.config_path h).foldSegments_segs, (t.config_path h).fold_eq, fun hnil => ?_⟩
  have hroo := (t.config_path h).segs_eq_nil.mp hnil
  exact operation_ne_root (t.path_grammar row h) hroo

end Tables

structure PathContentClassRow where
  content_id : ℕ
  value : Text
  classification : Classification
  path_count : ℕ
deriving DecidableEq

structure DeletedPathRow where
  path : Text
  content_id : ℕ
  value : Text
  classification : Classification
deriving DecidableEq

structure MutationRow where
  created_at : OffsetDateTime
  updated_at : OffsetDateTime
deriving DecidableEq

structure PreviousContentRow where
  value : Text
  classification : Classification
deriving DecidableEq

structure InsertedContentRow where
  id : ℕ
  created_at : OffsetDateTime
  updated_at : OffsetDateTime
deriving DecidableEq

def content_ids (rows : List DeletedPathRow) : List ℕ :=
  ((rows.map DeletedPathRow.content_id).insertionSort (· ≤ ·)).dedup

theorem mem_content_ids {rows : List DeletedPathRow} {id : ℕ} :
    id ∈ content_ids rows ↔ ∃ row ∈ rows, row.content_id = id := by
  simp [content_ids]

/-! ## Requests -/

inductive Request where
  | begin
  | commit
  | lock_path (path : Text) (exclusive : Bool)
  | lock_content (content_id : ℕ)
  | path_collides (path : Text)
  | reserve_content_id
  | insert_content (content_id : ℕ) (value : Text) (classification : Classification)
      (now : OffsetDateTime)
  | insert_path (path : Text) (content_id : ℕ) (now : OffsetDateTime)
  | delete_orphan_contents (content_ids : List ℕ)
  | path_content_class (fold : Text)
  | update_content (content_id : ℕ) (stored : Text) (classification : Classification)
      (now : OffsetDateTime)
  | secret_paths_touching (fold : Text)
  | delete_plain_paths_except (fold : Text) (keep : List Text)
  | content_id_at (fold : Text)
  | update_plain_content (content_id : ℕ) (value : Text) (now : OffsetDateTime)
  | delete_paths (fold : Text) (recurse : Bool)
  | path_is_occupied (fold : Text)
  | insert_events (actor : Actor) (occurred_at : OffsetDateTime) (events : List AuditEvent)
  | system_time
  | encrypt (content_id : ℕ) (classification : Classification) (value : Text)

def Request.Row : Request → Type
  | begin => Unit
  | commit => Unit
  | lock_path .. => Unit
  | lock_content .. => Unit
  | path_collides .. => Bool
  | reserve_content_id => ℕ
  | insert_content .. => InsertedContentRow
  | insert_path .. => Unit
  | delete_orphan_contents .. => Unit
  | path_content_class .. => Option PathContentClassRow
  | update_content .. => MutationRow
  | secret_paths_touching .. => List Text
  | delete_plain_paths_except .. => List DeletedPathRow
  | content_id_at .. => Option ℕ
  | update_plain_content .. => PreviousContentRow
  | delete_paths .. => List DeletedPathRow
  | path_is_occupied .. => Bool
  | insert_events .. => Unit
  | system_time => OffsetDateTime
  | encrypt .. => Text

abbrev Request.Answer (q : Request) : Type := Except Status q.Row

/-! ## The statements on tables -/

namespace Tables

def collides (t : Tables) (path : Text) : Bool :=
  t.paths.any fun row => row.lowercase_path != path
    && (starts_with row.lowercase_path (path ++ ['/'])
      || starts_with path (row.lowercase_path ++ ['/']))

def content_class (t : Tables) (fold : Text) : Option PathContentClassRow := do
  let row ← t.path_row fold
  let content ← t.content_row row.content_id
  return ⟨row.content_id, content.value, content.classification,
    t.paths.countP (fun sibling => sibling.content_id == row.content_id)⟩

def secrets_touching (t : Tables) (fold : Text) : List Text :=
  (t.joined.filter fun pc => pc.2.classification == .SECRET
    && (at_or_below pc.1.lowercase_path fold
      || starts_with fold (pc.1.lowercase_path ++ ['/']))).map fun pc => pc.1.lowercase_path

/-- The rows a delete returns, sorted by path: `RETURNING` promises no order. -/
def deleted_rows (t : Tables) (cond : PathRow → ContentRow → Bool) : List DeletedPathRow :=
  ((t.joined.filter fun pc => cond pc.1 pc.2).map fun pc =>
    ⟨pc.1.path, pc.1.content_id, pc.2.value, pc.2.classification⟩).insertionSort
      (fun left right => left.path ≤ right.path)

/-- The rows `delete_plain_paths_except` removes. -/
def plain_except (fold : Text) (keep : List Text) (p : PathRow) (c : ContentRow) : Bool :=
  at_or_below p.lowercase_path fold && c.classification == .PLAIN
    && !keep.contains p.lowercase_path

/-- The rows `delete_paths` removes. -/
def selected (fold : Text) (recurse : Bool) (p : PathRow) (_ : ContentRow) : Bool :=
  if recurse then at_or_below p.lowercase_path fold else p.lowercase_path == fold

def orphan (t : Tables) (ids : List ℕ) (c : ContentRow) : Bool :=
  ids.contains c.id && !t.paths.any (fun p => p.content_id == c.id)

variable {t : Tables}

theorem collides_iff (p : ConfigPath) (hp : operation_path p.path = true) :
    t.collides p.fold = true ↔ ∃ row ∈ t.paths, row.lowercase_path ≠ p.fold ∧
      (p.segs <+: segments row.lowercase_path ∨ segments row.lowercase_path <+: p.segs) := by
  have hpne : p.segs ≠ [] := fun h => operation_ne_root hp (p.segs_eq_nil.mp h)
  have hseg := p.foldSegments_segs
  simp only [collides, any_eq_true, Bool.and_eq_true, Bool.or_eq_true, bne_iff_ne]
  refine exists_congr (fun row => and_congr_right (fun hrow => and_congr_right (fun hne => ?_)))
  obtain ⟨hfol, htex, hrne⟩ := path_segments hrow
  have hsne : p.segs ≠ segments row.lowercase_path := by
    intro h
    rw [htex, p.fold_eq, h] at hne
    exact hne rfl
  have hdow := starts_with_slash_iff hfol hseg hpne
  have hup := starts_with_slash_iff hseg hfol hrne
  rw [← htex, ← p.fold_eq] at hdow hup
  rw [hdow, hup, and_iff_left hsne, and_iff_left (Ne.symm hsne)]

theorem row_at_or_below {row : PathRow} (h : row ∈ t.paths) (root : ConfigPath) :
    at_or_below row.lowercase_path root.fold = true ↔
      root.segs <+: segments row.lowercase_path := by
  obtain ⟨hfol, htex, _⟩ := path_segments h
  have := at_or_below_iff hfol root.foldSegments_segs
  rwa [← htex, ← root.fold_eq] at this

theorem mem_secrets_touching {root : ConfigPath} {fold : Text} :
    fold ∈ t.secrets_touching root.fold ↔ ∃ row ∈ t.paths, row.lowercase_path = fold ∧
      (∃ c ∈ t.contents, c.id = row.content_id ∧ c.classification = .SECRET) ∧
      (root.segs <+: segments fold ∨ segments fold <+: root.segs) := by
  simp only [secrets_touching, mem_map, mem_filter, Bool.and_eq_true, beq_iff_eq,
    Bool.or_eq_true, Prod.exists, mem_joined]
  constructor
  · rintro ⟨row, c, ⟨⟨hrow, hc, hid⟩, hsec, htou⟩, rfl⟩
    refine ⟨row, hrow, rfl, ⟨c, hc, hid, hsec⟩, ?_⟩
    rw [row_at_or_below hrow] at htou
    refine htou.imp_right (fun h => ?_)
    obtain ⟨hfol, htex, hne⟩ := path_segments hrow
    rw [htex, root.fold_eq] at h
    have := (starts_with_slash_iff root.foldSegments_segs hfol hne).mp h
    exact this.1
  · rintro ⟨row, hrow, rfl, ⟨c, hc, hid, hsec⟩, htou⟩
    refine ⟨row, c, ⟨⟨hrow, hc, hid⟩, hsec, ?_⟩, rfl⟩
    rw [row_at_or_below hrow]
    by_cases hbel : root.segs <+: segments row.lowercase_path
    · exact Or.inl hbel
    · right
      obtain ⟨hfol, htex, hne⟩ := path_segments hrow
      have habo := htou.resolve_left hbel
      rw [htex, root.fold_eq]
      refine (starts_with_slash_iff root.foldSegments_segs hfol hne).mpr ⟨habo, fun heq => ?_⟩
      exact hbel (by rw [heq])

theorem mem_deleted_rows {cond : PathRow → ContentRow → Bool} {d : DeletedPathRow} :
    d ∈ t.deleted_rows cond ↔ ∃ p ∈ t.paths, ∃ c ∈ t.contents, c.id = p.content_id ∧
      cond p c = true ∧ d = ⟨p.path, p.content_id, c.value, c.classification⟩ := by
  simp only [deleted_rows, mem_insertionSort, mem_map, mem_filter, Prod.exists,
    mem_joined]
  constructor
  · rintro ⟨p, c, ⟨⟨hp, hc, hid⟩, hcon⟩, rfl⟩
    exact ⟨p, hp, c, hc, hid, hcon, rfl⟩
  · rintro ⟨p, hp, c, hc, hid, hcon, rfl⟩
    exact ⟨p, c, ⟨⟨hp, hc, hid⟩, hcon⟩, rfl⟩

theorem paths_prune (ids : List ℕ) :
    (t.delete_contents_where (t.orphan ids)).paths = t.paths := by
  refine filter_eq_self.mpr (fun p hp => ?_)
  simp only [Bool.not_eq_true', Option.any_eq_false]
  intro c hc
  obtain ⟨_, hid⟩ := content_row_eq_some.mp hc
  have huse : (t.paths.any fun p => p.content_id == c.id) = true :=
    any_eq_true.mpr ⟨p, hp, by simp [hid]⟩
  simp [orphan, huse]

theorem mem_contents_prune {ids : List ℕ} {c : ContentRow} :
    c ∈ (t.delete_contents_where (t.orphan ids)).contents ↔
      c ∈ t.contents ∧ (c.id ∈ ids → ∃ p ∈ t.paths, p.content_id = c.id) := by
  simp [delete_contents_where, orphan, imp_iff_not_or]

end Tables

/-! ## A working database -/

structure Db where
  committed : Tables
  working : Tables
  next_content_id : ℕ

structure Env where
  now : OffsetDateTime
  encrypt : ℕ → Classification → Text → Option Text

def encryption_failed : Status := .internal "configuration value could not be encrypted"

def Db.apply {α : Type} (db : Db) (answer : α) : Option Tables → Except Status α × Db
  | some tables => (.ok answer, { db with working := tables })
  | none => (.error storage_unavailable, db)

def exec (env : Env) : (q : Request) → Db → q.Answer × Db
  | .begin, db => (.ok (), { db with working := db.committed })
  | .commit, db => (.ok (), { db with committed := db.working })
  | .lock_path .., db => (.ok (), db)
  | .lock_content .., db => (.ok (), db)
  | .path_collides path, db => (.ok (db.working.collides path), db)
  | .reserve_content_id, db =>
      (.ok db.next_content_id, { db with next_content_id := db.next_content_id + 1 })
  | .insert_content id value classification now, db =>
      db.apply ⟨id, now, now⟩
        (db.working.insert_content_row ⟨id, value, classification, now, now⟩)
  | .insert_path path id now, db => db.apply () (db.working.insert_path_row ⟨path, id, now, now⟩)
  | .delete_orphan_contents ids, db =>
      db.apply () (some (db.working.delete_contents_where (db.working.orphan ids)))
  | .path_content_class fold, db => (.ok (db.working.content_class fold), db)
  | .update_content id stored classification now, db =>
      match db.working.content_row id with
      | none => (.error storage_unavailable, db)
      | some row =>
          db.apply ⟨row.created_at, now⟩
            (db.working.update_content_row id stored classification now)
  | .secret_paths_touching fold, db => (.ok (db.working.secrets_touching fold), db)
  | .delete_plain_paths_except fold keep, db =>
      db.apply (db.working.deleted_rows (Tables.plain_except fold keep))
        (some (db.working.delete_paths_where (Tables.plain_except fold keep)))
  | .content_id_at fold, db => (.ok ((db.working.path_row fold).map PathRow.content_id), db)
  | .update_plain_content id value now, db =>
      match db.working.content_row id with
      | none => (.error storage_unavailable, db)
      | some row =>
          db.apply ⟨row.value, row.classification⟩
            (db.working.update_content_row id value .PLAIN now)
  | .delete_paths fold recurse, db =>
      db.apply (db.working.deleted_rows (Tables.selected fold recurse))
        (some (db.working.delete_paths_where (Tables.selected fold recurse)))
  | .path_is_occupied fold, db => (.ok (db.working.path_row fold).isSome, db)
  | .insert_events actor occurred_at events, db =>
      db.apply () (some (db.working.insert_audit_rows
        (events.map fun event => ⟨actor, occurred_at, event⟩)))
  | .system_time, db => (.ok env.now, db)
  | .encrypt id classification value, db =>
      match env.encrypt id classification value with
      | some sealed => (.ok sealed, db)
      | none => (.error encryption_failed, db)

end SovereignConfig.Values
