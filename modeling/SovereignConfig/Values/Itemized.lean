/-
The audit trail of a bulk change is its diff (`replacement_events`, `deletion_events`,
`push_capped` of `values/service.rs`).
-/
import SovereignConfig.Values.Readable
import SovereignConfig.Values.ReplaceEffect

namespace SovereignConfig.Values

open Lib Text List Tables

/-! ## The difference of two stores -/

def Tables.value_at (t : Tables) (fold : Text) : Option (Classification × Text) := do
  let row ← t.path_row fold
  let content ← t.content_row row.content_id
  return (content.classification, content.value)

/-- The folds of `range` at which a value went, changed or appeared between the tables, each once.
-/
structure Difference (range : Text → Prop) (t t' : Tables)
    (deleted updated created : List Text) : Prop where
  deleted_once : deleted.Nodup
  updated_once : updated.Nodup
  created_once : created.Nodup
  mem_deleted : ∀ fold, fold ∈ deleted ↔
    range fold ∧ t.value_at fold ≠ none ∧ t'.value_at fold = none
  mem_created : ∀ fold, fold ∈ created ↔
    range fold ∧ t.value_at fold = none ∧ t'.value_at fold ≠ none
  mem_updated : ∀ fold, fold ∈ updated ↔ range fold ∧ ∃ old new,
    t.value_at fold = some old ∧ t'.value_at fold = some new ∧ old ≠ new

/-- The event of the value that `fold` held. -/
def DeletionOf (actor : Actor) (t : Tables) (fold : Text) (event : AuditEvent) : Prop :=
  ∃ display old, to_ascii_lowercase display = fold ∧ t.value_at fold = some old ∧
    event = .value_deleted actor display (.of old.1 old.2)

/-- The event of the two values of `fold`. -/
def UpdateOf (actor : Actor) (t t' : Tables) (fold : Text) (event : AuditEvent) : Prop :=
  ∃ display old new, to_ascii_lowercase display = fold ∧ t.value_at fold = some old ∧
    t'.value_at fold = some new ∧
    event = .value_updated actor display (.of old.1 old.2) (.of new.1 new.2)

/-- The event of the value that `fold` now holds. -/
def CreationOf (actor : Actor) (t' : Tables) (fold : Text) (event : AuditEvent) : Prop :=
  ∃ display new, to_ascii_lowercase display = fold ∧ t'.value_at fold = some new ∧
    event = .value_created actor display (.of new.1 new.2)

section Stores

variable {t : Tables} {fold : Text}

theorem value_at_eq_some {value : Classification × Text} : t.value_at fold = some value ↔
    ∃ row ∈ t.paths, ∃ c ∈ t.contents, row.lowercase_path = fold ∧ c.id = row.content_id ∧
      value = (c.classification, c.value) := by
  simp only [Tables.value_at, Option.bind_eq_bind, Option.bind_eq_some_iff, Option.pure_def,
    Option.some.injEq, path_row_eq_some, content_row_eq_some]
  constructor
  · rintro ⟨row, ⟨hrow, hfol⟩, c, ⟨hc, hid⟩, rfl⟩
    exact ⟨row, hrow, c, hc, hfol, hid, rfl⟩
  · rintro ⟨row, hrow, c, hc, hfol, hid, rfl⟩
    exact ⟨row, ⟨hrow, hfol⟩, c, ⟨hc, hid⟩, rfl⟩

theorem value_at_ne_none : t.value_at fold ≠ none ↔ ∃ row ∈ t.paths, row.lowercase_path = fold := by
  rw [Option.ne_none_iff_exists']
  constructor
  · rintro ⟨value, hval⟩
    obtain ⟨row, hrow, _, _, hfol, _⟩ := value_at_eq_some.mp hval
    exact ⟨row, hrow, hfol⟩
  · rintro ⟨row, hrow, hfol⟩
    obtain ⟨c, hc, hid⟩ := t.content_exists row hrow
    exact ⟨_, value_at_eq_some.mpr ⟨row, hrow, c, hc, hfol, hid, rfl⟩⟩

theorem value_at_eq_none : t.value_at fold = none ↔ ∀ row ∈ t.paths, row.lowercase_path ≠ fold := by
  rw [← not_iff_not, ← Ne, value_at_ne_none]
  simp

end Stores

theorem foldl_push_capped (events : List AuditEvent) :
    events.foldl push_capped [] = events.take BULK_EVENT_CAP := by
  have hloo : ∀ (events done : List AuditEvent), done.length ≤ BULK_EVENT_CAP →
      events.foldl push_capped done = done ++ events.take (BULK_EVENT_CAP - done.length) := by
    intro events
    induction events with
    | nil => simp
    | cons event events ih =>
      intro done hdon
      rw [foldl_cons, push_capped]
      split_ifs with hroo
      · have hnex : (done ++ [event]).length ≤ BULK_EVENT_CAP := by
          rw [length_append]
          exact hroo
        have hlef : BULK_EVENT_CAP - done.length
            = BULK_EVENT_CAP - (done ++ [event]).length + 1 := by
          rw [length_append, length_singleton]
          omega
        rw [ih _ hnex, hlef, take_succ_cons, append_assoc, singleton_append]
      · have hful : BULK_EVENT_CAP - done.length = 0 := by omega
        rw [ih done hdon, hful, take_zero, take_zero]
  exact hloo events [] (Nat.zero_le _)

def deletions (actor : Actor) (rows : List DeletedPathRow) : List AuditEvent :=
  rows.map fun row => .value_deleted actor row.path (.of row.classification row.value)

def creations (actor : Actor) (displays : Displays) (fresh : List (Text × Text)) :
    List AuditEvent :=
  fresh.map fun (fold, content) =>
    .value_created actor (display_of displays fold) (.of .PLAIN content)

theorem replacement_events_eq (actor : Actor) (root : ConfigPath) (changes : SubtreeChanges)
    {events : List AuditEvent} (h : events = deletions actor changes.cleared ++
      updated_events actor changes ++ creations actor changes.displays changes.writes.fresh) :
    replacement_events actor root changes = events.take BULK_EVENT_CAP ++
      [.subtree_replaced actor root.as_str (creations actor changes.displays
        changes.writes.fresh).length (updated_events actor changes).length
        (deletions actor changes.cleared).length
        (events.length - (events.take BULK_EVENT_CAP).length)] := by
  have htot : (deletions actor changes.cleared).length + (updated_events actor changes).length +
      (creations actor changes.displays changes.writes.fresh).length = events.length := by
    rw [h, length_append, length_append]
  rw [← htot, ← foldl_push_capped, h]
  rfl

theorem deletion_events_eq (actor : Actor) (root : ConfigPath) (rows : List DeletedPathRow)
    (recurse : Bool) : deletion_events actor root rows recurse =
      (deletions actor rows).take BULK_EVENT_CAP ++ if recurse then
        [.subtree_deleted actor root.as_str (deletions actor rows).length
          ((deletions actor rows).length - ((deletions actor rows).take BULK_EVENT_CAP).length)]
      else [] := by
  have hlength : (deletions actor rows).length = rows.length := length_map ..
  rw [hlength, ← foldl_push_capped]
  cases recurse with
  | true => rfl
  | false => exact (append_nil _).symm

theorem unrecorded_add_recorded (events : List AuditEvent) :
    events.length - (events.take BULK_EVENT_CAP).length + (events.take BULK_EVENT_CAP).length
      = events.length :=
  Nat.sub_add_cancel (length_take_le' ..)

section Deleted

variable {t : Tables} {cond : PathRow → ContentRow → Bool} {fold : Text}

def deleted_folds (rows : List DeletedPathRow) : List Text :=
  rows.map fun row => to_ascii_lowercase row.path

theorem mem_deleted_folds : fold ∈ deleted_folds (t.deleted_rows cond) ↔
    ∃ row ∈ t.paths, row.lowercase_path = fold ∧ row ∉ (t.delete_paths_where cond).paths := by
  rw [deleted_folds, mem_map]
  constructor
  · rintro ⟨d, hd, rfl⟩
    obtain ⟨row, hrow, c, hc, hid, hcon, rfl⟩ := mem_deleted_rows.mp hd
    refine ⟨row, hrow, rfl, fun hsta => ?_⟩
    rw [(mem_delete_paths_where.mp hsta).2 c hc hid] at hcon
    cases hcon
  · rintro ⟨row, hrow, rfl, hgon⟩
    obtain ⟨c, hc, hid⟩ := t.content_exists row hrow
    have hcon : cond row c = true := by
      by_contra hnot
      refine hgon (mem_delete_paths_where.mpr ⟨hrow, fun c' hc' hid' => ?_⟩)
      obtain rfl := inj_on_of_nodup_map t.unique_content hc hc' (hid.trans hid'.symm)
      simpa using hnot
    exact ⟨_, mem_deleted_rows.mpr ⟨row, hrow, c, hc, hid, hcon, rfl⟩, rfl⟩

theorem deleted_folds_nodup (t : Tables) (cond : PathRow → ContentRow → Bool) :
    (deleted_folds (t.deleted_rows cond)).Nodup := by
  have hper : (deleted_folds (t.deleted_rows cond)).Perm
      ((t.joined.filter fun pc => cond pc.1 pc.2).map fun pc => pc.1.lowercase_path) := by
    have hsor := (perm_insertionSort (fun left right : DeletedPathRow =>
      left.path ≤ right.path) ((t.joined.filter fun pc => cond pc.1 pc.2).map fun pc =>
        ⟨pc.1.path, pc.1.content_id, pc.2.value, pc.2.classification⟩)).map
          fun row => to_ascii_lowercase row.path
    rw [map_map] at hsor
    exact hsor
  exact hper.nodup_iff.mpr ((nodup_joined_folds t).sublist (filter_sublist.map _))

theorem deletions_of (actor : Actor) (t : Tables) (cond : PathRow → ContentRow → Bool) :
    List.Forall₂ (DeletionOf actor t) (deleted_folds (t.deleted_rows cond))
      (deletions actor (t.deleted_rows cond)) := by
  rw [deletions, deleted_folds, forall₂_map_left_iff, forall₂_map_right_iff,
    forall₂_same]
  intro d hd
  obtain ⟨row, hrow, c, hc, hid, _, rfl⟩ := mem_deleted_rows.mp hd
  exact ⟨row.path, _, rfl, value_at_eq_some.mpr ⟨row, hrow, c, hc, rfl, hid, rfl⟩, rfl⟩

end Deleted

/-! ## What a replacement resolves -/

variable {writes writes' : ResolvedWrites} {recurse : Bool} {root : ConfigPath}

theorem add_shared_paths {path content : Text} {id : Option ℕ}
    (h : writes.add path content id = .ok writes') :
    writes'.shared_paths = writes.shared_paths ++ (id.map fun id => (path, id)).toList := by
  cases id with
  | none =>
    cases h
    exact (append_nil _).symm
  | some id =>
    simp only [ResolvedWrites.add] at h
    split at h
    · split_ifs at h
      cases h
      rfl
    · cases h
      rfl

theorem resolve_writes_shared_paths {stored : Text → Option ℕ} {plain : List (Text × Text)}
    (h : resolve_writes stored plain writes = .ok writes') :
    writes'.shared_paths = writes.shared_paths ++
      plain.filterMap fun write => (stored write.1).map fun id => (write.1, id) := by
  induction plain generalizing writes with
  | nil =>
    cases h
    exact (append_nil _).symm
  | cons write plain ih =>
    rw [resolve_writes, foldlM_cons] at h
    obtain ⟨writes₁, hfir, hres⟩ := bind_eq_ok.mp h
    rw [ih hres, add_shared_paths hfir, append_assoc, filterMap_cons]
    cases stored write.1 with
    | none => rfl
    | some id => rfl

def updated_folds (changes : SubtreeChanges) : List Text :=
  changes.writes.shared_paths.filterMap fun (fold, content_id) => do
    let before ← changes.previous[content_id]?
    let after ← changes.writes.shared[content_id]?
    if before.value ≠ after ∨ before.classification ≠ .PLAIN then some fold else none

section Replacement

variable {env : Env} {db db' : Db} {root : ConfigPath} {n : NormalizedSubtree}
  {keep : List Text} {writes : ResolvedWrites}

theorem Normal.plain_below (hn : Normal root n) (t : Tables) {write : Text × Text}
    (hw : write ∈ plain_writes (t.settled root n)) : at_or_below write.1 root.fold = true := by
  obtain ⟨value, hval, -, hpat⟩ := hn.of_plain t hw
  obtain ⟨hseg, htex, -, hbel⟩ := hval.segments
  rw [← hpat, htex, root.fold_eq]
  exact (at_or_below_iff hseg root.foldSegments_segs).mpr hbel

section

variable (h : Replaces env db db' root n keep writes)
include h

variable {fold : Text} {id : ℕ}

theorem Replaces.mem_keep :
    fold ∈ keep ↔ ∃ text, (fold, text) ∈ plain_writes (db.committed.settled root n) := by
  rw [(plain_paths_ok_iff.mp h.plain).1]
  simp

theorem Replaces.mem_shared_paths :
    (fold, id) ∈ writes.shared_paths ↔
      ∃ text, (fold, text) ∈ plain_writes (db.committed.settled root n) ∧
        (db.committed.cleared root keep).stored_id fold = some id := by
  rw [resolve_writes_shared_paths h.resolved]
  show (fold, id) ∈ [] ++ _ ↔ _
  rw [nil_append, mem_filterMap]
  constructor
  · rintro ⟨⟨path, text⟩, hw, hsom⟩
    obtain ⟨id', hid, heq⟩ := Option.map_eq_some_iff.mp hsom
    obtain ⟨rfl, rfl⟩ := Prod.mk.inj heq
    exact ⟨text, hw, hid⟩
  · rintro ⟨text, hw, hid⟩
    exact ⟨(fold, text), hw, by rw [hid]; rfl⟩

theorem Replaces.shared_paths_nodup (hn : Normal root n) :
    (writes.shared_paths.map Prod.fst).Nodup := by
  have hpat : writes.shared_paths = (plain_writes (db.committed.settled root n)).filterMap
      fun write => ((db.committed.cleared root keep).stored_id write.1).map
        fun id => (write.1, id) := resolve_writes_shared_paths h.resolved
  rw [hpat]
  refine nodup_filterMap_key (plain_writes_nodup hn db.committed) fun write landed hsom => ?_
  obtain ⟨id, -, rfl⟩ := Option.map_eq_some_iff.mp hsom
  rfl

theorem Replaces.left_iff (hn : Normal root n) {row : PathRow} (hrow : row ∈ db.committed.paths) :
    (∃ row' ∈ db'.committed.paths, row'.lowercase_path = row.lowercase_path) ↔
      row ∈ (db.committed.cleared root keep).paths := by
  refine ⟨?_, fun hkep => ⟨row, h.kept_row hkep, rfl⟩⟩
  rintro ⟨row', hrow', heq⟩
  obtain rfl := h.keeps_row hn hrow hrow' heq
  rcases h.mem_paths hn hrow' with hkep | ⟨write, hw, hfol, _⟩
  · exact hkep
  · obtain ⟨hpla, hnone⟩ := h.mem_fresh.mp hw
    rw [stored_id_cleared (h.mem_keep.mpr ⟨write.2, hpla⟩), Tables.stored_id,
      Option.map_eq_none_iff] at hnone
    exact absurd hfol (row_at_eq_none.mp hnone _ hrow)

theorem Replaces.landed_values (hn : Normal root n) {text : Text}
    (hw : (fold, text) ∈ plain_writes (db.committed.settled root n))
    (hid : (db.committed.cleared root keep).stored_id fold = some id) :
    ∃ c ∈ db.committed.contents, c.id = id ∧ c.classification = .PLAIN ∧
      db.committed.value_at fold = some (.PLAIN, c.value) ∧
      db'.committed.value_at fold = some (.PLAIN, text) := by
  obtain ⟨-, row, hkep, hfol, hrid⟩ := h.landed hw hid
  have hrow := (mem_cleared_paths.mp hkep).1
  obtain ⟨c, hc, hcid⟩ := db.committed.content_exists row hrow
  have hpla : c.classification = .PLAIN := by
    cases hcla : c.classification with
    | PLAIN => rfl
    | SECRET => exact absurd ⟨c, hc, hcid, hcla⟩ (h.not_secret hn hw hrow hfol)
  obtain ⟨row', hrow', c', hc', hfol', hcid', hcla', rfl⟩ := h.writes_plain hn hw
  refine ⟨c, hc, hcid.trans hrid, hpla, ?_, ?_⟩
  · exact value_at_eq_some.mpr ⟨row, hrow, c, hc, hfol, hcid, by rw [hpla]⟩
  · exact value_at_eq_some.mpr ⟨row', hrow', c', hc', hfol', hcid', by rw [hcla']⟩

theorem Replaces.changed (hn : Normal root n) {old new : Classification × Text}
    (hbel : at_or_below fold root.fold = true) (hold : db.committed.value_at fold = some old)
    (hnew : db'.committed.value_at fold = some new) (hne : old ≠ new) :
    ∃ text id, (fold, text) ∈ plain_writes (db.committed.settled root n) ∧
      (db.committed.cleared root keep).stored_id fold = some id := by
  obtain ⟨row, hrow, c, hc, rfl, hcid, rfl⟩ := value_at_eq_some.mp hold
  obtain ⟨row', hrow', c', hc', hfol', hcid', rfl⟩ := value_at_eq_some.mp hnew
  have hkep := (h.left_iff hn hrow).mp ⟨row', hrow', hfol'⟩
  obtain rfl := h.keeps_row hn hrow hrow' hfol'
  have hcke : c ∈ (db.committed.cleared root keep).contents :=
    mem_cleared_contents.mpr ⟨hc, fun _ => ⟨row', hkep, hcid.symm⟩⟩
  -- Its content is still there, overwritten or not.
  obtain rfl : c.overwrite_all env.now writes.shared.toList = c' := by
    refine inj_on_of_nodup_map db'.committed.unique_content
      (h.mem_contents.mpr (Or.inl ⟨c, hcke, rfl⟩)) hc' ?_
    rw [ContentRow.overwrite_all_id, hcid, hcid']
  rcases h.overwritten c with ⟨write, hw, hid, _⟩ | ⟨_, hsam⟩
  · obtain ⟨-, other, hoth, hfol, hoid⟩ := h.landed hw hid
    have hnot := h.not_secret hn hw (mem_cleared_paths.mp hoth).1 hfol
    have hpla : c.classification = .PLAIN := by
      cases hcla : c.classification with
      | PLAIN => rfl
      | SECRET => exact absurd ⟨c, hc, hoid.symm, hcla⟩ hnot
    have hkee : row'.lowercase_path ∈ keep := by
      by_contra hnot
      refine (mem_cleared_paths.mp hkep).2 ⟨?_, ⟨c, hc, hcid, hpla⟩, hnot⟩
      exact (row_at_or_below hrow root).mp hbel
    obtain ⟨text, hw'⟩ := h.mem_keep.mp hkee
    refine ⟨text, row'.content_id, hw', ?_⟩
    rw [Tables.stored_id, path_row_eq_some.mpr ⟨hkep, rfl⟩]
    rfl
  · rw [hsam] at hne
    exact absurd rfl hne

end

variable {previous : Std.TreeMap ℕ PreviousContentRow}

def Tables.changes (t : Tables) (root : ConfigPath) (n : NormalizedSubtree) (keep : List Text)
    (writes : ResolvedWrites) (previous : Std.TreeMap ℕ PreviousContentRow) : SubtreeChanges :=
  ⟨t.deleted_rows (Tables.plain_except root.fold keep), writes, previous, n.displays⟩

section

variable (h : Replaces env db db' root n keep writes) (hn : Normal root n)
  (hprevious : ∀ write ∈ writes.shared.toList, ∃ c ∈ (db.committed.cleared root keep).contents,
    c.id = write.1 ∧ previous[write.1]? = some ⟨c.value, c.classification⟩)
include h hn hprevious

variable {fold : Text}

theorem Replaces.shared_round {id : ℕ} (hin : (fold, id) ∈ writes.shared_paths) :
    ∃ old new, previous[id]? = some ⟨old, .PLAIN⟩ ∧ writes.shared[id]? = some new ∧
      db.committed.value_at fold = some (.PLAIN, old) ∧
      db'.committed.value_at fold = some (.PLAIN, new) := by
  obtain ⟨text, hw, hid⟩ := h.mem_shared_paths.mp hin
  obtain ⟨c, hc, hcid, hpla, hold, hnew⟩ := h.landed_values hn hw hid
  have hsha := ((resolve_writes_ok h.resolved).shared id text).mpr ⟨fold, hw, hid⟩
  obtain ⟨c₀, hc₀, hcid₀, hpre⟩ :=
    hprevious (id, text) (Std.TreeMap.mem_toList_iff_getElem?_eq_some.mpr hsha)
  obtain rfl := inj_on_of_nodup_map db.committed.unique_content
    (mem_cleared_contents.mp hc₀).1 hc (hcid₀.trans hcid.symm)
  rw [hpla] at hpre
  exact ⟨c₀.value, text, hpre, hsha, hold, hnew⟩

theorem Replaces.mem_updated_folds :
    fold ∈ updated_folds (db.committed.changes root n keep writes previous) ↔
      at_or_below fold root.fold = true ∧ ∃ old new,
      db.committed.value_at fold = some old ∧ db'.committed.value_at fold = some new ∧
        old ≠ new := by
  rw [updated_folds, mem_filterMap]
  constructor
  · rintro ⟨⟨fold', id⟩, hin, hsom⟩
    obtain ⟨old, new, hpre, hsha, hold, hnew⟩ := h.shared_round hn hprevious hin
    simp only [Tables.changes, hpre, hsha, Option.bind_eq_bind, Option.bind_some] at hsom
    split_ifs at hsom with hdif
    obtain rfl := Option.some.inj hsom
    have hne : old ≠ new := hdif.resolve_right (by simp)
    obtain ⟨text, hw, -⟩ := h.mem_shared_paths.mp hin
    exact ⟨hn.plain_below db.committed hw, _, _, hold, hnew, fun heq => hne (Prod.mk.inj heq).2⟩
  · rintro ⟨hbel, old, new, hold, hnew, hne⟩
    obtain ⟨text, id, hw, hid⟩ := h.changed hn hbel hold hnew hne
    have hin := h.mem_shared_paths.mpr ⟨text, hw, hid⟩
    obtain ⟨old', new', hpre, hsha, hold', hnew'⟩ := h.shared_round hn hprevious hin
    rw [hold'] at hold
    rw [hnew'] at hnew
    cases hold
    cases hnew
    have hdif : old' ≠ new' := fun heq => hne (by rw [heq])
    refine ⟨(fold, id), hin, ?_⟩
    simp [Tables.changes, hpre, hsha, hdif]

theorem Replaces.updates_of (actor : Actor) :
    List.Forall₂ (UpdateOf actor db.committed db'.committed)
      (updated_folds (db.committed.changes root n keep writes previous))
      (updated_events actor (db.committed.changes root n keep writes previous)) := by
  have hrou : List.Forall₂ (fun a b => a = b ∧ a ∈ writes.shared_paths) writes.shared_paths
      writes.shared_paths := forall₂_same.mpr fun _ hin => ⟨rfl, hin⟩
  refine rel_filterMap ?_ hrou
  rintro ⟨fold, id⟩ _ ⟨rfl, hin⟩
  obtain ⟨old, new, hpre, hsha, hold, hnew⟩ := h.shared_round hn hprevious hin
  simp only [Tables.changes, hpre, hsha, Option.bind_eq_bind, Option.bind_some]
  split_ifs
  · refine Option.Rel.some ⟨display_of n.displays fold, _, _, ?_, hold, hnew, rfl⟩
    obtain ⟨text, hw, -⟩ := h.mem_shared_paths.mp hin
    obtain ⟨value, hval, -, rfl⟩ := hn.of_plain db.committed hw
    exact (display_of_normal hn.displays hval).2
  · exact Option.Rel.none

theorem Replaces.difference : Difference (fun fold => at_or_below fold root.fold = true)
    db.committed db'.committed
    (deleted_folds (db.committed.deleted_rows (Tables.plain_except root.fold keep)))
    (updated_folds (db.committed.changes root n keep writes previous))
    (writes.fresh.map Prod.fst) where
  deleted_once := deleted_folds_nodup ..
  updated_once := by
    have hnod :
        ((updated_folds (db.committed.changes root n keep writes previous)).map id).Nodup := by
      refine nodup_filterMap_key (h.shared_paths_nodup hn) fun pair fold hsom => ?_
      simp only [Option.bind_eq_bind, Option.bind_eq_some_iff] at hsom
      obtain ⟨_, -, _, -, hsom⟩ := hsom
      split_ifs at hsom
      exact (Option.some.inj hsom).symm
    rwa [map_id] at hnod
  created_once := by
    rw [(resolve_writes_ok h.resolved).fresh]
    exact (plain_writes_nodup hn db.committed).sublist (filter_sublist.map _)
  mem_updated := fun fold => h.mem_updated_folds hn hprevious
  mem_deleted := by
    intro fold
    have hcle : (db.committed.cleared root keep).paths =
        (db.committed.delete_paths_where (Tables.plain_except root.fold keep)).paths :=
      paths_prune _
    rw [mem_deleted_folds, ← hcle, value_at_ne_none, value_at_eq_none]
    constructor
    · rintro ⟨row, hrow, rfl, hgon⟩
      have hbel : root.segs <+: segments row.lowercase_path := by
        by_contra hnot
        exact hgon (mem_cleared_paths.mpr ⟨hrow, fun hclea => hnot hclea.1⟩)
      refine ⟨(row_at_or_below hrow root).mpr hbel, ⟨row, hrow, rfl⟩, ?_⟩
      intro row' hrow' hfol
      exact hgon ((h.left_iff hn hrow).mp ⟨row', hrow', hfol⟩)
    · rintro ⟨-, ⟨row, hrow, rfl⟩, hnone⟩
      exact ⟨row, hrow, rfl, fun hkep => hnone row (h.kept_row hkep) rfl⟩
  mem_created := by
    intro fold
    rw [value_at_ne_none, value_at_eq_none, mem_map]
    constructor
    · rintro ⟨write, hw, rfl⟩
      obtain ⟨hpla, hnone⟩ := h.mem_fresh.mp hw
      obtain ⟨i, hi⟩ := mem_iff_getElem?.mp hw
      rw [stored_id_cleared (h.mem_keep.mpr ⟨write.2, hpla⟩), Tables.stored_id,
        Option.map_eq_none_iff] at hnone
      exact ⟨hn.plain_below db.committed hpla, row_at_eq_none.mp hnone, _, h.fresh_row hi,
        (h.fresh_fold hn hw).1⟩
    · rintro ⟨-, hnone, row, hrow, rfl⟩
      rcases h.mem_paths hn hrow with hkep | ⟨write, hw, hfol, -⟩
      · exact absurd rfl (hnone row (mem_cleared_paths.mp hkep).1)
      · exact ⟨write, hw, hfol.symm⟩

omit hprevious in
theorem Replaces.creations_of (actor : Actor) :
    List.Forall₂ (CreationOf actor db'.committed) (writes.fresh.map Prod.fst)
      (creations actor n.displays writes.fresh) := by
  rw [creations, forall₂_map_left_iff, forall₂_map_right_iff,
    forall₂_same]
  intro write hw
  obtain ⟨row, hrow, c, hc, hfol, hcid, hcla, hval⟩ := h.writes_plain hn (h.mem_fresh.mp hw).1
  refine ⟨_, (.PLAIN, write.2), (h.fresh_fold hn hw).1, ?_, rfl⟩
  exact value_at_eq_some.mpr ⟨row, hrow, c, hc, hfol, hcid, by rw [hcla, hval]⟩

end

end Replacement

def deletion_range (root : ConfigPath) (recurse : Bool) (fold : Text) : Prop :=
  if recurse then at_or_below fold root.fold = true else fold = root.fold

theorem selected_iff {row : PathRow} {c : ContentRow} :
    Tables.selected root.fold recurse row c = true ↔
      deletion_range root recurse row.lowercase_path := by
  unfold Tables.selected deletion_range
  cases recurse with
  | true => exact Iff.rfl
  | false => exact beq_iff_eq

/-- **The changes of a deletion are the difference of the two stores** in its range: it creates and
updates nothing. -/
theorem deletion_difference {t t' : Tables} {ids : List ℕ}
    (hpat : t'.paths = (t.delete_paths_where (Tables.selected root.fold recurse)).paths)
    (hcon : t'.contents
      = ((t.delete_paths_where (Tables.selected root.fold recurse)).pruned ids).contents) :
    Difference (deletion_range root recurse) t t'
      (deleted_folds (t.deleted_rows (Tables.selected root.fold recurse))) [] [] where
  deleted_once := deleted_folds_nodup ..
  updated_once := nodup_nil
  created_once := nodup_nil
  mem_deleted := by
    intro fold
    rw [mem_deleted_folds, value_at_ne_none, value_at_eq_none, ← hpat]
    constructor
    · rintro ⟨row, hrow, rfl, hgon⟩
      refine ⟨?_, ⟨row, hrow, rfl⟩, fun row' hrow' hfol => ?_⟩
      · by_contra hnot
        rw [hpat, mem_delete_paths_where] at hgon
        refine hgon ⟨hrow, fun c _ _ => ?_⟩
        rw [← Bool.not_eq_true]
        exact mt selected_iff.mp hnot
      · rw [hpat] at hrow' hgon
        have hrow'' := (mem_delete_paths_where.mp hrow').1
        obtain rfl := inj_on_of_nodup_map t.unique_path hrow'' hrow hfol
        exact hgon hrow'
    · rintro ⟨-, ⟨row, hrow, rfl⟩, hnone⟩
      exact ⟨row, hrow, rfl, fun hkep => hnone row hkep rfl⟩
  mem_created := by
    intro fold
    refine iff_of_false not_mem_nil ?_
    rintro ⟨-, hnone, hsom⟩
    obtain ⟨row, hrow, hfol⟩ := value_at_ne_none.mp hsom
    rw [hpat] at hrow
    exact value_at_eq_none.mp hnone row (mem_delete_paths_where.mp hrow).1 hfol
  mem_updated := by
    intro fold
    refine iff_of_false not_mem_nil ?_
    rintro ⟨-, old, new, hold, hnew, hne⟩
    obtain ⟨row, hrow, c, hc, hfol, hid, rfl⟩ := value_at_eq_some.mp hold
    obtain ⟨row', hrow', c', hc', hfol', hid', rfl⟩ := value_at_eq_some.mp hnew
    rw [hpat] at hrow'
    rw [hcon, Tables.pruned, mem_contents_prune] at hc'
    obtain rfl := inj_on_of_nodup_map t.unique_path (mem_delete_paths_where.mp hrow').1
      hrow (hfol'.trans hfol.symm)
    obtain rfl := inj_on_of_nodup_map t.unique_content hc'.1 hc (hid'.trans hid.symm)
    exact hne rfl

/-! ## The trail of a bulk change -/

/-- **Bulk changes are itemized exactly.** -/
theorem bulk_changes_itemized {env : Env} {db db' : Db} {context : CallContext} {path : Text} :
    (∀ (values : List SubTreeEntry) (metadata : ReplaceMetadata),
      perform env (replace_sub_tree context path values) db = (.ok metadata, db') →
      ∃ root actor deleted updated created deletions updates creations unrecorded,
        authorize context path [.Write, .Manage] true = .ok root ∧ context.actor = .ok actor ∧
        Difference (fun fold => at_or_below fold root.fold = true) db.committed db'.committed
          deleted updated created ∧
        List.Forall₂ (DeletionOf actor db.committed) deleted deletions ∧
        List.Forall₂ (UpdateOf actor db.committed db'.committed) updated updates ∧
        List.Forall₂ (CreationOf actor db'.committed) created creations ∧
        db'.committed.audit = db.committed.audit ++
          ((deletions ++ updates ++ creations).take BULK_EVENT_CAP ++
            [AuditEvent.subtree_replaced actor root.as_str created.length updated.length
              deleted.length unrecorded]).map (fun event => ⟨actor, env.now, event⟩) ∧
        unrecorded + ((deletions ++ updates ++ creations).take BULK_EVENT_CAP).length
          = deleted.length + updated.length + created.length) ∧
    (∀ (recurse : Bool) (metadata : DeleteMetadata),
      perform env (delete_values context path recurse) db = (.ok metadata, db') →
      ∃ root actor deleted deletions unrecorded,
        authorize context path [.Write] recurse = .ok root ∧ context.actor = .ok actor ∧
        Difference (deletion_range root recurse) db.committed db'.committed deleted [] [] ∧
        List.Forall₂ (DeletionOf actor db.committed) deleted deletions ∧
        db'.committed.audit = db.committed.audit ++
          (deletions.take BULK_EVENT_CAP ++
            if recurse then
              [AuditEvent.subtree_deleted actor root.as_str deleted.length unrecorded]
            else []).map (fun event => ⟨actor, env.now, event⟩) ∧
        unrecorded + (deletions.take BULK_EVENT_CAP).length = deleted.length) := by
  constructor
  · intro values metadata hper
    obtain ⟨db₁, hret, rfl⟩ := perform_returns.mp hper
    obtain ⟨root, n, keep, writes, actor, previous, haut, hnor, hact, h, hprevious, haud⟩ :=
      replace_sub_tree_recorded hret
    have hn := normalize_ok hnor
    have hdel := deletions_of actor db.committed (Tables.plain_except root.fold keep)
    have hupd := h.updates_of hn hprevious actor
    have hcre := h.creations_of hn actor
    obtain ⟨events, heve⟩ : ∃ events, events =
        deletions actor (db.committed.deleted_rows (Tables.plain_except root.fold keep)) ++
          updated_events actor (db.committed.changes root n keep writes previous) ++
          creations actor n.displays writes.fresh := ⟨_, rfl⟩
    refine ⟨root, actor, _, _, _, _, _, _, events.length - (events.take BULK_EVENT_CAP).length,
      haut, hact, h.difference hn hprevious, hdel, hupd, hcre, ?_, ?_⟩
    · have htra := replacement_events_eq actor root
        (db.committed.changes root n keep writes previous) heve
      rw [haud, ← heve, hdel.length_eq, hupd.length_eq, hcre.length_eq]
      refine congrArg (db.committed.audit ++ ·) (congrArg (List.map _) ?_)
      exact htra
    · rw [← heve, unrecorded_add_recorded, heve, length_append, length_append,
        hdel.length_eq, hupd.length_eq, hcre.length_eq]
  · intro recurse metadata hper
    obtain ⟨db₁, hret, rfl⟩ := perform_returns.mp hper
    obtain ⟨root, actor, haut, hact, -, hpat, hcon, -, haud⟩ :=
      delete_values_recorded hret
    have hdel := deletions_of actor db.committed (Tables.selected root.fold recurse)
    refine ⟨root, actor, _, _, (deletions actor (db.committed.deleted_rows
        (Tables.selected root.fold recurse))).length - ((deletions actor
          (db.committed.deleted_rows (Tables.selected root.fold recurse))).take
            BULK_EVENT_CAP).length,
      haut, hact, deletion_difference hpat hcon, hdel, ?_, ?_⟩
    · rw [haud, deletion_events_eq, hdel.length_eq]
    · rw [unrecorded_add_recorded, hdel.length_eq]

/-- The replacement deletes a value, changes one and adds one; the deletion takes a path. -/
theorem mixed_changes_itemized :
    (∃ deleted updated created unrecorded,
      Difference (fun fold => at_or_below fold "/a".toList = true)
        (performed (mixed_mutations.take 4)).committed
        (performed (mixed_mutations.take 5)).committed deleted updated created ∧
      (performed (mixed_mutations.take 5)).committed.audit.length + unrecorded =
        (performed (mixed_mutations.take 4)).committed.audit.length +
          (deleted.length + updated.length + created.length) + 1) ∧
    ∃ deleted unrecorded,
      Difference (fun fold => at_or_below fold "/b".toList = true)
        (performed (mixed_mutations.take 5)).committed
        (performed mixed_mutations).committed deleted [] [] ∧
      (performed mixed_mutations).committed.audit.length + unrecorded =
        (performed (mixed_mutations.take 5)).committed.audit.length + deleted.length + 1 := by
  have hrep : perform quiet_env (replace_sub_tree operator "/a".toList
      [⟨"/a/x".toList, some (.PlainValue "z".toList)⟩,
        ⟨"/a/t/u".toList, some (.PlainValue "u".toList)⟩]) (performed (mixed_mutations.take 4)) =
      (.ok ⟨⟨0, 0⟩, 2⟩, performed (mixed_mutations.take 5)) := Prod.ext (by decide +kernel) rfl
  have hdel : perform quiet_env (delete_values operator "/b".toList true)
      (performed (mixed_mutations.take 5)) = (.ok ⟨⟨0, 0⟩, 1⟩, performed mixed_mutations) :=
    Prod.ext (by decide +kernel) rfl
  constructor
  · obtain ⟨root, actor, deleted, updated, created, deletions, updates, creations, unrecorded, haut,
      -, hdif, -, -, -, haud, hcou⟩ := bulk_changes_itemized.1 _ _ hrep
    obtain rfl := Except.ok.inj haut
    refine ⟨deleted, updated, created, unrecorded, hdif, ?_⟩
    rw [haud, length_append, length_map, length_append, length_singleton]
    omega
  · obtain ⟨root, actor, deleted, deletions, unrecorded, haut, -, hdif, -, haud, hcou⟩ :=
      bulk_changes_itemized.2 true _ hdel
    obtain rfl := Except.ok.inj haut
    refine ⟨deleted, unrecorded, hdif, ?_⟩
    rw [haud, length_append, length_map, length_append, if_pos rfl, length_singleton]
    omega

end SovereignConfig.Values
