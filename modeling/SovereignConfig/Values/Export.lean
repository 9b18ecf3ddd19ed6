/-
An export that is imported unedited changes nothing: the server resolves the masked text against
what is stored and looks every path up by its fold.
-/
import SovereignConfig.Values.Import
import SovereignConfig.Values.Readable
import SovereignConfig.Values.ReplaceEffect

namespace SovereignConfig.Values

open Lib Text List Tables

variable {t : Tables}

variable {row : PathRow} {root : ConfigPath}

theorem Leaves.apart (h : Leaves t) {row' : PathRow} (hrow : row ∈ t.paths)
    (hrow' : row' ∈ t.paths) (hne : row.lowercase_path ≠ row'.lowercase_path) :
    Apart row.lowercase_path row'.lowercase_path :=
  ⟨fun hpre => h row hrow row' hrow' ⟨hpre, hne⟩,
    fun hpre => h row' hrow' row hrow ⟨hpre, Ne.symm hne⟩⟩

def exported (p : PathRow) (c : ContentRow) : SubTreeEntry :=
  ⟨p.lowercase_path, some (mutation_content c.masked.display_text).wire⟩

def Exports (t : Tables) (root : ConfigPath) (values : List SubTreeEntry) : Prop :=
  ∀ value, value ∈ values ↔ ∃ p ∈ t.paths, ∃ c ∈ t.contents, c.id = p.content_id ∧
    root.segs <+: segments p.lowercase_path ∧ value = exported p c

section Effect

variable {root : ConfigPath} {n : NormalizedSubtree}

theorem plainEntry_export (h : Exports t root n.values) {fold text : Text} :
    PlainEntry t n fold text ↔ ∃ p ∈ t.paths, ∃ c ∈ t.contents, c.id = p.content_id ∧
      root.segs <+: segments p.lowercase_path ∧ p.lowercase_path = fold ∧
      c.classification = .PLAIN ∧ c.value = text := by
  constructor
  · rintro ⟨value, hval, rfl, hcon⟩
    obtain ⟨p, hp, c, hc, hid, hbel, rfl⟩ := (h value).mp hval
    refine ⟨p, hp, c, hc, hid, hbel, rfl, ?_⟩
    cases hcla : c.classification with
    | PLAIN =>
      refine ⟨rfl, ?_⟩
      simp only [exported, ContentRow.masked, hcla, ValueContent.display_text, mutation_content]
        at hcon
      split at hcon
      · rename_i hmas
        rcases hcon with hpla | ⟨_, _, rfl⟩
        · exact absurd hpla (by simp [SubTreeMutationContent.wire])
        · exact hmas
      · rcases hcon with hpla | ⟨hmar, _⟩
        · simpa [SubTreeMutationContent.wire] using hpla
        · exact absurd hmar (by simp [SubTreeMutationContent.wire])
    | SECRET =>
      simp only [exported, ContentRow.masked, hcla, ValueContent.display_text, mutation_content,
        if_true, SubTreeMutationContent.wire] at hcon
      rcases hcon with hpla | ⟨_, hnone, _⟩
      · simp at hpla
      · exact absurd ⟨p, hp, rfl, c, hc, hid, hcla⟩ hnone
  · rintro ⟨p, hp, c, hc, hid, hbel, rfl, hcla, rfl⟩
    refine ⟨exported p c, (h _).mpr ⟨p, hp, c, hc, hid, hbel, rfl⟩, rfl, ?_⟩
    simp only [exported, ContentRow.masked, hcla, ValueContent.display_text, mutation_content]
    by_cases hmas : c.value = MASKED_SECRET_TEXT
    · rw [if_pos hmas]
      refine Or.inr ⟨rfl, ?_, hmas⟩
      rintro ⟨row, hrow, hfol, hsec⟩
      obtain rfl := inj_on_of_nodup_map t.unique_path hrow hp hfol
      exact Tables.HasClass.unique ⟨c, hc, hid, hcla⟩ hsec
    · rw [if_neg hmas]
      exact Or.inl rfl

theorem stored_id_path {p : PathRow} (hp : p ∈ t.paths) :
    t.stored_id p.lowercase_path = some p.content_id := by
  rw [Tables.stored_id, path_row_eq_some.mpr ⟨hp, rfl⟩, Option.map_some]

variable {keep : List Text}

theorem cleared_eq (h : ∀ p ∈ t.paths, p ∈ (t.cleared root keep).paths) :
    (t.cleared root keep).paths = t.paths ∧ (t.cleared root keep).contents = t.contents := by
  constructor
  · refine (paths_prune _).trans (filter_eq_self.mpr fun p hp => ?_)
    have hkep := h p hp
    rw [Tables.cleared, Tables.pruned, paths_prune] at hkep
    exact (mem_filter.mp hkep).2
  · refine filter_eq_self.mpr fun c hc => ?_
    have hkep : c ∈ (t.cleared root keep).contents := by
      refine mem_cleared_contents.mpr ⟨hc, ?_⟩
      rintro ⟨row, hrow, _, hgon⟩
      exact absurd (h row hrow) hgon
    exact (mem_filter.mp hkep).2

def ContentRow.SameButUpdated (c c' : ContentRow) : Prop := c' = { c with updated_at := c'.updated_at }

theorem Replaces.unchanged {env : Env} {db db' : Db} {writes : ResolvedWrites}
    (hn : Normal root n) (hexp : Exports db.committed root n.values)
    (h : Replaces env db db' root n keep writes) :
    db'.committed.paths = db.committed.paths ∧
      List.Forall₂ ContentRow.SameButUpdated db.committed.contents db'.committed.contents := by
  have hkee : ∀ p ∈ db.committed.paths, root.segs <+: segments p.lowercase_path →
      db.committed.HasClass p .PLAIN → p.lowercase_path ∈ keep := by
    rintro p hp hbel ⟨c, hc, hid, hcla⟩
    rw [(plain_paths_ok_iff.mp h.plain).1, mem_map]
    exact ⟨(p.lowercase_path, c.value), (plainEntry_iff hn).mp ((plainEntry_export hexp).mpr
      ⟨p, hp, c, hc, hid, hbel, rfl, hcla, rfl⟩), rfl⟩
  have hall : ∀ p ∈ db.committed.paths, p ∈ (db.committed.cleared root keep).paths :=
    fun p hp => mem_cleared_paths.mpr ⟨hp, fun hgon => hgon.2.2 (hkee p hp hgon.1 hgon.2.1)⟩
  obtain ⟨hpat, hcon⟩ := cleared_eq hall
  have hsto : ∀ fold, (db.committed.cleared root keep).stored_id fold =
      db.committed.stored_id fold := by
    intro fold
    rw [Tables.stored_id, Tables.stored_id, Tables.path_row, Tables.path_row, hpat]
  have hwri : ∀ write ∈ plain_writes (db.committed.settled root n), ∃ p ∈ db.committed.paths,
      ∃ c ∈ db.committed.contents, c.id = p.content_id ∧ p.lowercase_path = write.1 ∧
      c.classification = .PLAIN ∧ c.value = write.2 := by
    intro write hwri
    obtain ⟨p, hp, c, hc, hid, _, hfol, hpla⟩ :=
      (plainEntry_export hexp).mp ((plainEntry_iff hn).mpr hwri)
    exact ⟨p, hp, c, hc, hid, hfol, hpla⟩
  have hfre : writes.fresh = [] := by
    refine eq_nil_iff_forall_not_mem.mpr fun write hmem => ?_
    obtain ⟨hpla, hnone⟩ := h.mem_fresh.mp hmem
    obtain ⟨p, hp, _, _, _, hfol, _⟩ := hwri write hpla
    rw [hsto, ← hfol, stored_id_path hp] at hnone
    simp at hnone
  rw [h.paths, h.contents, hfre, hpat, hcon]
  refine ⟨by simp [fresh_rows], ?_⟩
  rw [fresh_rows, map_nil, append_nil, forall₂_map_right_iff,
    forall₂_same]
  intro c hc
  rcases h.overwritten c with ⟨write, hmem, hid, heq⟩ | ⟨_, heq⟩
  · obtain ⟨p, hp, c', hc', hid', hfol, hcla, hval⟩ := hwri write hmem
    rw [hsto, ← hfol, stored_id_path hp, Option.some.injEq] at hid
    obtain rfl := inj_on_of_nodup_map db.committed.unique_content hc hc' (by omega)
    rw [ContentRow.SameButUpdated, heq, ← hval, ← hcla]
  · rw [heq]
    rfl

end Effect

end SovereignConfig.Values
