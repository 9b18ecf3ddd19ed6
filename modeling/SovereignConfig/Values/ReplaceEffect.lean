/-
`replace_sub_tree` as its callers see it: when a request is acceptable, and how the stores before
and after are related (`ReplaceEffect`).
-/
import SovereignConfig.Values.Leaves

namespace SovereignConfig.Values

open Lib Text List Tables

def Tables.SecretAt (t : Tables) (fold : Text) : Prop :=
  ∃ row ∈ t.paths, row.lowercase_path = fold ∧ t.HasClass row .SECRET

def PlainEntry (t : Tables) (n : NormalizedSubtree) (fold text : Text) : Prop :=
  ∃ value ∈ n.values, value.path = fold ∧ (value.content = some (.PlainValue text) ∨
    (value.content = some .PreserveSecret ∧ ¬ t.SecretAt fold ∧ text = MASKED_SECRET_TEXT))

/-- No plain entry touches a secret, and entries for one content agree on its text. -/
structure Acceptable (t : Tables) (n : NormalizedSubtree) : Prop where
  clear_of_secrets : ∀ fold text, PlainEntry t n fold text → ∀ row ∈ t.paths,
    t.HasClass row .SECRET → ¬ (segments fold <+: segments row.lowercase_path ∨
      segments row.lowercase_path <+: segments fold)
  one_text : ∀ fold text fold' text' id, PlainEntry t n fold text → PlainEntry t n fold' text' →
    t.stored_id fold = some id → t.stored_id fold' = some id → text = text'

/-- How the store `t'` after a replacement of `root` is related to the store `t` before. -/
structure ReplaceEffect (t t' : Tables) (root : ConfigPath) (n : NormalizedSubtree) : Prop where
  /-- The plain values at or below the root are those of the plain entries. -/
  plain_folds : ∀ fold, (∃ row ∈ t'.paths, row.lowercase_path = fold ∧
    root.segs <+: segments fold ∧ t'.HasClass row .PLAIN) ↔ ∃ text, PlainEntry t n fold text
  /-- Each resolves to a plain content with its text. -/
  plain_texts : ∀ fold text, PlainEntry t n fold text → ∃ row ∈ t'.paths, ∃ c ∈ t'.contents,
    row.lowercase_path = fold ∧ c.id = row.content_id ∧ c.classification = .PLAIN ∧ c.value = text
  /-- Every secret path and its content is as it was. -/
  secrets : ∀ (row : PathRow) (c : ContentRow), c.id = row.content_id →
    c.classification = .SECRET → (row ∈ t'.paths ∧ c ∈ t'.contents ↔ row ∈ t.paths ∧ c ∈ t.contents)
  /-- Every path row outside the subtree is as it was. -/
  outside : ∀ row : PathRow, ¬ root.segs <+: segments row.lowercase_path →
    (row ∈ t'.paths ↔ row ∈ t.paths)
  /-- A content no plain entry resolves to is as it was, wherever it is still stored. -/
  untouched : ∀ c ∈ t.contents, ∀ c' ∈ t'.contents, c'.id = c.id →
    (∀ fold text, PlainEntry t n fold text → t.stored_id fold ≠ some c.id) → c' = c
  /-- The contents that are gone are those left without a path. -/
  pruned : ∀ c ∈ t.contents, (¬ ∃ c' ∈ t'.contents, c'.id = c.id) ↔
    ¬ ∃ row ∈ t'.paths, row.content_id = c.id
  /-- Every content still has a path. -/
  owned : ∀ c ∈ t'.contents, ∃ row ∈ t'.paths, row.content_id = c.id
  /-- A path that was there before and still is has the row it had. -/
  rows : ∀ row ∈ t.paths, ∀ row' ∈ t'.paths, row'.lowercase_path = row.lowercase_path → row' = row

variable {env : Env} {db db' : Db} {root : ConfigPath} {n : NormalizedSubtree}
  {keep : List Text} {writes : ResolvedWrites} {t : Tables}

theorem secretAt_iff {value : SubTreeEntry} (hv : NormalEntry root value) :
    t.SecretAt value.path ↔ value.path ∈ t.secrets_touching root.fold := by
  rw [mem_secrets_touching]
  obtain ⟨_, _, _, hbel⟩ := hv.segments
  constructor
  · rintro ⟨row, hrow, hfol, hsec⟩
    exact ⟨row, hrow, hfol, hsec, Or.inl hbel⟩
  · rintro ⟨row, hrow, hfol, hsec, _⟩
    exact ⟨row, hrow, hfol, hsec⟩

variable {fold path : Text} {context : CallContext}

theorem plainEntry_iff (hn : Normal root n) {text : Text} :
    PlainEntry t n fold text ↔ (fold, text) ∈ plain_writes (t.settled root n) := by
  rw [mem_plain_writes]
  constructor
  · rintro ⟨value, hval, rfl, hpla | ⟨hmar, hnone, rfl⟩⟩
    · exact ⟨_, mem_map_of_mem hval, by rw [if_neg (by simp [hpla])]; exact hpla,
        by rw [if_neg (by simp [hpla])]⟩
    · rw [secretAt_iff (hn.entries value hval)] at hnone
      have hcon : value.content = some .PreserveSecret ∧
          !(t.secrets_touching root.fold).contains value.path := by simp [hmar, hnone]
      exact ⟨_, mem_map_of_mem hval, by rw [if_pos hcon], by rw [if_pos hcon]⟩
  · rintro ⟨value', hval', hcont, rfl⟩
    obtain ⟨value, hval, rfl⟩ := mem_map.mp hval'
    split at hcont
    · rename_i hcon
      rw [if_pos hcon]
      have hnone : ¬ t.SecretAt value.path := by
        rw [secretAt_iff (hn.entries value hval)]
        simpa using hcon.2
      refine ⟨value, hval, rfl, Or.inr ⟨hcon.1, hnone, ?_⟩⟩
      exact (SubTreeEntryContent.PlainValue.inj (Option.some.inj hcont)).symm
    · rename_i hcon
      rw [if_neg hcon]
      exact ⟨value, hval, rfl, Or.inl hcont⟩

theorem stored_id_cleared (hkee : fold ∈ keep) :
    (t.cleared root keep).stored_id fold = t.stored_id fold := by
  have hrows : ∀ row : PathRow, row.lowercase_path = fold →
      (row ∈ (t.cleared root keep).paths ↔ row ∈ t.paths) := by
    rintro row rfl
    rw [mem_cleared_paths]
    exact and_iff_left (fun h => h.2.2 hkee)
  have hpat : (t.cleared root keep).path_row fold = t.path_row fold := by
    cases hrow : t.path_row fold with
    | some row =>
      obtain ⟨hmem, hfol⟩ := path_row_eq_some.mp hrow
      exact path_row_eq_some.mpr ⟨(hrows row hfol).mpr hmem, hfol⟩
    | none =>
      refine row_at_eq_none.mpr (fun row hmem hfol => ?_)
      exact row_at_eq_none.mp hrow row ((hrows row hfol).mp hmem) hfol
  rw [Tables.stored_id, hpat, Tables.stored_id]

theorem consistent_congr {stored stored' : Text → Option ℕ} {plain : List (Text × Text)}
    (h : ∀ write ∈ plain, stored write.1 = stored' write.1) :
    Consistent stored plain ↔ Consistent stored' plain := by
  refine forall₂_congr (fun write hw => forall₂_congr (fun write' hw' => ?_))
  rw [h write hw, h write' hw']

theorem acceptable_iff (hn : Normal root n) :
    Acceptable t n ↔ ∃ keep writes,
      plain_paths (t.settled root n) (t.secrets_touching root.fold) = .ok keep ∧
      resolve_writes (t.cleared root keep).stored_id (plain_writes (t.settled root n)) .empty
        = .ok writes := by
  have hsam : ∀ write ∈ plain_writes (t.settled root n),
      (t.cleared root ((plain_writes (t.settled root n)).map Prod.fst)).stored_id write.1 =
        t.stored_id write.1 := fun write hw => stored_id_cleared (mem_map_of_mem hw)
  constructor
  · intro h
    have hpla : plain_paths (t.settled root n) (t.secrets_touching root.fold) =
        .ok ((plain_writes (t.settled root n)).map Prod.fst) := by
      refine plain_paths_ok_iff.mpr ⟨rfl, fun path hpat secret hsec => ?_⟩
      obtain ⟨⟨_, text⟩, hwri, rfl⟩ := mem_map.mp hpat
      obtain ⟨row, hrow, rfl, hcla, _⟩ := mem_secrets_touching.mp hsec
      obtain ⟨value, hval, _, hvpa⟩ := hn.of_plain t hwri
      have hmee := h.clear_of_secrets _ _ ((plainEntry_iff hn).mpr hwri) row hrow hcla
      rw [← Bool.not_eq_true, ← hvpa, entry_collides_iff hval hrow, hvpa]
      exact hmee
    obtain ⟨writes, hwrit⟩ : ∃ writes, resolve_writes
        (t.cleared root ((plain_writes (t.settled root n)).map Prod.fst)).stored_id
        (plain_writes (t.settled root n)) .empty = .ok writes := by
      refine resolve_writes_of_consistent ((consistent_congr hsam).mpr ?_)
      rintro ⟨fold, text⟩ hw ⟨fold', text'⟩ hw' id hid hid'
      exact h.one_text fold text fold' text' id ((plainEntry_iff hn).mpr hw)
        ((plainEntry_iff hn).mpr hw') hid hid'
    exact ⟨_, writes, hpla, hwrit⟩
  · rintro ⟨keep, writes, hpla, hwrit⟩
    obtain ⟨rfl, hcol⟩ := plain_paths_ok_iff.mp hpla
    refine ⟨fun fold text hent row hrow hcla hmee => ?_, ?_⟩
    · have hwri := (plainEntry_iff hn).mp hent
      obtain ⟨value, hval, _, hvpa⟩ := hn.of_plain t hwri
      obtain rfl : value.path = fold := hvpa
      have htou := secret_touches hval hrow hcla hmee.symm
      have hclas := (entry_collides_iff hval hrow).mpr hmee
      rw [hcol _ (mem_map_of_mem hwri) _ htou] at hclas
      exact absurd hclas (by decide)
    · intro fold text fold' text' id hent hent' hid hid'
      have hcon := (consistent_congr hsam).mp (resolve_writes_ok hwrit).consistent
      exact hcon _ ((plainEntry_iff hn).mp hent) _ ((plainEntry_iff hn).mp hent') id hid hid'

section Effect

variable (h : Replaces env db db' root n keep writes) (hn : Normal root n)
include h hn

variable {row : PathRow} {write : Text × Text} {c : ContentRow}

theorem Replaces.not_secret (hw : write ∈ plain_writes (db.committed.settled root n))
    (hrow : row ∈ db.committed.paths) (hfol : row.lowercase_path = write.1) :
    ¬ db.committed.HasClass row .SECRET := by
  intro hsec
  have hacc : Acceptable db.committed n := (acceptable_iff hn).mpr ⟨_, _, h.plain, h.resolved⟩
  refine hacc.clear_of_secrets _ _ ((plainEntry_iff hn).mpr hw) row hrow hsec (Or.inl ?_)
  rw [hfol]

omit hn in
theorem Replaces.landed {id : ℕ} (hw : write ∈ plain_writes (db.committed.settled root n))
    (hid : (db.committed.cleared root keep).stored_id write.1 = some id) :
    db.committed.stored_id write.1 = some id ∧
      ∃ row ∈ (db.committed.cleared root keep).paths,
        row.lowercase_path = write.1 ∧ row.content_id = id := by
  have hkee : write.1 ∈ keep := by
    rw [(plain_paths_ok_iff.mp h.plain).1]
    exact mem_map_of_mem hw
  refine ⟨by rwa [stored_id_cleared hkee] at hid, ?_⟩
  obtain ⟨row, hrow, hrid⟩ := Option.map_eq_some_iff.mp hid
  obtain ⟨hmem, hfol⟩ := path_row_eq_some.mp hrow
  exact ⟨row, hmem, hfol, hrid⟩

theorem Replaces.keeps_secret (hid : c.id = row.content_id) (hcla : c.classification = .SECRET)
    (hrow : row ∈ db.committed.paths) (hc : c ∈ db.committed.contents) :
    row ∈ db'.committed.paths ∧ c ∈ db'.committed.contents := by
  have hsec : db.committed.HasClass row .SECRET := ⟨c, hc, hid, hcla⟩
  have hkep : row ∈ (db.committed.cleared root keep).paths :=
    mem_cleared_paths.mpr ⟨hrow, fun hcle => hcle.2.1.unique hsec⟩
  have hcke : c ∈ (db.committed.cleared root keep).contents :=
    mem_cleared_contents.mpr ⟨hc, fun _ => ⟨row, hkep, hid.symm⟩⟩
  refine ⟨h.kept_row hkep, h.mem_contents.mpr (Or.inl ⟨c, hcke, ?_⟩)⟩
  rcases h.overwritten c with ⟨write, hw, hsto, _⟩ | ⟨_, hsam⟩
  · obtain ⟨_, other, hoth, hfol, hoid⟩ := h.landed hw hsto
    exact absurd ⟨c, hc, hoid.symm, hcla⟩
      (h.not_secret hn hw (mem_cleared_paths.mp hoth).1 hfol)
  · exact hsam

theorem Replaces.secret_was (hahe : ∀ c ∈ db.committed.contents, c.id < db.next_content_id)
    (hid : c.id = row.content_id) (hcla : c.classification = .SECRET)
    (hrow : row ∈ db'.committed.paths) (hc : c ∈ db'.committed.contents) :
    row ∈ db.committed.paths ∧ c ∈ db.committed.contents := by
  have hold : c ∈ db.committed.contents := by
    rcases h.mem_contents.mp hc with ⟨old, hold, rfl⟩ | ⟨i, write, _, rfl⟩
    · rcases h.overwritten old with ⟨write, _, _, hnew⟩ | ⟨_, hsam⟩
      · rw [hnew] at hcla
        simp at hcla
      · rw [hsam]
        exact (mem_cleared_contents.mp hold).1
    · simp at hcla
  refine ⟨?_, hold⟩
  rcases h.mem_paths hn hrow with hkep | ⟨_, _, _, hnew⟩
  · exact (mem_cleared_paths.mp hkep).1
  · exact absurd (hahe c hold) (by omega)

theorem Replaces.writes_plain (hw : write ∈ plain_writes (db.committed.settled root n)) :
    ∃ row ∈ db'.committed.paths, ∃ c ∈ db'.committed.contents, row.lowercase_path = write.1 ∧
      c.id = row.content_id ∧ c.classification = .PLAIN ∧ c.value = write.2 := by
  have hres := resolve_writes_ok h.resolved
  cases hsto : (db.committed.cleared root keep).stored_id write.1 with
  | some id =>
    obtain ⟨_, row, hrow, hfol, hrid⟩ := h.landed hw hsto
    obtain ⟨c, hc, hcid⟩ := (db.committed.cleared root keep).content_exists row hrow
    refine ⟨row, h.kept_row hrow, _, h.mem_contents.mpr (Or.inl ⟨c, hc, rfl⟩), hfol, ?_⟩
    rcases h.overwritten c with ⟨other, hoth, hoid, hnew⟩ | ⟨hnone, _⟩
    · -- Another write may be the one recorded, but the two agree.
      have hsam := hres.consistent write hw other hoth id hsto (by rw [hoid, hcid, hrid])
      rw [hnew]
      exact ⟨hcid, rfl, hsam.symm⟩
    · exact absurd (by rw [hsto, hcid, hrid]) (hnone write hw)
  | none =>
    have hfre := h.mem_fresh.mpr ⟨hw, hsto⟩
    obtain ⟨i, hi⟩ := mem_iff_getElem?.mp hfre
    exact ⟨_, h.fresh_row hi, _, h.mem_contents.mpr (Or.inr ⟨i, write, hi, rfl⟩),
      (h.fresh_fold hn hfre).1, rfl, rfl, rfl⟩

theorem Replaces.keeps_row {row' : PathRow} (hrow : row ∈ db.committed.paths)
    (hrow' : row' ∈ db'.committed.paths) (heq : row'.lowercase_path = row.lowercase_path) :
    row' = row := by
  rcases h.mem_paths hn hrow' with hkep | ⟨write, hw, hfol, _⟩
  · exact inj_on_of_nodup_map db.committed.unique_path (mem_cleared_paths.mp hkep).1 hrow heq
  · obtain ⟨hpla, huns⟩ := h.mem_fresh.mp hw
    have hkee : write.1 ∈ keep := by
      rw [(plain_paths_ok_iff.mp h.plain).1]
      exact mem_map_of_mem hpla
    have hnone : db.committed.stored_id write.1 = none := by
      rw [← stored_id_cleared hkee]
      exact huns
    rw [Tables.stored_id, Option.map_eq_none_iff] at hnone
    exact absurd (heq.symm.trans hfol) (row_at_eq_none.mp hnone row hrow)

omit hn in
theorem Replaces.owned
    (hown : ∀ c ∈ db.committed.contents, ∃ row ∈ db.committed.paths, row.content_id = c.id)
    (hc : c ∈ db'.committed.contents) : ∃ row ∈ db'.committed.paths, row.content_id = c.id := by
  rcases h.mem_contents.mp hc with ⟨old, hold, rfl⟩ | ⟨i, write, hget, rfl⟩
  · obtain ⟨hmem, himp⟩ := mem_cleared_contents.mp hold
    obtain ⟨row, hrow, hid⟩ := hown old hmem
    rw [ContentRow.overwrite_all_id]
    by_cases hkep : row ∈ (db.committed.cleared root keep).paths
    · exact ⟨row, h.kept_row hkep, hid⟩
    · obtain ⟨other, hoth, hoid⟩ := himp ⟨row, hrow, hid, hkep⟩
      exact ⟨other, h.kept_row hoth, hoid⟩
  · exact ⟨_, h.fresh_row hget, rfl⟩

theorem Replaces.effect (hahe : ∀ c ∈ db.committed.contents, c.id < db.next_content_id)
    (hown : ∀ c ∈ db.committed.contents, ∃ row ∈ db.committed.paths, row.content_id = c.id) :
    ReplaceEffect db.committed db'.committed root n where
  plain_folds := by
    intro fold
    constructor
    · rintro ⟨row, hrow, rfl, hbel, hpla⟩
      rcases h.mem_paths hn hrow with hkep | ⟨write, hw, hfol, _⟩
      · obtain ⟨hold, hcle⟩ := mem_cleared_paths.mp hkep
        rcases hasClass_or hold with hpla' | ⟨c, hc, hid, hsec⟩
        · have hkee : row.lowercase_path ∈ keep := by
            by_contra hnot
            exact hcle ⟨hbel, hpla', hnot⟩
          rw [(plain_paths_ok_iff.mp h.plain).1] at hkee
          obtain ⟨⟨fold, text⟩, hwri, rfl⟩ := mem_map.mp hkee
          exact ⟨text, (plainEntry_iff hn).mpr hwri⟩
        · have haft := h.keeps_secret hn hid hsec hold hc
          exact absurd ⟨c, haft.2, hid, hsec⟩ hpla.unique
      · rw [(resolve_writes_ok h.resolved).fresh, mem_filter] at hw
        exact ⟨write.2, (plainEntry_iff hn).mpr (hfol ▸ hw.1)⟩
    · rintro ⟨text, hent⟩
      have hw := (plainEntry_iff hn).mp hent
      obtain ⟨row, hrow, c, hc, hfol, hid, hcla, _⟩ := h.writes_plain hn hw
      obtain ⟨value, hval, _, hpat⟩ := hn.of_plain db.committed hw
      obtain ⟨_, _, _, hbel⟩ := hval.segments
      exact ⟨row, hrow, hfol, by rw [hpat] at hbel; exact hbel, c, hc, hid, hcla⟩
  plain_texts := by
    intro fold text hent
    exact h.writes_plain hn ((plainEntry_iff hn).mp hent)
  secrets := by
    intro row c hid hcla
    exact ⟨fun haft => h.secret_was hn hahe hid hcla haft.1 haft.2,
      fun hbef => h.keeps_secret hn hid hcla hbef.1 hbef.2⟩
  outside := by
    intro row hout
    constructor
    · intro hrow
      rcases h.mem_paths hn hrow with hkep | ⟨write, hw, hfol, _⟩
      · exact (mem_cleared_paths.mp hkep).1
      · obtain ⟨_, value, hval, _, hpat⟩ := h.fresh_fold hn hw
        obtain ⟨_, _, _, hbel⟩ := hval.segments
        rw [hfol, ← hpat] at hout
        exact absurd hbel hout
    · intro hrow
      rw [h.paths]
      exact mem_append_left _ (mem_cleared_paths.mpr ⟨hrow, fun hcle => hout hcle.1⟩)
  untouched := by
    intro c hc c' hc' hid hnone
    rcases h.mem_contents.mp hc' with ⟨old, hold, rfl⟩ | ⟨i, write, _, rfl⟩
    · rw [ContentRow.overwrite_all_id] at hid
      obtain rfl := inj_on_of_nodup_map db.committed.unique_content
        (mem_cleared_contents.mp hold).1 hc hid
      rcases h.overwritten old with ⟨write, hw, hsto, _⟩ | ⟨_, hsam⟩
      · exact absurd (h.landed hw hsto).1 (hnone _ _ ((plainEntry_iff hn).mpr hw))
      · exact hsam
    · have := hahe c hc
      simp only at hid
      omega
  pruned := by
    intro c hc
    refine not_congr ⟨?_, ?_⟩
    · rintro ⟨c', hc', hid⟩
      obtain ⟨row, hrow, hrid⟩ := h.owned hown hc'
      exact ⟨row, hrow, hrid.trans hid⟩
    · rintro ⟨row, hrow, hrid⟩
      obtain ⟨c', hc', hid⟩ := db'.committed.content_exists row hrow
      exact ⟨c', hc', hid.trans hrid⟩
  owned := fun c hc => h.owned hown hc
  rows := fun row hrow row' hrow' heq => h.keeps_row hn hrow hrow' heq

end Effect

/-- Every content has a path, and an id that will not be given out again. -/
structure WellKept (db : Db) : Prop where
  owned : ∀ c ∈ db.committed.contents, ∃ row ∈ db.committed.paths, row.content_id = c.id
  ahead : ∀ c ∈ db.committed.contents, c.id < db.next_content_id

section Complete

variable {env : Env} {db : Db} {context : CallContext} {path : Text} {values : List SubTreeEntry}
  {root : ConfigPath} (hauth : authorize context path [.Write, .Manage] true = .ok root)
include hauth

end Complete

theorem WellKept.put {written : Option PutContent} {metadata : PutMetadata} (hkep : WellKept db)
    (h : Call.Returns (exec env) (put_value context path written) db metadata db') :
    WellKept db' := by
  obtain ⟨p, _, _, stored, _, _, ⟨existing, _, _, hove, hnex⟩ | ⟨_, hcre, hnex⟩⟩ :=
    put_value_returns h
  · refine ⟨fun c hc => ?_, fun c hc => ?_⟩
    · rw [hove.contents] at hc
      obtain ⟨old, hold, rfl⟩ := mem_map.mp hc
      rw [hove.paths, ContentRow.overwrite_id]
      exact hkep.owned old hold
    · rw [hove.contents] at hc
      obtain ⟨old, hold, rfl⟩ := mem_map.mp hc
      rw [hnex, ContentRow.overwrite_id]
      exact hkep.ahead old hold
  · refine ⟨fun c hc => ?_, fun c hc => ?_⟩
    · rw [hcre.contents, mem_append, mem_singleton] at hc
      rw [hcre.paths]
      rcases hc with hc | rfl
      · obtain ⟨row, hrow, hid⟩ := hkep.owned c hc
        exact ⟨row, mem_append_left _ hrow, hid⟩
      · exact ⟨_, mem_append_right _ (mem_singleton_self _), rfl⟩
    · rw [hcre.contents, mem_append, mem_singleton] at hc
      rw [hnex]
      rcases hc with hc | rfl
      · exact Nat.lt_succ_of_lt (hkep.ahead c hc)
      · exact Nat.lt_succ_self _

theorem WellKept.delete {recurse : Bool} {metadata : DeleteMetadata} (hkep : WellKept db)
    (h : Call.Returns (exec env) (delete_values context path recurse) db metadata db') :
    WellKept db' := by
  obtain ⟨p, -, -, -, -, hpat, hcon, hnex, -⟩ := delete_values_recorded h
  refine ⟨fun c hc => ?_, fun c hc => ?_⟩
  · rw [hcon, Tables.pruned] at hc
    obtain ⟨hold, himp⟩ := mem_contents_prune.mp hc
    rw [hpat]
    obtain ⟨row, hrow, hid⟩ := hkep.owned c hold
    by_cases hsel : Tables.selected p.fold recurse row c = true
    · exact himp (mem_content_ids.mpr ⟨_, mem_deleted_rows.mpr
        ⟨row, hrow, c, hold, hid.symm, hsel, rfl⟩, hid⟩)
    · refine ⟨row, mem_delete_paths_where.mpr ⟨hrow, fun c' hc' hid' => ?_⟩, hid⟩
      obtain rfl := inj_on_of_nodup_map db.committed.unique_content hold hc'
        (by rw [hid', hid])
      simpa using hsel
  · rw [hcon, Tables.pruned] at hc
    rw [hnex]
    exact hkep.ahead c (mem_contents_prune.mp hc).1

theorem WellKept.add_path {paths : AliasPaths} {metadata : AddPathMetadata} (hkep : WellKept db)
    (h : Call.Returns (exec env) (add_value_path context paths) db metadata db') :
    WellKept db' := by
  obtain ⟨_, _, _, _, _, _, _, _, hpat, hcon, hnex⟩ := add_value_path_returns h
  refine ⟨fun c hc => ?_, fun c hc => ?_⟩
  · rw [hcon] at hc
    obtain ⟨row, hrow, hid⟩ := hkep.owned c hc
    exact ⟨row, hpat ▸ mem_append_left _ hrow, hid⟩
  · rw [hcon] at hc
    rw [hnex]
    exact hkep.ahead c hc

theorem WellKept.replace {values : List SubTreeEntry} {metadata : ReplaceMetadata}
    (hkep : WellKept db)
    (h : Call.Returns (exec env) (replace_sub_tree context path values) db metadata db') :
    WellKept db' := by
  obtain ⟨root, n, keep, writes, -, -, -, -, -, hrep, -⟩ := replace_sub_tree_recorded h
  refine ⟨fun c hc => hrep.owned hkep.owned hc, fun c hc => ?_⟩
  rw [hrep.next]
  rcases hrep.mem_contents.mp hc with ⟨old, hold, rfl⟩ | ⟨i, write, hget, rfl⟩
  · rw [ContentRow.overwrite_all_id]
    exact Nat.lt_add_right _ (hkep.ahead old (mem_cleared_contents.mp hold).1)
  · exact Nat.add_lt_add_left (List.getElem?_eq_some_iff.mp hget).1 _

theorem WellKept.step {mutation : Mutation} {result : Except Status Reply} (hkep : WellKept db)
    (h : perform env (mutation.call context) db = (result, db')) : WellKept db' := by
  cases result with
  | error e =>
    have hnex : db.next_content_id ≤ db'.next_content_id := by
      rw [← (Prod.mk.inj h).2]
      exact run_next (mutation.call context) db
    have hsam := failed_mutation_changes_nothing h
    refine ⟨hsam ▸ hkep.owned, fun c hc => ?_⟩
    rw [hsam] at hc
    exact (hkep.ahead c hc).trans_le hnex
  | ok reply =>
    obtain ⟨db₁, hret, rfl⟩ := perform_returns.mp h
    have hdon : WellKept db₁ := by
      cases mutation with
      | put_value path written =>
        obtain ⟨_, hput, _⟩ := Call.returns_map.mp hret
        exact hkep.put hput
      | replace_sub_tree path values =>
        obtain ⟨_, hrep, _⟩ := Call.returns_map.mp hret
        exact hkep.replace hrep
      | delete_values path recurse =>
        obtain ⟨_, hdel, _⟩ := Call.returns_map.mp hret
        exact hkep.delete hdel
      | add_value_path paths =>
        obtain ⟨_, hadd, _⟩ := Call.returns_map.mp hret
        exact hkep.add_path hadd
    exact ⟨hdon.owned, hdon.ahead⟩

/-- **Every store that calls lead to is well kept,** so that a replacement may start from it. -/
theorem Reachable.wellKept {cond : Tables → Mutation → Prop} (h : Reachable cond db) :
    WellKept db := by
  induction h with
  | empty => exact ⟨fun c hc => absurd hc not_mem_nil, fun c hc => absurd hc not_mem_nil⟩
  | step _ _ hper ih => exact ih.step hper

/-- The content of `/a/w` went with its only path; that of `/a/x` lost one of two and stays. -/
theorem mixed_wellKept : WellKept (performed mixed_mutations) ∧
    (performed mixed_mutations).committed.contents.map ContentRow.id = [1, 2, 4] ∧
    (performed mixed_mutations).next_content_id = 5 :=
  ⟨mixed_reachable.wellKept, by decide +kernel, by decide +kernel⟩

end SovereignConfig.Values
