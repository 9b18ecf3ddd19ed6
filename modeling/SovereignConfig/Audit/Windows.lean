/-
What the row of a coalescing window says of its accesses, which may arrive out of the order of
their times.
-/
import SovereignConfig.Audit.Recorder

namespace SovereignConfig.Audit

open Lib Text List

variable {sha256 : List UInt8 → List UInt8} {window : ℕ}

def Occurrence.at_time (self : Occurrence) : OffsetDateTime := stored_time self.time

def Latest (accesses : List Occurrence) (access : Occurrence) : Prop :=
  access ∈ accesses ∧ ∀ other ∈ accesses, other.at_time ≤ access.at_time

/-- **What a coalesced row is meant to say:** how many accesses there were, between which times, and
what the latest of them was. -/
structure Describes (row : StoredEvent) (accesses : List Occurrence) : Prop where
  count : row.event_count = accesses.length
  first : ∀ access ∈ accesses, row.first_occurred_at ≤ access.at_time
  last : ∀ access ∈ accesses, access.at_time ≤ row.occurred_at
  latest : ∃ access, Latest accesses access ∧ row.display_path.as_str = access.event.path ∧
    row.narrative = storable access.event.narrative ∧
    row.actor_name = access.actor.name.map storable

def last_name (accesses : List Occurrence) : Option Text :=
  accesses.foldl (fun name access => access.actor.name <|> name) none

/-- The first access to arrive is the earliest; and a latest access has the path and the narrative
of the last to arrive, and the name of the last to arrive with a name. -/
def Orderly (accesses : List Occurrence) : Prop :=
  (∃ first ∈ accesses.head?, ∀ access ∈ accesses, first.at_time ≤ access.at_time) ∧
    ∃ last ∈ accesses.getLast?, ∃ access, Latest accesses access ∧
      access.event.path = last.event.path ∧
      storable access.event.narrative = storable last.event.narrative ∧
      access.actor.name.map storable = (last_name accesses).map storable

section Fold

variable (row : StoredEvent) (later : List StoredEvent)

theorem fold_first : (later.foldl StoredEvent.bumped row).first_occurred_at =
    row.first_occurred_at := by
  induction later generalizing row with
  | nil => rfl
  | cons entry later ih => exact ih (row.bumped entry)

theorem fold_last : row.occurred_at ≤ (later.foldl StoredEvent.bumped row).occurred_at ∧
    ∀ entry ∈ later, entry.occurred_at ≤ (later.foldl StoredEvent.bumped row).occurred_at := by
  induction later generalizing row with
  | nil => simp
  | cons entry later ih =>
    obtain ⟨hrow, hlat⟩ := ih (row.bumped entry)
    have hmax : (row.bumped entry).occurred_at = max row.occurred_at entry.occurred_at := rfl
    rw [hmax] at hrow
    refine ⟨le_trans (le_max_left _ _) hrow, fun e he => ?_⟩
    rcases mem_cons.mp he with rfl | he
    · exact le_trans (le_max_right _ _) hrow
    · exact hlat e he

theorem fold_overwritten : ∃ last ∈ (row :: later).getLast?,
    (later.foldl StoredEvent.bumped row).display_path = last.display_path ∧
      (later.foldl StoredEvent.bumped row).narrative = last.narrative := by
  induction later generalizing row with
  | nil => exact ⟨row, rfl, rfl, rfl⟩
  | cons entry later ih =>
    obtain ⟨last, hlas, hpat, hnar⟩ := ih (row.bumped entry)
    cases later with
    | nil =>
      obtain rfl : row.bumped entry = last := by simpa using hlas
      exact ⟨entry, rfl, hpat, hnar⟩
    | cons next later => exact ⟨last, hlas, hpat, hnar⟩

theorem fold_name : (later.foldl StoredEvent.bumped row).actor_name =
    later.foldl (fun name entry => entry.actor_name <|> name) row.actor_name := by
  induction later generalizing row with
  | nil => rfl
  | cons entry later ih => exact ih (row.bumped entry)

end Fold

theorem last_name_stored (later : List Landed) (name : Option Text)
    (hask : ∀ landed ∈ later,
      excluded_row sha256 window landed.occurrence = some landed.excluded) :
    (later.map Landed.excluded).foldl (fun name entry => entry.actor_name <|> name)
        (name.map storable) =
      ((later.map Landed.occurrence).foldl (fun name access => access.actor.name <|> name)
        name).map storable := by
  induction later generalizing name with
  | nil => rfl
  | cons landed later ih =>
    obtain ⟨-, -, -, -, -, -, hnam, -⟩ := excluded_row_eq (hask landed mem_cons_self)
    have hste : (landed.excluded.actor_name <|> name.map storable) =
        (landed.occurrence.actor.name <|> name).map storable := by
      rw [hnam]
      cases landed.occurrence.actor.name <;> rfl
    rw [map_cons, foldl_cons, hste, ih _ fun l hl => hask l (mem_cons_of_mem _ hl)]
    rfl

structure Folded (row : StoredEvent) (accesses : List Occurrence) : Prop where
  count : row.event_count = accesses.length
  first : ∃ first ∈ accesses.head?, row.first_occurred_at = first.at_time
  last : ∀ access ∈ accesses, access.at_time ≤ row.occurred_at
  overwritten : ∃ last ∈ accesses.getLast?, row.display_path.as_str = last.event.path ∧
    row.narrative = storable last.event.narrative
  name : row.actor_name = (last_name accesses).map storable

variable {row : StoredEvent}

theorem folded_of_window {landed : List Landed}
    (hask : ∀ l ∈ landed, excluded_row sha256 window l.occurrence = some l.excluded)
    (hrow : Upsert.window StoredEvent.bumped (landed.map Landed.excluded) = [row]) :
    Folded row (landed.map Landed.occurrence) := by
  have hcou : row.event_count = landed.length := by
    rw [window_count ?_ hrow, length_map]
    intro entry hent
    obtain ⟨l, hl, rfl⟩ := mem_map.mp hent
    obtain ⟨-, -, -, -, hone, -⟩ := excluded_row_eq (hask l hl)
    exact hone
  cases landed with
  | nil => exact absurd hrow (by simp [Upsert.window])
  | cons first later =>
    obtain rfl : (later.map Landed.excluded).foldl StoredEvent.bumped first.excluded = row := by
      simpa [Upsert.window] using hrow
    obtain ⟨-, -, hat, hfir, -, -, hnam, -⟩ := excluded_row_eq (hask first mem_cons_self)
    refine ⟨by rw [hcou, length_map], ?_, ?_, ?_, ?_⟩
    · exact ⟨first.occurrence, rfl, (fold_first _ _).trans hfir⟩
    · obtain ⟨hle, hlat⟩ := fold_last first.excluded (later.map Landed.excluded)
      intro access hacc
      obtain ⟨l, hl, rfl⟩ := mem_map.mp hacc
      rcases mem_cons.mp hl with rfl | hmem
      · exact le_of_eq_of_le hat.symm hle
      · obtain ⟨-, -, hat', -⟩ := excluded_row_eq (hask l hl)
        exact le_of_eq_of_le hat'.symm (hlat _ (mem_map_of_mem hmem))
    · obtain ⟨last, hlas, hpat, hnar⟩ :=
        fold_overwritten first.excluded (later.map Landed.excluded)
      rw [← map_cons, getLast?_map, Option.mem_def, Option.map_eq_some_iff] at hlas
      obtain ⟨l, hl, rfl⟩ := hlas
      obtain ⟨-, hpat', -, -, -, -, -, -, hnar', -⟩ :=
        excluded_row_eq (hask l (mem_of_getLast? hl))
      refine ⟨l.occurrence, ?_, by rw [hpat, hpat'], by rw [hnar, hnar']⟩
      rw [getLast?_map, hl]
      rfl
    · rw [fold_name, hnam, last_name_stored later _ fun l hl => hask l (mem_cons_of_mem _ hl),
        map_cons, last_name, foldl_cons]
      cases first.occurrence.actor.name <;> rfl

theorem Folded.describes_iff {accesses : List Occurrence} (h : Folded row accesses) :
    Describes row accesses ↔ Orderly accesses := by
  obtain ⟨first, hfir, hfirs⟩ := h.first
  obtain ⟨last, hlas, hpat, hnar⟩ := h.overwritten
  constructor
  · intro hdes
    obtain ⟨access, hlat, hpat', hnar', hnam⟩ := hdes.latest
    refine ⟨⟨first, hfir, fun a ha => hfirs ▸ hdes.first a ha⟩,
      last, hlas, access, hlat, hpat'.symm.trans hpat, hnar'.symm.trans hnar,
      hnam.symm.trans h.name⟩
  · rintro ⟨⟨first', hfir', hear⟩, last', hlas', access, hlat, hpat', hnar', hnam⟩
    obtain rfl := Option.some.inj (hfir.symm.trans hfir')
    obtain rfl := Option.some.inj (hlas.symm.trans hlas')
    exact ⟨h.count, fun a ha => hfirs ▸ hear a ha, h.last, access, hlat,
      hpat.trans hpat'.symm, hnar.trans hnar'.symm, h.name.trans hnam.symm⟩

def accesses_of (sha256 : List UInt8 → List UInt8) (window : ℕ) (recordings : List Recording)
    (digest : Text) : List Occurrence :=
  (recordings.flatMap Recording.occurrences).filter fun occurrence =>
    digest_of sha256 window occurrence = some digest

/-- **The accesses of one key are one row, which describes them exactly when they are orderly.** -/
theorem coalesced_row_describes_iff (sha256 : List UInt8 → List UInt8) (window : ℕ)
    (recordings : List Recording) (record : Record) (digest : Text)
    (hrecord : record_all sha256 window recordings = some record)
    (haccesses : accesses_of sha256 window recordings digest ≠ []) :
    ∃ row, record.trail.rows.filter (fun row => row.coalesce_digest = some digest) = [row] ∧
      (Describes row (accesses_of sha256 window recordings digest) ↔
        Orderly (accesses_of sha256 window recordings digest)) := by
  obtain ⟨hsou, hhis⟩ := record_all_sound hrecord
  have hdig : ∀ l ∈ record.history,
      l.excluded.coalesce_digest = digest_of sha256 window l.occurrence := by
    intro l hl
    obtain ⟨-, -, -, -, -, -, -, -, -, h⟩ := excluded_row_eq (hsou.asked l hl).1
    exact h
  have hlan : accesses_of sha256 window recordings digest = (record.history.filter fun l =>
      l.excluded.coalesce_digest = some digest).map Landed.occurrence := by
    rw [accesses_of, ← hhis, filter_map]
    congr 1
    exact filter_congr fun l hl => by simp [hdig l hl]
  rw [hlan] at haccesses ⊢
  have hsom : ∃ entry ∈ entries record.history, entry.1.coalesce_digest = some digest := by
    obtain ⟨l, hl⟩ := exists_mem_of_ne_nil _ (mt map_eq_nil_iff.mpr haccesses)
    obtain ⟨hmem, hkey⟩ := mem_filter.mp hl
    exact ⟨_, mem_map_of_mem hmem, of_decide_eq_true hkey⟩
  obtain ⟨row, hrow, hkey, hfil⟩ := hsou.tracked.one_row hsom
  have hask : ∀ l ∈ record.history.filter fun l => l.excluded.coalesce_digest = some digest,
      excluded_row sha256 window l.occurrence = some l.excluded :=
    fun l hl => (hsou.asked l (mem_filter.mp hl).1).1
  have hbui := hsou.tracked.built row hrow
  rw [hsou.tracked.filter_eq record.trail.unique_id hrow (by rw [hkey]; rfl), hkey, entries,
    filter_map, map_map] at hbui
  exact ⟨row, hfil, (folded_of_window hask hbui).describes_iff⟩

def prompt_recordings : List Recording :=
  [⟨sample_actor, 1 * 1000000000, [(1, .secret_revealed sample_actor "/A".toList)]⟩,
    ⟨sample_actor, 2 * 1000000000, [(2, .secret_revealed sample_actor "/a".toList)]⟩]

def prompt_digest : Text := coalesce_digest sample_sha256 (86400 * 1000000000)
  ⟨1, sample_actor, 1 * 1000000000, .secret_revealed sample_actor "/A".toList⟩

theorem prompt_accesses :
    accesses_of sample_sha256 (86400 * 1000000000) prompt_recordings prompt_digest =
    [⟨1, sample_actor, 1 * 1000000000, .secret_revealed sample_actor "/A".toList⟩,
      ⟨2, sample_actor, 2 * 1000000000, .secret_revealed sample_actor "/a".toList⟩] := by
  decide +kernel

/-- Accesses that arrive in order are described. -/
theorem prompt_arrivals_described : ∃ record row,
    record_all sample_sha256 (86400 * 1000000000) prompt_recordings = some record ∧
    record.trail.rows.filter (fun row => row.coalesce_digest = some prompt_digest) = [row] ∧
    Describes row
      (accesses_of sample_sha256 (86400 * 1000000000) prompt_recordings prompt_digest) := by
  have hsom : (record_all sample_sha256 (86400 * 1000000000) prompt_recordings).isSome = true := by
    decide +kernel
  obtain ⟨record, hrec⟩ := Option.isSome_iff_exists.mp hsom
  obtain ⟨row, hrow, hdes⟩ := coalesced_row_describes_iff sample_sha256 (86400 * 1000000000)
    prompt_recordings record prompt_digest hrec (by rw [prompt_accesses]; simp)
  refine ⟨record, row, hrec, hrow, hdes.mpr ?_⟩
  rw [prompt_accesses]
  refine ⟨⟨_, rfl, ?_⟩, _, rfl, _, ⟨mem_cons_of_mem _ mem_cons_self, ?_⟩, rfl, rfl, rfl⟩
  · decide
  · decide

def named_actor : Actor := ⟨"s".toList, some "n".toList, "v5".toList⟩

def late_recordings : List Recording :=
  [⟨named_actor, 2 * 1000000000, [(1, .secret_revealed named_actor "/A".toList)]⟩,
    ⟨named_actor, 1 * 1000000000, [(2, .secret_revealed named_actor "/a".toList)]⟩]

def late_digest : Text := coalesce_digest sample_sha256 (86400 * 1000000000)
  ⟨1, named_actor, 2 * 1000000000, .secret_revealed named_actor "/A".toList⟩

def late_row : StoredEvent where
  id := 1
  kind := .SecretRevealed
  display_path := ⟨"/a".toList, by decide⟩
  counterpart_display_path := none
  occurred_at := 2 * 1000000000
  first_occurred_at := 2 * 1000000000
  event_count := 2
  actor_subject := "s".toList
  actor_name := some "n".toList
  protocol_version := "v5".toList
  old_value := none
  new_value := none
  narrative := "n revealed secret /a".toList
  coalesce_digest := some late_digest
  recorded_actor_name := none
  recorded_narrative := none

/-- The row starts after its earliest access and tells the path of the earlier one. -/
theorem late_arrival_misdescribed :
    (record_all sample_sha256 (86400 * 1000000000) late_recordings).map
      (fun record => record.trail.rows) = some [late_row] ∧
    (accesses_of sample_sha256 (86400 * 1000000000) late_recordings late_digest).map
      (fun access => (access.at_time, access.event.path)) =
      [(2 * 1000000000, "/A".toList), (1 * 1000000000, "/a".toList)] ∧
    ¬ Describes late_row
      (accesses_of sample_sha256 (86400 * 1000000000) late_recordings late_digest) := by
  refine ⟨by decide +kernel, by decide +kernel, fun h => ?_⟩
  have hmem : ⟨2, named_actor, 1 * 1000000000, .secret_revealed named_actor "/a".toList⟩ ∈
      accesses_of sample_sha256 (86400 * 1000000000) late_recordings late_digest := by
    decide +kernel
  exact absurd (h.first _ hmem) (by decide)

end SovereignConfig.Audit
