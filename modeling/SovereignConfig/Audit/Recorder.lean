/-
`AuditRecorder` of `audit/mod.rs`: from events to rows, upserted by coalescing window. Only the
subject, which comes last, may contain the `|` that a window's parts are joined by.
-/
import SovereignConfig.Audit.Store
import SovereignConfig.Lib.Checks
import SovereignConfig.Lib.Decimal
import SovereignConfig.Lib.Upsert

namespace SovereignConfig

open List Function

def EventKind.as_str : EventKind → Text
  | .ValueCreated => "value.created".toList
  | .ValueUpdated => "value.updated".toList
  | .ValueDeleted => "value.deleted".toList
  | .ValuePathAdded => "value.path_added".toList
  | .SubtreeReplaced => "subtree.replaced".toList
  | .SubtreeDeleted => "subtree.deleted".toList
  | .SecretRevealed => "secret.revealed".toList
  | .SubtreeRead => "subtree.read".toList
  | .ValuesListed => "values.listed".toList
  | .ConnectionCreated => "connection.created".toList
  | .ConnectionRotated => "connection.rotated".toList
  | .ConnectionRevoked => "connection.revoked".toList

namespace Audit

open Lib Text

/-! ## The window of an access -/

/-- `OffsetDateTime::unix_timestamp`: whole seconds, rounded down. -/
def unix_timestamp (time : OffsetDateTime) : ℤ := time / 1000000000

/-- The window's whole seconds, of a `Duration` in nanoseconds; at least one. -/
def window_seconds (window : ℕ) : ℤ := max (min (window / 1000000000 : ℕ) (2 ^ 63 - 1)) 1

/-- `div_euclid`, so that a bucket before 1970 is as long as one after. -/
def bucket (window : ℕ) (time : OffsetDateTime) : ℤ := unix_timestamp time / window_seconds window

structure Occurrence where
  id : ℤ
  actor : Actor
  time : OffsetDateTime
  event : AuditEvent
deriving DecidableEq

namespace Occurrence

def key_text (self : Occurrence) (window : ℕ) : Text :=
  self.event.kind.as_str ++ '|' :: (self.actor.protocol_version ++ '|' ::
    (format_int (bucket window self.time) ++ '|' ::
      (to_ascii_lowercase self.event.path ++ '|' :: self.actor.subject)))

end Occurrence

def hex_digit (n : ℕ) : Char := "0123456789abcdef".toList.getD n '0'

def hex (bytes : List UInt8) : Text :=
  bytes.flatMap fun b => [hex_digit (b.toNat / 16), hex_digit (b.toNat % 16)]

variable (sha256 : List UInt8 → List UInt8) (window : ℕ)

def coalesce_digest (occurrence : Occurrence) : Text :=
  hex (sha256 (as_bytes (occurrence.key_text window)))

def digest_of (occurrence : Occurrence) : Option Text :=
  if occurrence.event.kind.coalesces then some (coalesce_digest sha256 window occurrence) else none

/-! ## Recording -/

def version_label (label : Text) : Bool :=
  decide (1 ≤ label.length ∧ label.length ≤ 32) && label.all fun c => c.isLower || c.isDigit

def admitted (row : StoredEvent) : Bool :=
  !row.actor_subject.isEmpty && !row.narrative.isEmpty && row.actor_name != some []
    && version_label row.protocol_version
    && ([EventKind.ValueCreated, .ValueUpdated, .ValueDeleted].contains row.kind
      || (row.old_value.isNone && row.new_value.isNone))
    && (row.counterpart_display_path.isNone || row.kind == .ValuePathAdded)

/-- An occurrence and the row that it was counted in. -/
structure Landed where
  occurrence : Occurrence
  excluded : StoredEvent
  row : ℤ

structure Record where
  trail : Trail
  history : List Landed

def Record.empty : Record := ⟨Trail.empty, []⟩

def excluded_row (occurrence : Occurrence) : Option StoredEvent :=
  new_row occurrence.id occurrence.actor occurrence.time occurrence.event
    (digest_of sha256 window occurrence)

def Record.insert (self : Record) (occurrence : Occurrence) : Option Record := do
  let excluded ← excluded_row sha256 window occurrence
  let trail ← self.trail.insert_event occurrence.id occurrence.actor occurrence.time
    occurrence.event (digest_of sha256 window occurrence)
  if admitted excluded then
    some ⟨trail, self.history ++ [⟨occurrence, excluded,
      Upsert.landing StoredEvent.coalesce_digest StoredEvent.id self.trail.rows excluded⟩]⟩
  else none

structure Recording where
  actor : Actor
  time : OffsetDateTime
  events : List (ℤ × AuditEvent)

def Recording.occurrences (self : Recording) : List Occurrence :=
  self.events.map fun (id, event) => ⟨id, self.actor, self.time, event⟩

/-- `insert_events`: one statement, which cannot bump a row twice. -/
def Record.insert_events (self : Record) (recording : Recording) : Option Record :=
  if (recording.occurrences.filterMap (digest_of sha256 window)).Nodup then
    recording.occurrences.foldlM (Record.insert sha256 window) self
  else none

def record_all (recordings : List Recording) : Option Record :=
  recordings.foldlM (Record.insert_events sha256 window) Record.empty

/-! ## A digest says which window it is of -/

def event_kinds : List EventKind :=
  [.ValueCreated, .ValueUpdated, .ValueDeleted, .ValuePathAdded, .SubtreeReplaced, .SubtreeDeleted,
    .SecretRevealed, .SubtreeRead, .ValuesListed, .ConnectionCreated, .ConnectionRotated,
    .ConnectionRevoked]

theorem mem_event_kinds (kind : EventKind) : kind ∈ event_kinds := by
  cases kind <;> decide

theorem as_str_injective {kind kind' : EventKind} (h : kind.as_str = kind'.as_str) :
    kind = kind' := by
  have hnod : (event_kinds.map EventKind.as_str).Nodup := by decide +kernel
  exact inj_on_of_nodup_map hnod (mem_event_kinds kind) (mem_event_kinds kind') h

theorem as_str_plain (kind : EventKind) : '|' ∉ kind.as_str := by
  have hall : (event_kinds.all fun kind => !kind.as_str.contains '|') = true := by decide +kernel
  simpa using all_eq_true.mp hall kind (mem_event_kinds kind)

theorem hex_digit_injective : ∀ m < 16, ∀ n < 16, hex_digit m = hex_digit n → m = n := by
  decide +kernel

theorem hex_injective {bytes bytes' : List UInt8} (h : hex bytes = hex bytes') :
    bytes = bytes' := by
  induction bytes generalizing bytes' with
  | nil =>
    cases bytes' with
    | nil => rfl
    | cons b' bytes' => exact absurd h (by simp [hex])
  | cons b bytes ih =>
    cases bytes' with
    | nil => exact absurd h (by simp [hex])
    | cons b' bytes' =>
      simp only [hex, flatMap_cons, cons_append, nil_append, List.cons.injEq] at h
      obtain ⟨hhig, hlow, hres⟩ := h
      have hb := b.toNat_lt
      have hb' := b'.toNat_lt
      have hdiv := hex_digit_injective _ (by omega) _ (by omega) hhig
      have hmod := hex_digit_injective _ (by omega) _ (by omega) hlow
      have heq : b = b' := UInt8.toNat_inj.mp (by omega)
      rw [heq, ih hres]

/-- The two occurrences are counted in one row. -/
def SameWindow (a b : Occurrence) : Prop :=
  a.event.kind.coalesces = true ∧ b.event.kind.coalesces = true ∧ a.event.kind = b.event.kind ∧
    a.actor.protocol_version = b.actor.protocol_version ∧
    to_ascii_lowercase a.event.path = to_ascii_lowercase b.event.path ∧
    a.actor.subject = b.actor.subject ∧ bucket window a.time = bucket window b.time

instance (a b : Occurrence) : Decidable (SameWindow window a b) :=
  inferInstanceAs (Decidable (_ ∧ _))

def Occurrence.Plain (self : Occurrence) : Prop :=
  '|' ∉ self.actor.protocol_version ∧ '|' ∉ to_ascii_lowercase self.event.path

variable {window}

theorem format_int_plain (n : ℤ) : '|' ∉ format_int n := by
  intro hmem
  rcases mem_format_int hmem with h | h
  · exact absurd h (by decide)
  · exact absurd h (by decide)

variable {a b occurrence : Occurrence} {history : List Landed} {excluded row : StoredEvent}
  {record record' : Record}

theorem key_text_injective (ha : a.Plain) (hb : b.Plain)
    (h : a.key_text window = b.key_text window) :
    a.event.kind = b.event.kind ∧ a.actor.protocol_version = b.actor.protocol_version ∧
      bucket window a.time = bucket window b.time ∧
      to_ascii_lowercase a.event.path = to_ascii_lowercase b.event.path ∧
      a.actor.subject = b.actor.subject := by
  obtain ⟨hkin, h⟩ := split_unique (as_str_plain _) (as_str_plain _) h
  obtain ⟨hver, h⟩ := split_unique ha.1 hb.1 h
  obtain ⟨hbuc, h⟩ := split_unique (format_int_plain _) (format_int_plain _) h
  obtain ⟨hpat, hsub⟩ := split_unique ha.2 hb.2 h
  have hsam := congrArg parse_int hbuc
  rw [parse_format_int, parse_format_int, Option.some.injEq] at hsam
  exact ⟨as_str_injective hkin, hver, hsam, hpat, hsub⟩

variable {sha256}

/-- SHA-256 does not collide on the keys of the history. -/
def CollisionFree (sha256 : List UInt8 → List UInt8) (window : ℕ) (history : List Landed) : Prop :=
  ∀ a ∈ history, ∀ b ∈ history,
    sha256 (as_bytes (a.occurrence.key_text window)) =
      sha256 (as_bytes (b.occurrence.key_text window)) →
    as_bytes (a.occurrence.key_text window) = as_bytes (b.occurrence.key_text window)

theorem digest_of_isSome :
    (digest_of sha256 window occurrence).isSome = occurrence.event.kind.coalesces := by
  unfold digest_of
  split
  · rename_i h
    rw [h]
    rfl
  · rename_i h
    rw [Bool.eq_false_iff.mpr h]
    rfl

theorem digest_eq_iff (hfre : CollisionFree sha256 window history) {a b : Landed}
    (ha : a ∈ history) (hb : b ∈ history) (hpla : a.occurrence.Plain)
    (hpla' : b.occurrence.Plain) :
    ((digest_of sha256 window a.occurrence).isSome = true ∧
      digest_of sha256 window a.occurrence = digest_of sha256 window b.occurrence) ↔
      SameWindow window a.occurrence b.occurrence := by
  constructor
  · rintro ⟨hsom, heq⟩
    have hsom' := heq ▸ hsom
    rw [digest_of_isSome] at hsom hsom'
    rw [digest_of, if_pos hsom, digest_of, if_pos hsom', Option.some.injEq] at heq
    have htex := as_bytes_injective (hfre a ha b hb (hex_injective heq))
    obtain ⟨hkin, hver, hbuc, hpat, hsub⟩ := key_text_injective hpla hpla' htex
    exact ⟨hsom, hsom', hkin, hver, hpat, hsub, hbuc⟩
  · rintro ⟨hsom, hsom', hkin, hver, hpat, hsub, hbuc⟩
    refine ⟨digest_of_isSome.trans hsom, ?_⟩
    rw [digest_of, if_pos hsom, digest_of, if_pos hsom']
    unfold coalesce_digest Occurrence.key_text
    rw [hkin, hver, hpat, hsub, hbuc]

/-! ## The trail is its windows -/

theorem bumped_keeps (row entry : StoredEvent) :
    (row.bumped entry).coalesce_digest = row.coalesce_digest ∧ (row.bumped entry).id = row.id :=
  ⟨rfl, rfl⟩

theorem conflicts_eq (row excluded : StoredEvent) :
    conflicts row excluded = Upsert.meets StoredEvent.coalesce_digest row excluded := by
  rw [Bool.eq_iff_iff]
  simp [conflicts, Upsert.meets]

theorem insert_row_eq (rows : List StoredEvent) (excluded : StoredEvent) :
    insert_row rows excluded =
      Upsert.upsert StoredEvent.coalesce_digest StoredEvent.bumped rows excluded := by
  simp only [insert_row, Upsert.upsert, conflicts_eq]

def entries (history : List Landed) : List (StoredEvent × ℤ) :=
  history.map fun landed => (landed.excluded, landed.row)

theorem excluded_row_eq (h : excluded_row sha256 window occurrence = some excluded) :
    excluded.id = occurrence.id ∧ excluded.display_path.as_str = occurrence.event.path ∧
      excluded.occurred_at = stored_time occurrence.time ∧
      excluded.first_occurred_at = stored_time occurrence.time ∧ excluded.event_count = 1 ∧
      excluded.actor_subject = storable occurrence.actor.subject ∧
      excluded.actor_name = occurrence.actor.name.map storable ∧
      excluded.protocol_version = occurrence.actor.protocol_version ∧
      excluded.narrative = storable occurrence.event.narrative ∧
      excluded.coalesce_digest = digest_of sha256 window occurrence := by
  unfold excluded_row new_row at h
  split at h
  · rename_i path counterpart hpat hcou
    obtain rfl := Option.some.inj h
    refine ⟨rfl, ?_, rfl, rfl, rfl, rfl, rfl, rfl, rfl, rfl⟩
    exact parse_selection_path hpat
  · simp at h

variable (sha256 window) in
structure Record.Sound (record : Record) : Prop where
  tracked : Upsert.Tracked StoredEvent.coalesce_digest StoredEvent.bumped StoredEvent.id
    record.trail.rows (entries record.history)
  asked : ∀ landed ∈ record.history,
    excluded_row sha256 window landed.occurrence = some landed.excluded ∧
      admitted landed.excluded = true

theorem Record.insert_eq_some (h : record.insert sha256 window occurrence = some record') :
    ∃ excluded, excluded_row sha256 window occurrence = some excluded ∧
      admitted excluded = true ∧
      record'.trail.rows = insert_row record.trail.rows excluded ∧
      record'.history = record.history ++ [⟨occurrence, excluded,
        Upsert.landing StoredEvent.coalesce_digest StoredEvent.id record.trail.rows excluded⟩] := by
  simp only [Record.insert, Option.bind_eq_bind, Option.bind_eq_some_iff] at h
  obtain ⟨excluded, hexc, trail, htra, h⟩ := h
  split at h
  · rename_i hadm
    obtain rfl := Option.some.inj h
    refine ⟨excluded, hexc, hadm, ?_, rfl⟩
    simp only [Trail.insert_event, Option.bind_eq_bind, Option.bind_eq_some_iff] at htra
    obtain ⟨excluded', hexc', htra⟩ := htra
    obtain rfl : excluded' = excluded := Option.some.inj (hexc'.symm.trans hexc)
    split at htra
    · exact congrArg Trail.rows (Option.some.inj htra).symm
    · simp at htra
  · simp at h

theorem Record.Sound.insert (hsou : record.Sound sha256 window)
    (h : record.insert sha256 window occurrence = some record') : record'.Sound sha256 window := by
  obtain ⟨excluded, hexc, hadm, hrow, hhis⟩ := Record.insert_eq_some h
  constructor
  · have hnod := record'.trail.unique_id
    rw [hrow, insert_row_eq] at hnod
    rw [hrow, hhis, insert_row_eq, entries, map_append]
    exact hsou.tracked.upsert (fun row entry => (bumped_keeps row entry).1)
      (fun row entry => (bumped_keeps row entry).2) excluded hnod
  · intro landed hlan
    rw [hhis] at hlan
    rcases mem_append.mp hlan with hold | hnew
    · exact hsou.asked landed hold
    · rw [mem_singleton.mp hnew]
      exact ⟨hexc, hadm⟩

theorem Record.Sound.insert_events {recording : Recording} (hsou : record.Sound sha256 window)
    (h : record.insert_events sha256 window recording = some record') :
    record'.Sound sha256 window ∧ record'.history.map Landed.occurrence =
      record.history.map Landed.occurrence ++ recording.occurrences := by
  unfold Record.insert_events at h
  split at h
  · refine foldlM_some_induction (I := fun done (r : Record) => r.Sound sha256 window ∧
      r.history.map Landed.occurrence = record.history.map Landed.occurrence ++ done) ?_
      ⟨hsou, (append_nil _).symm⟩ h
    rintro done r occurrence r' ⟨hr, hdon⟩ hins
    obtain ⟨excluded, -, -, -, hhis⟩ := Record.insert_eq_some hins
    refine ⟨hr.insert hins, ?_⟩
    rw [hhis, map_append, hdon, append_assoc]
    rfl
  · simp at h

theorem record_all_sound {recordings : List Recording}
    (h : record_all sha256 window recordings = some record) : record.Sound sha256 window ∧
      record.history.map Landed.occurrence = recordings.flatMap Recording.occurrences := by
  have hsta : Record.empty.Sound sha256 window ∧ Record.empty.history.map Landed.occurrence =
      ([] : List Recording).flatMap Recording.occurrences :=
    ⟨⟨Upsert.Tracked.empty, by simp [Record.empty]⟩, rfl⟩
  refine foldlM_some_induction (I := fun done (r : Record) => r.Sound sha256 window ∧
    r.history.map Landed.occurrence = done.flatMap Recording.occurrences) ?_ hsta h
  rintro done r recording r' ⟨hr, hdon⟩ hins
  obtain ⟨hr', hhis⟩ := hr.insert_events hins
  exact ⟨hr', by rw [hhis, hdon, flatMap_append, flatMap_singleton]⟩

theorem plain_of_admitted (hexc : excluded_row sha256 window occurrence = some excluded)
    (hadm : admitted excluded = true) : occurrence.Plain := by
  obtain ⟨-, hpat, -, -, -, -, -, hver, -, -⟩ := excluded_row_eq hexc
  simp only [admitted, version_label, Bool.and_eq_true, all_eq_true] at hadm
  constructor
  · intro hmem
    have hcha := hadm.1.1.2.2 '|' (hver ▸ hmem)
    exact absurd hcha (by decide)
  · intro hmem
    rw [← hpat] at hmem
    rcases excluded.display_path.fold_chars hmem with hsla | hcha
    · exact absurd hsla (by decide)
    · exact absurd hcha (by decide)

theorem Record.Sound.plain (h : record.Sound sha256 window) {landed : Landed}
    (hlan : landed ∈ record.history) : landed.occurrence.Plain :=
  plain_of_admitted (h.asked landed hlan).1 (h.asked landed hlan).2

theorem window_count {rows : List StoredEvent} (hone : ∀ entry ∈ rows, entry.event_count = 1)
    (h : Upsert.window StoredEvent.bumped rows = [row]) : row.event_count = rows.length := by
  cases rows with
  | nil => exact absurd h (by simp [Upsert.window])
  | cons first later =>
    obtain rfl : later.foldl StoredEvent.bumped first = row := by simpa [Upsert.window] using h
    have hfol : ∀ (later : List StoredEvent) (row : StoredEvent),
        (later.foldl StoredEvent.bumped row).event_count = row.event_count + later.length := by
      intro later
      induction later with
      | nil => simp
      | cons entry later ih =>
        intro row
        rw [foldl_cons, ih, length_cons]
        show row.event_count + 1 + _ = _
        push_cast
        ring
    rw [hfol, hone first mem_cons_self, length_cons]
    push_cast
    ring

theorem Record.Sound.count (h : record.Sound sha256 window) (hrow : row ∈ record.trail.rows) :
    row.event_count = record.history.countP fun landed => landed.row = row.id := by
  have hbui := h.tracked.built row hrow
  have hone : ∀ entry ∈ ((entries record.history).filter fun entry => entry.2 = row.id).map
      Prod.fst, entry.event_count = 1 := by
    intro entry hent
    obtain ⟨pair, hpai, rfl⟩ := mem_map.mp hent
    obtain ⟨landed, hlan, rfl⟩ := mem_map.mp (mem_filter.mp hpai).1
    obtain ⟨-, -, -, -, hcou, -⟩ := excluded_row_eq (h.asked landed hlan).1
    exact hcou
  rw [window_count hone hbui, length_map, ← countP_eq_length_filter, entries,
    countP_map]
  rfl

theorem Record.Sound.apart (h : record.Sound sha256 window)
    (hfre : CollisionFree sha256 window record.history) :
    record.history.Pairwise fun a b =>
      a.row = b.row ↔ SameWindow window a.occurrence b.occurrence := by
  have happ := h.tracked.apart
  rw [entries, pairwise_map] at happ
  refine happ.imp_of_mem fun {a b} ha hb hab => ?_
  obtain ⟨-, -, -, -, -, -, -, -, -, hdig⟩ := excluded_row_eq (h.asked a ha).1
  obtain ⟨-, -, -, -, -, -, -, -, -, hdig'⟩ := excluded_row_eq (h.asked b hb).1
  rw [hab, hdig, hdig']
  exact digest_eq_iff hfre ha hb (h.plain ha) (h.plain hb)

theorem SameWindow.symm (h : SameWindow window a b) : SameWindow window b a := by
  obtain ⟨ha, hb, hkin, hver, hpat, hsub, hbuc⟩ := h
  exact ⟨hb, ha, hkin.symm, hver.symm, hpat.symm, hsub.symm, hbuc.symm⟩

theorem count_landed
    (h : history.Pairwise fun a b => a.row = b.row ↔ SameWindow window a.occurrence b.occurrence)
    {a : Landed} (ha : a ∈ history) :
    history.countP (fun b => b.row = a.row) = if a.occurrence.event.kind.coalesces then
      history.countP fun b => SameWindow window a.occurrence b.occurrence else 1 := by
  obtain ⟨before, after, rfl⟩ := append_of_mem ha
  obtain ⟨-, haft, hbef⟩ := pairwise_append.mp h
  have haft := (pairwise_cons.mp haft).1
  have hcou : ∀ part : List Landed, (∀ b ∈ part, b ∈ before ∨ b ∈ after) →
      part.countP (fun b => b.row = a.row) =
        part.countP fun b => SameWindow window a.occurrence b.occurrence := by
    intro part hpar
    refine countP_congr fun b hb => ?_
    simp only [decide_eq_true_eq]
    rcases hpar b hb with hb | hb
    · exact (hbef b hb a mem_cons_self).trans ⟨SameWindow.symm, SameWindow.symm⟩
    · exact eq_comm.trans (haft b hb)
  rw [countP_append, countP_cons_of_pos (by simp), hcou before fun _ hb => Or.inl hb,
    hcou after fun _ hb => Or.inr hb]
  split
  · rename_i hcoa
    have hsel : SameWindow window a.occurrence a.occurrence :=
      ⟨hcoa, hcoa, rfl, rfl, rfl, rfl, rfl⟩
    rw [countP_append, countP_cons_of_pos (by simpa using hsel)]
  · rename_i hcoa
    -- A change is of no window.
    have hnone : ∀ part : List Landed,
        part.countP (fun b => SameWindow window a.occurrence b.occurrence) = 0 := by
      intro part
      rw [countP_eq_zero]
      intro b _ hsam
      exact hcoa (of_decide_eq_true hsam).1
    rw [hnone, hnone]

/-- **A row of the trail is a window of accesses, or one change.** Every event of every call is
recorded. -/
theorem coalescing_windows (sha256 : List UInt8 → List UInt8) (window : ℕ)
    (recordings : List Recording) (record : Record)
    (hrecord : record_all sha256 window recordings = some record)
    (hfree : CollisionFree sha256 window record.history) :
    record.history.map Landed.occurrence = recordings.flatMap Recording.occurrences ∧
    (record.history.Pairwise fun a b =>
      a.row = b.row ↔ SameWindow window a.occurrence b.occurrence) ∧
    (∀ a ∈ record.history, ∃ row ∈ record.trail.rows, row.id = a.row ∧
      row.event_count = if a.occurrence.event.kind.coalesces then
        record.history.countP fun b => SameWindow window a.occurrence b.occurrence else 1) ∧
    (record.trail.rows.map StoredEvent.event_count).sum = record.history.length := by
  obtain ⟨hsou, hhis⟩ := record_all_sound hrecord
  have happ := hsou.apart hfree
  refine ⟨hhis, happ, fun a ha => ?_, ?_⟩
  · obtain ⟨row, hrow, hid, -⟩ :=
      hsou.tracked.placed (a.excluded, a.row) (mem_map_of_mem ha)
    refine ⟨row, hrow, hid, ?_⟩
    rw [hsou.count hrow, show row.id = a.row from hid, count_landed happ ha]
  · have hcou : record.trail.rows.map StoredEvent.event_count =
        (record.trail.rows.map StoredEvent.id).map fun id =>
          (((entries record.history).countP fun entry => entry.2 = id : ℕ) : ℤ) := by
      rw [map_map]
      refine map_congr_left fun row hrow => ?_
      rw [hsou.count hrow, comp_apply, entries, countP_map]
      rfl
    have hpla : ∀ entry ∈ entries record.history,
        entry.2 ∈ record.trail.rows.map StoredEvent.id := by
      intro entry hent
      obtain ⟨row, hrow, hid, -⟩ := hsou.tracked.placed entry hent
      exact hid ▸ mem_map_of_mem hrow
    have htot := congrArg (fun n : ℕ => (n : ℤ))
      (Upsert.sum_countP record.trail.unique_id hpla)
    rw [hcou]
    simpa [Nat.cast_list_sum, entries, comp_def] using htot

/-- The digests of the keys below, by the `sha2` crate. -/
def sample_digests : List (Text × List UInt8) :=
  [("secret.revealed|v5|-1|/a|a|b".toList,
      [16, 74, 84, 133, 211, 93, 113, 66, 5, 33, 232, 108, 166, 82, 36, 109, 213, 72, 107, 251,
       114, 186, 11, 158, 83, 191, 116, 242, 16, 117, 88, 23]),
    ("secret.revealed|v5|0|/a|a|b".toList,
      [105, 157, 201, 35, 96, 97, 225, 117, 117, 60, 77, 86, 89, 14, 153, 194, 149, 159, 15, 79,
       139, 169, 210, 137, 170, 164, 208, 159, 19, 68, 78, 9]),
    ("secret.revealed|v5|0|/a|s".toList,
      [162, 98, 208, 121, 221, 42, 93, 22, 51, 239, 33, 39, 233, 106, 35, 46, 122, 107, 116, 12,
       201, 120, 202, 174, 129, 94, 243, 130, 220, 204, 52, 172])]

/-- A permutation of the texts that agrees with SHA-256 on those keys. -/
def sample_sha256 : Equiv.Perm (List UInt8) :=
  sample_digests.foldr (fun entry rest => Equiv.swap (as_bytes entry.1) entry.2 * rest) 1

def sample_actor : Actor := ⟨"a|b".toList, none, "v5".toList⟩

def sample_recordings : List Recording :=
  [⟨sample_actor, -1 * 1000000000, [(1, .secret_revealed sample_actor "/A".toList)]⟩,
    ⟨sample_actor, -10 * 1000000000, [(2, .secret_revealed sample_actor "/a".toList)]⟩,
    ⟨sample_actor, 0, [(3, .secret_revealed sample_actor "/a".toList)]⟩]

/-- With a window of ten seconds the three accesses land in two rows. -/
theorem sample_windows : ∃ record,
    record_all sample_sha256 (10 * 1000000000) sample_recordings = some record ∧
    (record.history.Pairwise fun a b => a.row = b.row ↔
      SameWindow (10 * 1000000000) a.occurrence b.occurrence) ∧
    (record.trail.rows.map StoredEvent.event_count).sum = 3 := by
  have hsom : (record_all sample_sha256 (10 * 1000000000) sample_recordings).isSome = true := by
    decide +kernel
  obtain ⟨record, hrec⟩ := Option.isSome_iff_exists.mp hsom
  obtain ⟨hhis, hrow, -, htot⟩ := coalescing_windows sample_sha256 (10 * 1000000000)
    sample_recordings record hrec fun _ _ _ _ h => sample_sha256.injective h
  refine ⟨record, hrec, hrow, ?_⟩
  rw [htot, ← length_map (f := Landed.occurrence), hhis]
  rfl

end Audit

end SovereignConfig
