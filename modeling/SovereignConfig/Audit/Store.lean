/-
`audit/store.rs`: the `audit_events` table and its statements, with SQL's three truth values where
a column may be NULL.
-/
import SovereignConfig.Audit
import SovereignConfig.Confinement
import SovereignConfig.Lib.Keyset
import SovereignConfig.Lib.Like

namespace SovereignConfig.Audit

open Lib Text List

/-! ## The table -/

structure StoredEvent where
  id : ℤ
  kind : EventKind
  display_path : ConfigPath
  counterpart_display_path : Option ConfigPath
  occurred_at : OffsetDateTime
  first_occurred_at : OffsetDateTime
  event_count : ℤ
  actor_subject : Text
  actor_name : Option Text
  protocol_version : Text
  old_value : Option Text
  new_value : Option Text
  narrative : Text
  coalesce_digest : Option Text
  recorded_actor_name : Option Text
  recorded_narrative : Option Text
deriving DecidableEq

namespace StoredEvent

/-- The generated column `lower(display_path)`. -/
def path_fold (self : StoredEvent) : Text := self.display_path.fold

/-- The generated column `lower(counterpart_display_path)`, NULL with its source. -/
def counterpart_fold (self : StoredEvent) : Option Text :=
  self.counterpart_display_path.map ConfigPath.fold

/-- The page order, `(first_occurred_at, id)`. -/
def position (self : StoredEvent) : ℤ ×ₗ ℤ := toLex (self.first_occurred_at, self.id)

end StoredEvent

/-- `OffsetDateTime`'s range: the years -9999 to 9999. -/
def in_range (time : OffsetDateTime) : Bool :=
  decide (-377705116800 * 1000000000 ≤ time) && decide (time < 253402300800 * 1000000000)

structure StoredEvent.Valid (row : StoredEvent) : Prop where
  id_bigint : 1 ≤ row.id ∧ row.id < 2 ^ 63
  count_integer : 1 ≤ row.event_count ∧ row.event_count < 2 ^ 31
  microseconds : 1000 ∣ row.first_occurred_at
  first_in_range : in_range row.first_occurred_at = true
  times : row.first_occurred_at ≤ row.occurred_at

structure Trail where
  rows : List StoredEvent
  unique_id : (rows.map StoredEvent.id).Nodup
  valid : ∀ row ∈ rows, row.Valid

def Trail.empty : Trail := ⟨[], List.nodup_nil, by simp⟩

variable {rows : List StoredEvent} {prefixes : List Text} {row : StoredEvent}
  {trail trail' : Trail}

theorem nodup_positions (h : (rows.map StoredEvent.id).Nodup) :
    (rows.map StoredEvent.position).Nodup := by
  rw [List.Nodup, pairwise_map] at h ⊢
  exact h.imp fun hne heq => hne (congrArg (fun p => (ofLex p).2) heq)

/-! ## Writing (`insert_events`) -/

def storable (text : Text) : Text := text.filter (· != '\x00')

def PG_EPOCH : OffsetDateTime := 946684800 * 1000000000

/-- A time as `TIMESTAMPTZ` holds it: whole microseconds from PostgreSQL's epoch. -/
def stored_time (time : OffsetDateTime) : OffsetDateTime :=
  PG_EPOCH + (time - PG_EPOCH).tdiv 1000 * 1000

def new_row (id : ℤ) (actor : Actor) (time : OffsetDateTime) (event : AuditEvent)
    (coalesce_digest : Option Text) : Option StoredEvent :=
  match ConfigPath.parse_selection event.path,
      event.counterpart.mapM ConfigPath.parse_operation with
  | .ok path, .ok counterpart =>
    some ⟨id, event.kind, path, counterpart, stored_time time, stored_time time, 1,
      storable actor.subject, actor.name.map storable, actor.protocol_version, event.old_value,
      event.new_value, storable event.narrative, coalesce_digest, none, none⟩
  | _, _ => none

/-- `ON CONFLICT (coalesce_digest) DO UPDATE`: the window is bumped. -/
def StoredEvent.bumped (self excluded : StoredEvent) : StoredEvent :=
  { self with
    event_count := self.event_count + 1
    occurred_at := max self.occurred_at excluded.occurred_at
    display_path := excluded.display_path
    actor_name := excluded.actor_name <|> self.actor_name
    narrative := excluded.narrative }

def conflicts (row excluded : StoredEvent) : Bool :=
  excluded.coalesce_digest.isSome && row.coalesce_digest == excluded.coalesce_digest

def insert_row (rows : List StoredEvent) (excluded : StoredEvent) : List StoredEvent :=
  if rows.any (conflicts · excluded) then
    rows.map fun row => if conflicts row excluded then row.bumped excluded else row
  else rows ++ [excluded]

instance (row : StoredEvent) : Decidable row.Valid :=
  decidable_of_iff ((1 ≤ row.id ∧ row.id < 2 ^ 63) ∧
      (1 ≤ row.event_count ∧ row.event_count < 2 ^ 31) ∧ 1000 ∣ row.first_occurred_at ∧
      in_range row.first_occurred_at = true ∧ row.first_occurred_at ≤ row.occurred_at)
    ⟨fun h => ⟨h.1, h.2.1, h.2.2.1, h.2.2.2.1, h.2.2.2.2⟩,
      fun h => ⟨h.id_bigint, h.count_integer, h.microseconds, h.first_in_range, h.times⟩⟩

/-- One event inserted under `id`, which the identity column drew. Ids may be seen out of order:
a statement that drew one earlier can commit later. -/
def Trail.insert_event (self : Trail) (id : ℤ) (actor : Actor) (time : OffsetDateTime)
    (event : AuditEvent) (coalesce_digest : Option Text) : Option Trail := do
  let excluded ← new_row id actor time event coalesce_digest
  let rows := insert_row self.rows excluded
  if h : (rows.map StoredEvent.id).Nodup ∧ ∀ row ∈ rows, row.Valid then
    some ⟨rows, h.1, h.2⟩
  else none

/-! ## Reading -/

structure ElementScope where
  path : Text
  ancestors : List Text
  parent : Text
deriving DecidableEq

structure EventFilter where
  readable_prefixes : List Text
  manageable_prefixes : List Text
  path_fragment : Option Text
  element : Option ElementScope
  text_fragment : Option Text
  actor_fragment : Option Text
  from_time : Option OffsetDateTime
  until_time : Option OffsetDateTime
  protocol_version : Option Text
  kinds : List EventKind
  after : Option (ℤ ×ₗ ℤ)
  limit : ℕ

def CONNECTION_KINDS : List EventKind := [.ConnectionCreated, .ConnectionRotated, .ConnectionRevoked]

def sql_or : Option Bool → Option Bool → Option Bool
  | some true, _ => some true
  | _, some true => some true
  | some false, some false => some false
  | _, _ => none

/-- A `WHERE` keeps what is true, not what is NULL. -/
def is_true (condition : Option Bool) : Bool := condition == some true

/-- `push_covered`: `EXISTS (… WHERE prefix = '/' OR column = prefix OR starts_with(column, prefix ||
'/'))`, the column NULL where it is `none`. -/
def covered (column : Option Text) (prefixes : List Text) : Bool :=
  prefixes.any fun granted => is_true (sql_or (some (granted == root_text))
    (sql_or (column.map (· == granted)) (column.map (starts_with · (granted ++ ['/'])))))

/-- The clause `push_scope` adds for an element query. -/
def in_element (element : ElementScope) (row : StoredEvent) : Bool :=
  row.path_fold == element.path
    || (row.kind == .SubtreeRead && element.ancestors.contains row.path_fold)
    || (row.kind == .ValuesListed && row.path_fold == element.parent)

/-- `push_scope`. -/
def scope (filter : EventFilter) (row : StoredEvent) : Bool :=
  ((!CONNECTION_KINDS.contains row.kind && covered (some row.path_fold) filter.readable_prefixes)
    || (CONNECTION_KINDS.contains row.kind
      && covered (some row.path_fold) filter.manageable_prefixes))
  && (row.kind != .ValuePathAdded || covered row.counterpart_fold filter.readable_prefixes)
  && filter.element.all (in_element · row)

/-- A `LIKE` pattern matching `fragment` anywhere, with every wildcard in the fragment escaped. -/
def contains_pattern (fragment : Text) : Text :=
  let pattern := fragment.foldl (fun pattern character =>
    let pattern := if character == '\\' || character == '%' || character == '_' then
      pattern ++ ['\\'] else pattern
    pattern ++ [character]) ['%']
  pattern ++ ['%']

/-- `push_filters`; `fold` is what the database's locale lowers `ILIKE`'s two sides with, and the
bounds are bound as `TIMESTAMPTZ`. -/
def filters (fold : CaseFold) (filter : EventFilter) (row : StoredEvent) : Bool :=
  filter.path_fragment.all (fun fragment => like (contains_pattern fragment) row.path_fold)
  && filter.text_fragment.all (fun fragment => ilike fold (contains_pattern fragment) row.narrative)
  && filter.actor_fragment.all (fun fragment =>
    is_true (sql_or (some (ilike fold (contains_pattern fragment) row.actor_subject))
      (row.actor_name.map (ilike fold (contains_pattern fragment)))))
  && filter.from_time.all (fun time => decide (row.occurred_at ≥ stored_time time))
  && filter.until_time.all (fun time => decide (row.first_occurred_at ≤ stored_time time))
  && filter.protocol_version.all (fun version => row.protocol_version == version)
  && (filter.kinds.isEmpty || filter.kinds.contains row.kind)

def query_events (fold : CaseFold) (filter : EventFilter) (trail : Trail) : List StoredEvent :=
  fetch StoredEvent.position filter.after filter.limit
    (trail.rows.filter fun row => scope filter row && filters fold filter row)

structure EventCounts where
  total : ℕ
  matching : ℕ
deriving DecidableEq

def count_events (fold : CaseFold) (filter : EventFilter) (trail : Trail) : EventCounts :=
  ⟨trail.rows.countP (scope filter),
    trail.rows.countP fun row => scope filter row && filters fold filter row⟩

theorem contains_pattern_eq (fragment : Text) : contains_pattern fragment = anywhere fragment := by
  have hloo : ∀ (fragment pattern : Text), fragment.foldl (fun pattern character =>
      let pattern := if character == '\\' || character == '%' || character == '_' then
        pattern ++ ['\\'] else pattern
      pattern ++ [character]) pattern = pattern ++ literal fragment := by
    intro fragment
    induction fragment with
    | nil => exact fun pattern => (append_nil pattern).symm
    | cons character fragment ih =>
      intro pattern
      rw [foldl_cons, ih, literal, literal, flatMap_cons, wildcard]
      split_ifs <;> simp
  rw [contains_pattern, hloo]
  rfl

/-- **A fragment matches literally,** whatever characters it is made of, and the database accepts
its pattern. -/
theorem fragment_matches_literally (fragment text : Text) :
    terminated (contains_pattern fragment) = true ∧
      (like (contains_pattern fragment) text = true ↔ fragment <:+: text) := by
  rw [contains_pattern_eq]
  exact ⟨terminated_anywhere fragment, like_anywhere fragment text⟩

theorem covered_some {column : Text} :
    covered (some column) prefixes = true ↔
      ∃ granted ∈ prefixes, at_or_below column granted = true := by
  simp only [covered, any_eq_true]
  refine exists_congr fun granted => and_congr_right fun _ => ?_
  simp only [at_or_below, is_true, Option.map_some]
  cases granted == root_text <;> cases column == granted <;>
    cases starts_with column (granted ++ ['/']) <;> simp [sql_or]

theorem covered_none : covered none prefixes = true ↔ root_text ∈ prefixes := by
  simp only [covered, any_eq_true]
  constructor
  · rintro ⟨granted, hmem, htru⟩
    cases hroo : granted == root_text with
    | true => exact (beq_iff_eq.mp hroo) ▸ hmem
    | false => simp [hroo, sql_or, is_true] at htru
  · exact fun hmem => ⟨root_text, hmem, rfl⟩

theorem actor_matches {subject : Bool} {name : Option Bool} :
    is_true (sql_or (some subject) name) = true ↔ subject = true ∨ name = some true := by
  cases subject <;> rcases name with _ | _ | _ <;> simp [sql_or, is_true]

theorem insert_row_keeps {excluded : StoredEvent} (h : row ∈ rows) :
    ∃ row' ∈ insert_row rows excluded, row'.position = row.position ∧ row'.id = row.id := by
  unfold insert_row
  split
  · refine ⟨_, mem_map_of_mem h, ?_⟩
    split
    · exact ⟨rfl, rfl⟩
    · exact ⟨rfl, rfl⟩
  · exact ⟨row, mem_append_left _ h, rfl, rfl⟩

inductive Trail.Grows (self : Trail) : Trail → Prop
  | refl : Grows self self
  | insert {trail trail' : Trail} {id : ℤ} {actor : Actor} {time : OffsetDateTime}
      {event : AuditEvent} {coalesce_digest : Option Text} :
      Grows self trail → trail.insert_event id actor time event coalesce_digest = some trail' →
      Grows self trail'

theorem insert_event_rows {id : ℤ} {actor : Actor} {time : OffsetDateTime} {event : AuditEvent}
    {coalesce_digest : Option Text}
    (h : trail.insert_event id actor time event coalesce_digest = some trail') :
    ∃ excluded, trail'.rows = insert_row trail.rows excluded := by
  simp only [Trail.insert_event, Option.bind_eq_bind, Option.bind_eq_some_iff] at h
  obtain ⟨excluded, -, h⟩ := h
  split at h
  · exact ⟨excluded, congrArg Trail.rows (Option.some.inj h).symm⟩
  · simp at h

theorem Trail.Grows.keeps (h : trail.Grows trail') (hrow : row ∈ trail.rows) :
    ∃ row' ∈ trail'.rows, row'.position = row.position ∧ row'.id = row.id := by
  induction h with
  | refl => exact ⟨row, hrow, rfl, rfl⟩
  | insert _ hins ih =>
    obtain ⟨row', hrow', hpos, hid⟩ := ih
    obtain ⟨excluded, hrows⟩ := insert_event_rows hins
    obtain ⟨row'', hrow'', hpos', hid'⟩ := insert_row_keeps hrow'
    exact ⟨row'', hrows ▸ hrow'', hpos'.trans hpos, hid'.trans hid⟩

theorem Trail.Grows.trans {t₁ t₂ t₃ : Trail} (h : t₁.Grows t₂) (h' : t₂.Grows t₃) :
    t₁.Grows t₃ := by
  induction h' with
  | refl => exact h
  | insert _ hins ih => exact ih.insert hins

end SovereignConfig.Audit
