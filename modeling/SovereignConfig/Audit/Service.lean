/-
`audit/service.rs`: reading the audit trail back, a page at a time. A cursor is the position of a
page's last row as text, which is read back because `TIMESTAMPTZ` holds whole microseconds.
-/
import SovereignConfig.Audit.Store
import SovereignConfig.Lib.Checks
import SovereignConfig.Lib.Decimal

namespace SovereignConfig.Audit

open Lib Text List Function

def MAX_PATH_FILTER_CHARACTERS : ℕ := 512

def MAX_TEXT_FILTER_CHARACTERS : ℕ := 256

def MAX_PROTOCOL_VERSION_CHARACTERS : ℕ := 32

structure AuditTrailService where
  page_size : ℕ
  locale : CaseFold
  utc : OffsetDateTime → Text

structure TrailQuery where
  path_filter : Text
  element_path : Text
  text_filter : Text
  from_time : Option Timestamp
  until_time : Option Timestamp
  protocol_version : Text
  kinds : Option (List EventKind)
  page_size : ℕ
  cursor : Text
  actor_filter : Text
  counts : Bool

structure ValidQuery where
  path_fragment : Option Text
  element : Option ElementScope
  text_fragment : Option Text
  actor_fragment : Option Text
  from_time : Option OffsetDateTime
  until_time : Option OffsetDateTime
  protocol_version : Option Text
  kinds : List EventKind
  after : Option (ℤ ×ₗ ℤ)

def invalid_query : Status := .invalid_argument "audit query is invalid"

def granted_prefixes (principal : AuthenticatedPrincipal) (permission : Permission) : List Text :=
  (principal.grants.filter fun grant => grant.permissions.contains permission).map
    Grant.prefix_path

/-! ## Validation -/

def non_empty (text : Text) : Option Text := if text.isEmpty then none else some text

/-- `Option::map(check).transpose()`. -/
def checked {α : Type} (text : Text) (check : Text → Except Status α) :
    Except Status (Option α) :=
  match non_empty text with
  | none => .ok none
  | some text => (check text).map some

def path_fragment (fragment : Text) : Except Status Text :=
  if fragment.all (fun c => c.isAlphanum || c == '_' || c == '-' || c == '/')
      && byte_len fragment ≤ MAX_PATH_FILTER_CHARACTERS then
    .ok (to_ascii_lowercase fragment)
  else .error invalid_query

def free_text_fragment (fragment : Text) : Except Status Text :=
  if fragment.length ≤ MAX_TEXT_FILTER_CHARACTERS && !contains_char fragment '\x00' then
    .ok fragment
  else .error invalid_query

def protocol_version (version : Text) : Except Status Text :=
  if byte_len version ≤ MAX_PROTOCOL_VERSION_CHARACTERS
      && version.all (fun c => c.isLower || c.isDigit) then
    .ok version
  else .error invalid_query

/-- The loop of `element_scope`: `built` is the text up to the last slash found, `segment` what
was read since, and each further slash makes an ancestor. -/
def ancestors_from (built segment : Text) : Text → List Text
  | [] => []
  | c :: rest =>
    if c = '/' then
      let built := built ++ '/' :: segment
      built :: ancestors_from built [] rest
    else ancestors_from built (segment ++ [c]) rest

/-- Everything that can have read `path` without naming it. -/
def element_scope (path : ConfigPath) : ElementScope :=
  let fold := path.fold
  let ancestors := root_text :: ancestors_from [] [] fold.tail
  ⟨fold, ancestors, (ancestors.getLast?).getD root_text⟩

def element (path : Text) : Except Status ElementScope :=
  match ConfigPath.parse_operation path with
  | .ok path => .ok (element_scope path)
  | .error _ => .error invalid_query

def instant (timestamp : Timestamp) : Except Status OffsetDateTime :=
  if 0 ≤ timestamp.nanos ∧ timestamp.nanos < 1000000000
      ∧ in_range (timestamp.seconds * 1000000000) = true then
    .ok (timestamp.seconds * 1000000000 + timestamp.nanos)
  else .error invalid_query

def instants : Option Timestamp → Except Status (Option OffsetDateTime)
  | none => .ok none
  | some timestamp => (instant timestamp).map some

/-- The cursor after `row`: microseconds, a dot, the id. -/
def cursor_after (row : StoredEvent) : Text :=
  format_int (row.first_occurred_at.tdiv 1000) ++ '.' :: format_int row.id

def parse_cursor (cursor : Text) : Except Status (ℤ ×ₗ ℤ) :=
  match split_once '.' cursor with
  | none => .error invalid_query
  | some (micros, id) =>
    match parse_i64 micros, parse_i64 id with
    | some micros, some id =>
      if !in_range (micros * 1000) then .error invalid_query
      else if id < 1 then .error invalid_query
      else .ok (toLex (micros * 1000, id))
    | _, _ => .error invalid_query

def validate (query : TrailQuery) : Except Status ValidQuery := do
  let path_fragment ← checked query.path_filter path_fragment
  let element ← checked query.element_path element
  if path_fragment.isSome && element.isSome then .error invalid_query
  else
    let text_fragment ← checked query.text_filter free_text_fragment
    let actor_fragment ← checked query.actor_filter free_text_fragment
    let protocol_version ← checked query.protocol_version protocol_version
    let from_time ← instants query.from_time
    let until_time ← instants query.until_time
    if from_time.any (fun start => until_time.any (start > ·)) then .error invalid_query
    else
      let kinds ← query.kinds.elim (.error invalid_query) .ok
      let after ← checked query.cursor parse_cursor
      return ⟨path_fragment, element, text_fragment, actor_fragment, from_time, until_time,
        protocol_version, kinds, after⟩

/-! ## Pages -/

structure AuditEntry where
  id : ℕ
  kind : EventKind
  path : ConfigPath
  occurred_at : Timestamp
  first_occurred_at : Timestamp
  event_count : ℕ
  actor_subject : Text
  actor_name : Option Text
  protocol_version : Text
  old_value : Option Text
  new_value : Option Text
  narrative : Text
deriving DecidableEq

structure AuditCounts where
  total : ℕ
  matching : ℕ
deriving DecidableEq

structure AuditPage where
  events : List AuditEntry
  next_cursor : Option Text
  counts : Option AuditCounts
deriving DecidableEq

def served (self : AuditTrailService) (stored : Text) (event_count : ℕ)
    (first last : OffsetDateTime) : Text :=
  if event_count ≤ 1 then stored
  else stored ++ " — ".toList ++ narrative.decimal event_count ++ " times between ".toList
    ++ self.utc first ++ " and ".toList ++ self.utc last

def entry (self : AuditTrailService) (row : StoredEvent) : Except Status AuditEntry :=
  if row.event_count < 0 then .error storage_unavailable
  else if row.id < 0 then .error storage_unavailable
  else match ConfigPath.parse_selection row.display_path.as_str with
    | .error _ => .error storage_unavailable
    | .ok path =>
      .ok ⟨row.id.toNat, row.kind, path, to_timestamp row.occurred_at,
        to_timestamp row.first_occurred_at, row.event_count.toNat, row.actor_subject,
        row.actor_name, row.protocol_version, row.old_value, row.new_value,
        served self row.narrative row.event_count.toNat row.first_occurred_at row.occurred_at⟩

def page (self : AuditTrailService) (rows : List StoredEvent) (page_size : ℕ) :
    Except Status AuditPage := do
  let more := decide (rows.length > page_size)
  let rows := rows.take page_size
  let next_cursor := if more then rows.getLast?.map cursor_after else none
  let events ← rows.mapM (entry self)
  return ⟨events, next_cursor, none⟩

def AuditTrailService.effective (self : AuditTrailService) (query : TrailQuery) : ℕ :=
  if query.page_size = 0 then self.page_size else min query.page_size self.page_size

def event_filter (principal : AuthenticatedPrincipal) (valid : ValidQuery) (page_size : ℕ) :
    EventFilter where
  readable_prefixes := granted_prefixes principal .Read
  manageable_prefixes := granted_prefixes principal .Manage
  path_fragment := valid.path_fragment
  element := valid.element
  text_fragment := valid.text_fragment
  actor_fragment := valid.actor_fragment
  from_time := valid.from_time
  until_time := valid.until_time
  protocol_version := valid.protocol_version
  kinds := valid.kinds
  after := valid.after
  -- One row past the page says whether there is another page.
  limit := page_size + 1

def query_audit_trail (self : AuditTrailService) (context : CallContext) (query : TrailQuery)
    (trail : Trail) : Except Status AuditPage := do
  let valid ← validate query
  let principal ← context.principal
  if (granted_prefixes principal .Read).isEmpty && (granted_prefixes principal .Manage).isEmpty then
    return ⟨[], none, if query.counts && valid.after.isNone then some ⟨0, 0⟩ else none⟩
  else
    let page_size := self.effective query
    let filter := event_filter principal valid page_size
    let page ← page self (query_events self.locale filter trail) page_size
    if query.counts && valid.after.isNone then
      let counts := count_events self.locale filter trail
      return { page with counts := some ⟨counts.total, counts.matching⟩ }
    else return page

theorem micros_i64 {time : ℤ} (hmic : 1000 ∣ time) (hran : in_range time = true) :
    -(2 ^ 63) ≤ time.tdiv 1000 ∧ time.tdiv 1000 < 2 ^ 63 := by
  obtain ⟨micros, rfl⟩ := hmic
  simp only [in_range, Bool.and_eq_true, decide_eq_true_eq] at hran
  change (-377705116800 * 1000000000 : ℤ) ≤ 1000 * micros
    ∧ 1000 * micros < (253402300800 * 1000000000 : ℤ) at hran
  rw [Int.mul_tdiv_cancel_left _ (by decide)]
  omega

variable {row : StoredEvent} {s : Text} {path : ConfigPath}

theorem parse_cursor_after (h : row.Valid) :
    parse_cursor (cursor_after row) = .ok row.position := by
  have hmic : row.first_occurred_at.tdiv 1000 * 1000 = row.first_occurred_at :=
    Int.tdiv_mul_cancel h.microseconds
  have hi64 := micros_i64 h.microseconds h.first_in_range
  have hdot : '.' ∉ format_int (row.first_occurred_at.tdiv 1000) := by
    intro hmem
    rcases mem_format_int hmem with hsig | hdig
    · exact absurd hsig (by decide)
    · exact absurd hdig (by decide)
  have htim : parse_i64 (format_int (row.first_occurred_at.tdiv 1000))
      = some (row.first_occurred_at.tdiv 1000) :=
    parse_i64_format hi64.1 hi64.2
  have hid : parse_i64 (format_int row.id) = some row.id :=
    parse_i64_format (by have := h.id_bigint.1; omega) h.id_bigint.2
  rw [parse_cursor, cursor_after, split_once_append _ hdot]
  simp only [htim, hid, hmic, h.first_in_range, Bool.not_true, Bool.false_eq_true, if_false,
    not_lt.mpr h.id_bigint.1]
  rfl

theorem cursor_after_ne_nil (row : StoredEvent) : cursor_after row ≠ [] := by
  simp [cursor_after]

theorem parse_selection_as_str (path : ConfigPath) :
    ConfigPath.parse_selection path.as_str = .ok path := by
  obtain ⟨text, hcan⟩ := path
  unfold ConfigPath.parse_selection ConfigPath.parse_operation ConfigPath.as_str
  split_ifs with hroo hpat
  · subst hroo
    rfl
  · rfl
  · exact absurd hcan (not_or.mpr ⟨hroo, hpat⟩)

def entry_of (self : AuditTrailService) (row : StoredEvent) : AuditEntry :=
  ⟨row.id.toNat, row.kind, row.display_path, to_timestamp row.occurred_at,
    to_timestamp row.first_occurred_at, row.event_count.toNat, row.actor_subject, row.actor_name,
    row.protocol_version, row.old_value, row.new_value,
    served self row.narrative row.event_count.toNat row.first_occurred_at row.occurred_at⟩

theorem entry_ok (self : AuditTrailService) (h : row.Valid) :
    entry self row = .ok (entry_of self row) := by
  have hcou := h.count_integer.1
  have hid := h.id_bigint.1
  rw [entry, if_neg (by omega), if_neg (by omega), parse_selection_as_str]
  rfl

theorem page_ok (self : AuditTrailService) {rows : List StoredEvent} {n : ℕ}
    (h : ∀ row ∈ rows, row.Valid) :
    page self rows n = .ok ⟨(rows.take n).map (entry_of self),
      if n < rows.length then (rows.take n).getLast?.map cursor_after else none, none⟩ := by
  rw [page, mapM_eq_ok fun row hrow => entry_ok self (h row (mem_of_mem_take hrow))]
  simp only [gt_iff_lt, decide_eq_true_eq]
  rfl

theorem ancestors_from_append (hs : '/' ∉ s) (built segment rest : Text) :
    ancestors_from built segment (s ++ rest) = ancestors_from built (segment ++ s) rest := by
  induction s generalizing segment with
  | nil => simp
  | cons c s ih =>
    rw [mem_cons, not_or] at hs
    rw [cons_append, ancestors_from, if_neg (Ne.symm hs.1), ih hs.2]
    simp

theorem ancestors_from_render {ss : List Text} (h : Free '/' (s :: ss)) :
    ∀ built, ancestors_from built [] (s ++ render '/' ss) =
      (proper_prefixes (s :: ss)).tail.map fun u => built ++ render '/' u := by
  induction ss generalizing s with
  | nil =>
    intro built
    rw [ancestors_from_append h.head]
    simp [ancestors_from, proper_prefixes]
  | cons t ss ih =>
    intro built
    rw [ancestors_from_append h.head, render_cons, nil_append, ancestors_from, if_pos rfl]
    simp only [ih h.tail]
    simp [proper_prefixes, comp_def]

theorem element_ancestors (h : operation_path path.path = true) :
    (element_scope path).ancestors = (proper_prefixes path.segs).map path_text := by
  have hseg := path.foldSegments_segs
  have hne : path.segs ≠ [] := fun hnil => operation_ne_root h (path.segs_eq_nil.mp hnil)
  simp only [element_scope, path.fold_eq]
  cases hss : path.segs with
  | nil => exact absurd hss hne
  | cons s ss =>
    rw [hss] at hseg
    rw [path_text_cons, render_cons, tail_cons, ancestors_from_render hseg.free]
    simp only [proper_prefixes, tail_cons, map_cons, path_text_nil, nil_append,
      map_map]
    rfl

theorem element_parent (h : operation_path path.path = true) :
    (element_scope path).parent = path_text path.segs.dropLast := by
  have hne : path.segs ≠ [] := fun hnil => operation_ne_root h (path.segs_eq_nil.mp hnil)
  have hlas : (element_scope path).parent
      = ((element_scope path).ancestors.getLast?).getD root_text := rfl
  rw [hlas, element_ancestors h, getLast?_map]
  obtain ⟨ss, s, hcat⟩ : ∃ ss s, path.segs = ss ++ [s] :=
    ⟨_, _, (dropLast_concat_getLast hne).symm⟩
  rw [hcat, proper_prefixes_append]
  simp [proper_prefixes]

end SovereignConfig.Audit
