/-
Who sees which event of the trail. The SQL selects what the grant check means, except that an alias
event without its other path is shown to a reader of the root: `TRUE OR NULL` is true.
-/
import SovereignConfig.Audit.Service

namespace SovereignConfig.Audit

open Lib Text List

/-! ## What a caller may see -/

/-- The grant check: `manage` on a connection event's root, `read` on any other event's path,
and on the other path of an alias. -/
def visible (principal : AuthenticatedPrincipal) (row : StoredEvent) : Bool :=
  principal.allows row.display_path
      (if CONNECTION_KINDS.contains row.kind then .Manage else .Read)
    && (row.kind != .ValuePathAdded
      || row.counterpart_display_path.any (principal.allows · .Read))

def RootReader (principal : AuthenticatedPrincipal) : Prop :=
  root_text ∈ granted_prefixes principal .Read

def Leaks (principal : AuthenticatedPrincipal) (row : StoredEvent) : Prop :=
  RootReader principal ∧ row.kind = .ValuePathAdded ∧ row.counterpart_display_path = none

/-- The trail holds an event that is shown to the principal without being visible to them. -/
def Exposed (principal : AuthenticatedPrincipal) (trail : Trail) : Prop :=
  ∃ row ∈ trail.rows, Leaks principal row

variable {principal : AuthenticatedPrincipal} {text fragment : Text} {query : TrailQuery}
  {valid : ValidQuery} {row : StoredEvent} {trail : Trail}

theorem mem_granted_prefixes {permission : Permission} {granted : Text} :
    granted ∈ granted_prefixes principal permission ↔
      ∃ grant ∈ principal.grants, permission ∈ grant.permissions ∧ grant.prefix_path = granted := by
  simp only [granted_prefixes, mem_map, mem_filter, contains_iff_mem]
  constructor
  · rintro ⟨grant, ⟨hgra, hper⟩, rfl⟩
    exact ⟨grant, hgra, hper, rfl⟩
  · rintro ⟨grant, hgra, hper, rfl⟩
    exact ⟨grant, ⟨hgra, hper⟩, rfl⟩

theorem covered_iff_allows (principal : AuthenticatedPrincipal) (permission : Permission)
    (path : ConfigPath) :
    covered (some path.fold) (granted_prefixes principal permission) = true ↔
      principal.allows path permission = true := by
  rw [covered_some, allows_iff]
  constructor
  · rintro ⟨granted, hgran, hbel⟩
    obtain ⟨grant, hgra, hper, rfl⟩ := mem_granted_prefixes.mp hgran
    exact ⟨grant, hgra, hper, hbel⟩
  · rintro ⟨grant, hgra, hper, hbel⟩
    exact ⟨_, mem_granted_prefixes.mpr ⟨grant, hgra, hper, rfl⟩, hbel⟩

theorem RootReader.allows (h : RootReader principal) (path : ConfigPath) :
    principal.allows path .Read = true := by
  rw [← covered_iff_allows, covered_some]
  exact ⟨root_text, h, by simp [at_or_below]⟩

/-! ## What a query asks for -/

def Timestamp.nanoseconds (self : Timestamp) : ℤ := self.seconds * 1000000000 + self.nanos

/-- The row meets every filter the query sets. Its bounds are read to the microsecond, as the
columns they are compared with. -/
structure Satisfies (locale : CaseFold) (query : TrailQuery) (row : StoredEvent) : Prop where
  path : query.path_filter ≠ [] → to_ascii_lowercase query.path_filter <:+: row.path_fold
  text : query.text_filter ≠ [] →
    query.text_filter.map locale.lower <:+: row.narrative.map locale.lower
  actor : query.actor_filter ≠ [] →
    query.actor_filter.map locale.lower <:+: row.actor_subject.map locale.lower ∨
      ∃ name ∈ row.actor_name, query.actor_filter.map locale.lower <:+: name.map locale.lower
  from_time : ∀ time ∈ query.from_time, stored_time (Timestamp.nanoseconds time) ≤ row.occurred_at
  until_time : ∀ time ∈ query.until_time,
    row.first_occurred_at ≤ stored_time (Timestamp.nanoseconds time)
  protocol_version : query.protocol_version ≠ [] → row.protocol_version = query.protocol_version
  kinds : ∀ kinds ∈ query.kinds, kinds ≠ [] → row.kind ∈ kinds

/-- The row belongs to the history of the value at `path`: it is about the value, a read of a
subtree above it, or a listing of its parent. -/
def InHistory (path : ConfigPath) (row : StoredEvent) : Prop :=
  row.display_path.fold = path.fold ∨
    (row.kind = .SubtreeRead ∧ row.display_path.segs <+: path.segs ∧
      row.display_path.segs ≠ path.segs) ∨
    (row.kind = .ValuesListed ∧ row.display_path.segs = path.segs.dropLast)

/-- The event is in the history of the element asked for, if one is. -/
def InScope (query : TrailQuery) (row : StoredEvent) : Prop :=
  query.element_path ≠ [] →
    ∃ path, ConfigPath.parse_operation query.element_path = .ok path ∧ InHistory path row

/-! ### Validation keeps the query's meaning -/

theorem checked_ok {α : Type} {check : Text → Except Status α} {value : Option α}
    (h : checked text check = .ok value) :
    (text = [] ∧ value = none) ∨ (text ≠ [] ∧ ∃ a, check text = .ok a ∧ value = some a) := by
  unfold checked non_empty at h
  cases text with
  | nil => exact Or.inl ⟨rfl, (Except.ok.inj h).symm⟩
  | cons c text =>
    right
    refine ⟨by simp, ?_⟩
    cases hche : check (c :: text) with
    | error e => simp [hche, Except.map] at h
    | ok a => exact ⟨a, rfl, by simpa [hche, Except.map] using h.symm⟩

theorem checked_all {α : Type} {check : Text → Except Status α} {value : Option α}
    (h : checked text check = .ok value) {test : α → Bool} {P : Prop}
    (hP : ∀ a, check text = .ok a → (test a = true ↔ P)) :
    value.all test = true ↔ (text ≠ [] → P) := by
  rcases checked_ok h with ⟨htex, rfl⟩ | ⟨htex, a, ha, rfl⟩
  · simp [htex]
  · rw [Option.all_some, hP a ha]
    exact ⟨fun h _ => h, fun h => h htex⟩

theorem instants_all {time : Option Timestamp} {value : Option OffsetDateTime}
    (h : instants time = .ok value) {test : ℤ → Bool} {P : ℤ → Prop}
    (hP : ∀ t, test t = true ↔ P t) :
    value.all test = true ↔ ∀ t ∈ time, P (Timestamp.nanoseconds t) := by
  cases time with
  | none =>
    obtain rfl := Except.ok.inj h
    simp
  | some timestamp =>
    simp only [instants, instant] at h
    split_ifs at h with hval
    · obtain rfl := Except.ok.inj h
      rw [Option.all_some, hP]
      simp [Timestamp.nanoseconds]
    · exact absurd h (by simp [Except.map])

structure Validated (query : TrailQuery) (valid : ValidQuery) : Prop where
  path : checked query.path_filter path_fragment = .ok valid.path_fragment
  element : checked query.element_path element = .ok valid.element
  text : checked query.text_filter free_text_fragment = .ok valid.text_fragment
  actor : checked query.actor_filter free_text_fragment = .ok valid.actor_fragment
  version : checked query.protocol_version protocol_version = .ok valid.protocol_version
  from_time : instants query.from_time = .ok valid.from_time
  until_time : instants query.until_time = .ok valid.until_time
  kinds : query.kinds = some valid.kinds
  cursor : checked query.cursor parse_cursor = .ok valid.after

/-- **A query is valid** when each part is, it does not name both an element and a fragment of a
path, and its times are in order. -/
theorem validate_iff : validate query = .ok valid ↔
    Validated query valid ∧ ¬ (valid.path_fragment.isSome && valid.element.isSome) = true ∧
      ¬ (valid.from_time.any fun start => valid.until_time.any (start > ·)) = true := by
  constructor
  · intro h
    unfold validate at h
    obtain ⟨path_fragment, hpat, h⟩ := bind_eq_ok.mp h
    obtain ⟨element, hele, h⟩ := bind_eq_ok.mp h
    obtain ⟨hone, h⟩ := unless_eq_ok.mp h
    obtain ⟨text_fragment, htex, h⟩ := bind_eq_ok.mp h
    obtain ⟨actor_fragment, hact, h⟩ := bind_eq_ok.mp h
    obtain ⟨protocol_version, hver, h⟩ := bind_eq_ok.mp h
    obtain ⟨from_time, hfro, h⟩ := bind_eq_ok.mp h
    obtain ⟨until_time, hunt, h⟩ := bind_eq_ok.mp h
    obtain ⟨hord, h⟩ := unless_eq_ok.mp h
    obtain ⟨kinds, hkin, h⟩ := bind_eq_ok.mp h
    obtain ⟨after, haft, h⟩ := bind_eq_ok.mp h
    obtain rfl := Except.ok.inj h
    refine ⟨⟨hpat, hele, htex, hact, hver, hfro, hunt, ?_, haft⟩, hone, hord⟩
    cases hk : query.kinds with
    | none => simp [hk] at hkin
    | some ks => simpa [hk] using hkin
  · rintro ⟨h, hone, hord⟩
    simp only [validate, h.path, h.element, hone, h.text, h.actor, h.version, h.from_time,
      h.until_time, hord, h.kinds, h.cursor, bind, Except.bind]
    rfl

theorem validate_ok (h : validate query = .ok valid) :
    Validated query valid := (validate_iff.mp h).1

theorem path_fragment_ok (h : path_fragment text = .ok fragment) :
    fragment = to_ascii_lowercase text := by
  unfold path_fragment at h
  split at h
  · exact (Except.ok.inj h).symm
  · simp at h

theorem free_text_ok (h : free_text_fragment text = .ok fragment) : fragment = text := by
  unfold free_text_fragment at h
  split at h
  · exact (Except.ok.inj h).symm
  · simp at h

theorem protocol_version_ok {version : Text} (h : protocol_version text = .ok version) :
    version = text := by
  unfold protocol_version at h
  split at h
  · exact (Except.ok.inj h).symm
  · simp at h

theorem filters_iff (h : validate query = .ok valid) (locale : CaseFold)
    (principal : AuthenticatedPrincipal) (n : ℕ) (row : StoredEvent) :
    filters locale (event_filter principal valid n) row = true ↔ Satisfies locale query row := by
  have hv := validate_ok h
  have hpat : valid.path_fragment.all (fun fragment =>
        like (contains_pattern fragment) row.path_fold) = true ↔
      (query.path_filter ≠ [] → to_ascii_lowercase query.path_filter <:+: row.path_fold) :=
    checked_all hv.path fun fragment hf => by
      rw [path_fragment_ok hf, contains_pattern_eq, like_anywhere]
  have htex : valid.text_fragment.all (fun fragment =>
        ilike locale (contains_pattern fragment) row.narrative) = true ↔
      (query.text_filter ≠ [] →
        query.text_filter.map locale.lower <:+: row.narrative.map locale.lower) :=
    checked_all hv.text fun fragment hf => by
      rw [free_text_ok hf, contains_pattern_eq, ilike_anywhere]
  have hact : valid.actor_fragment.all (fun fragment =>
        is_true (sql_or (some (ilike locale (contains_pattern fragment) row.actor_subject))
          (row.actor_name.map (ilike locale (contains_pattern fragment))))) = true ↔
      (query.actor_filter ≠ [] →
        query.actor_filter.map locale.lower <:+: row.actor_subject.map locale.lower ∨
          ∃ name ∈ row.actor_name,
            query.actor_filter.map locale.lower <:+: name.map locale.lower) :=
    checked_all hv.actor fun fragment hf => by
      rw [free_text_ok hf, actor_matches, contains_pattern_eq, ilike_anywhere,
        Option.map_eq_some_iff]
      simp only [ilike_anywhere, Option.mem_def]
  have hfro : valid.from_time.all (fun time => decide (row.occurred_at ≥ stored_time time)) = true ↔
      ∀ time ∈ query.from_time, stored_time (Timestamp.nanoseconds time) ≤ row.occurred_at :=
    instants_all hv.from_time fun _ => decide_eq_true_iff
  have hunt : valid.until_time.all
        (fun time => decide (row.first_occurred_at ≤ stored_time time)) = true ↔
      ∀ time ∈ query.until_time, row.first_occurred_at ≤ stored_time (Timestamp.nanoseconds time) :=
    instants_all hv.until_time fun _ => decide_eq_true_iff
  have hver : valid.protocol_version.all (fun version =>
        row.protocol_version == version) = true ↔
      (query.protocol_version ≠ [] → row.protocol_version = query.protocol_version) :=
    checked_all hv.version fun version hf => by rw [protocol_version_ok hf, beq_iff_eq]
  have hkin : (valid.kinds.isEmpty || valid.kinds.contains row.kind) = true ↔
      ∀ kinds ∈ query.kinds, kinds ≠ [] → row.kind ∈ kinds := by
    rw [hv.kinds, Bool.or_eq_true, List.isEmpty_iff, List.contains_iff_mem]
    simp only [Option.mem_def, Option.some.injEq, forall_eq', or_iff_not_imp_left, ne_eq]
  simp only [filters, event_filter, Bool.and_eq_true, hpat, htex, hact, hfro, hunt,
    hver, hkin]
  constructor
  · rintro ⟨⟨⟨⟨⟨⟨hpat, htex⟩, hact⟩, hfro⟩, hunt⟩, hver⟩, hkin⟩
    exact ⟨hpat, htex, hact, hfro, hunt, hver, hkin⟩
  · rintro ⟨hpat, htex, hact, hfro, hunt, hver, hkin⟩
    exact ⟨⟨⟨⟨⟨⟨hpat, htex⟩, hact⟩, hfro⟩, hunt⟩, hver⟩, hkin⟩

theorem in_element_iff {path : ConfigPath} (h : operation_path path.path = true)
    (row : StoredEvent) : in_element (element_scope path) row = true ↔ InHistory path row := by
  have hfol : (element_scope path).path = path.fold := rfl
  have habo : (element_scope path).ancestors.contains row.path_fold = true ↔
      row.display_path.segs <+: path.segs ∧ row.display_path.segs ≠ path.segs := by
    rw [contains_iff_mem, element_ancestors h, ← mem_proper_prefixes, mem_map]
    constructor
    · rintro ⟨ss, hss, htex⟩
      have hok := path.foldSegments_segs.initial (mem_proper_prefixes.mp hss).1
      rwa [(ConfigPath.fold_eq_iff hok).mp htex.symm]
    · exact fun hss => ⟨_, hss, row.display_path.fold_eq.symm⟩
  have hpar : row.path_fold = (element_scope path).parent ↔
      row.display_path.segs = path.segs.dropLast := by
    rw [element_parent h]
    exact ConfigPath.fold_eq_iff (path.foldSegments_segs.initial ( dropLast_prefix _))
  simp only [in_element, hfol, Bool.or_eq_true, Bool.and_eq_true, beq_iff_eq, habo, hpar]
  exact or_assoc

theorem element_iff (h : validate query = .ok valid) (row : StoredEvent) :
    valid.element.all (in_element · row) = true ↔ InScope query row := by
  refine checked_all (validate_ok h).element fun scope hsco => ?_
  unfold element at hsco
  cases hpar : ConfigPath.parse_operation query.element_path with
  | error _ => simp [hpar] at hsco
  | ok path =>
    rw [hpar] at hsco
    obtain rfl := Except.ok.inj hsco
    rw [in_element_iff (parse_operation_canonical hpar)]
    simp

theorem own_path_iff (principal : AuthenticatedPrincipal) (row : StoredEvent) :
    ((!CONNECTION_KINDS.contains row.kind
          && covered (some row.path_fold) (granted_prefixes principal .Read))
        || (CONNECTION_KINDS.contains row.kind
          && covered (some row.path_fold) (granted_prefixes principal .Manage))) = true ↔
      principal.allows row.display_path
        (if CONNECTION_KINDS.contains row.kind then .Manage else .Read) = true := by
  rw [← covered_iff_allows, ← StoredEvent.path_fold]
  cases CONNECTION_KINDS.contains row.kind with
  | true => simp
  | false => simp

theorem counterpart_iff (principal : AuthenticatedPrincipal) (row : StoredEvent) :
    covered row.counterpart_fold (granted_prefixes principal .Read) = true ↔
      row.counterpart_display_path.any (principal.allows · .Read) = true ∨
        (RootReader principal ∧ row.counterpart_display_path = none) := by
  unfold StoredEvent.counterpart_fold
  cases row.counterpart_display_path with
  | none => simp [covered_none, RootReader]
  | some path =>
    rw [Option.map_some, covered_iff_allows]
    simp

theorem Leaks.allows (h : Leaks principal row) :
    principal.allows row.display_path
      (if CONNECTION_KINDS.contains row.kind then .Manage else .Read) = true := by
  obtain ⟨hroo, hkin, -⟩ := h
  rw [hkin]
  exact hroo.allows row.display_path

theorem Leaks.not_visible (h : Leaks principal row) : visible principal row = false := by
  obtain ⟨-, hkin, hnone⟩ := h
  simp [visible, hkin, hnone]

theorem scope_iff (h : validate query = .ok valid) (principal : AuthenticatedPrincipal) (n : ℕ)
    (row : StoredEvent) :
    scope (event_filter principal valid n) row = true ↔
      (visible principal row = true ∨ Leaks principal row) ∧ InScope query row := by
  simp only [scope, event_filter]
  rw [Bool.and_eq_true, Bool.and_eq_true, own_path_iff, element_iff h]
  refine and_congr_left fun _ => ?_
  rw [Bool.or_eq_true, counterpart_iff, bne_iff_ne, visible, Bool.and_eq_true, Bool.or_eq_true,
    bne_iff_ne]
  constructor
  · rintro ⟨hown, hkin | hcou | ⟨hroo, hnone⟩⟩
    · exact Or.inl ⟨hown, Or.inl hkin⟩
    · exact Or.inl ⟨hown, Or.inr hcou⟩
    · by_cases hkin : row.kind = .ValuePathAdded
      · exact Or.inr ⟨hroo, hkin, hnone⟩
      · exact Or.inl ⟨hown, Or.inl hkin⟩
  · rintro (⟨hown, hkin | hcou⟩ | hlea)
    · exact ⟨hown, Or.inl hkin⟩
    · exact ⟨hown, Or.inr (Or.inl hcou)⟩
    · exact ⟨hlea.allows, Or.inr (Or.inr ⟨hlea.1, hlea.2.2⟩)⟩

/-! ## The answer from what is visible -/

open Classical in
/-- The page that a query is owed, `rows` being the events visible to the caller: those in scope
are counted, and those of them that satisfy the filters counted and shown. -/
noncomputable def expected (self : AuditTrailService) (query : TrailQuery)
    (after : Option (ℤ ×ₗ ℤ)) (rows : List StoredEvent) : AuditPage :=
  let in_scope := rows.filter fun row => decide (InScope query row)
  let matching := in_scope.filter fun row => decide (Satisfies self.locale query row)
  let read := remaining StoredEvent.position after matching
  let events := read.take (self.effective query)
  { events := events.map (entry_of self)
    next_cursor :=
      if self.effective query < read.length then events.getLast?.map cursor_after else none
    counts :=
      if query.counts = true ∧ query.cursor = [] then some ⟨in_scope.length, matching.length⟩
      else none }

theorem first_page_iff (h : validate query = .ok valid) :
    (query.counts && valid.after.isNone) = true ↔ query.counts = true ∧ query.cursor = [] := by
  rw [Bool.and_eq_true]
  refine and_congr_right fun _ => ?_
  rcases checked_ok (validate_ok h).cursor with ⟨hnil, hnone⟩ | ⟨hne, a, -, hsom⟩
  · simp [hnil, hnone]
  · simp [hne, hsom]

/-- The event is answered: it is visible, or it leaks. -/
def Seen (principal : AuthenticatedPrincipal) (row : StoredEvent) : Prop :=
  visible principal row = true ∨ Leaks principal row

theorem not_seen (hread : granted_prefixes principal .Read = [])
    (hman : granted_prefixes principal .Manage = []) (row : StoredEvent) :
    ¬ Seen principal row := by
  have hnone : ∀ permission path, granted_prefixes principal permission = [] →
      principal.allows path permission ≠ true := by
    intro permission path hemp hall
    rw [← covered_iff_allows, hemp, covered_some] at hall
    simp at hall
  rintro (hvis | ⟨hroo, -⟩)
  · rw [visible, Bool.and_eq_true] at hvis
    split_ifs at hvis
    · exact hnone _ _ hman hvis.1
    · exact hnone _ _ hread hvis.1
  · rw [RootReader, hread] at hroo
    exact not_mem_nil hroo

section Answer

open Classical

variable (self : AuditTrailService) (principal : AuthenticatedPrincipal) {query : TrailQuery}
  {valid : ValidQuery}

theorem scope_rows (h : validate query = .ok valid) (n : ℕ) (rows : List StoredEvent) :
    rows.filter (scope (event_filter principal valid n))
      = (rows.filter fun row => decide (Seen principal row)).filter
          fun row => decide (InScope query row) := by
  rw [filter_filter]
  refine filter_congr fun row _ => ?_
  rw [Bool.eq_iff_iff, scope_iff h, Bool.and_eq_true, decide_eq_true_iff, decide_eq_true_iff]
  exact and_comm

theorem matching_rows (h : validate query = .ok valid) (locale : CaseFold) (n : ℕ)
    (rows : List StoredEvent) :
    rows.filter (fun row => scope (event_filter principal valid n) row
        && filters locale (event_filter principal valid n) row)
      = ((rows.filter fun row => decide (Seen principal row)).filter
          fun row => decide (InScope query row)).filter
          fun row => decide (Satisfies locale query row) := by
  rw [← scope_rows principal h n, filter_filter]
  refine filter_congr fun row _ => ?_
  rw [Bool.and_comm, Bool.eq_iff_iff, Bool.and_eq_true, Bool.and_eq_true, filters_iff h,
    decide_eq_true_iff]

theorem page_eq (filter : EventFilter) (n : ℕ) (hlim : filter.limit = n + 1) (trail : Trail) :
    page self (query_events self.locale filter trail) n
      = .ok (let read := remaining StoredEvent.position filter.after
              (trail.rows.filter fun row => scope filter row && filters self.locale filter row)
            ⟨(read.take n).map (entry_of self),
              if n < read.length then (read.take n).getLast?.map cursor_after else none, none⟩) := by
  have hval : ∀ row ∈ query_events self.locale filter trail, row.Valid := by
    intro row hrow
    have hmem := (mem_remaining.mp (mem_of_mem_take hrow)).1
    exact trail.valid row (mem_of_mem_filter hmem)
  rw [page_ok self hval, query_events, hlim]
  simp only [lt_length_fetch, ← shown_eq]

theorem query_audit_trail_eq {context : CallContext} (hp : context.principal = .ok principal)
    (h : validate query = .ok valid) (trail : Trail) :
    query_audit_trail self context query trail
      = .ok (expected self query valid.after
          (trail.rows.filter fun row => decide (Seen principal row))) := by
  have hfir := first_page_iff h
  unfold query_audit_trail expected
  rw [h, hp]
  simp only [bind, Except.bind, pure, Except.pure]
  by_cases hnone : ((granted_prefixes principal .Read).isEmpty
      && (granted_prefixes principal .Manage).isEmpty) = true
  · rw [if_pos hnone]
    rw [Bool.and_eq_true, List.isEmpty_iff, List.isEmpty_iff] at hnone
    have hrow : (trail.rows.filter fun row => decide (Seen principal row)) = [] :=
      List.filter_eq_nil_iff.mpr fun row _ => by simpa using not_seen hnone.1 hnone.2 row
    have hemp : remaining StoredEvent.position valid.after [] = [] := rfl
    simp only [hrow, filter_nil, hemp, take_nil, map_nil, length_nil,
      not_lt_zero, if_false, hfir]
  · rw [if_neg hnone, page_eq self _ _ rfl, matching_rows principal h]
    simp only [count_events, countP_eq_length_filter, scope_rows principal h,
      matching_rows principal h, hfir]
    by_cases hcou : query.counts = true ∧ query.cursor = []
    · rw [if_pos hcou, if_pos hcou]
      rfl
    · rw [if_neg hcou, if_neg hcou]
      rfl

end Answer

/-! ## What is owed -/

theorem seen_rows (h : ¬ Exposed principal trail) [DecidablePred (Seen principal)] :
    (trail.rows.filter fun row => decide (Seen principal row))
      = trail.rows.filter (visible principal) := by
  refine filter_congr fun row hrow => ?_
  have hlea : ¬ Leaks principal row := fun hlea => h ⟨row, hrow, hlea⟩
  rw [Bool.eq_iff_iff, decide_eq_true_iff, Seen]
  exact or_iff_left hlea

def everything : TrailQuery := ⟨[], [], [], none, none, [], some [], 0, [], [], true⟩

theorem total_everything (self : AuditTrailService) (rows : List StoredEvent) :
    (expected self everything none rows).counts.map AuditCounts.total = some rows.length := by
  classical
  have hsco : (rows.filter fun row => decide (InScope everything row)) = rows :=
    filter_eq_self.mpr fun row _ => decide_eq_true fun hne => absurd rfl hne
  have hcou : everything.counts = true ∧ everything.cursor = [] := ⟨rfl, rfl⟩
  simp only [expected, if_pos hcou, Option.map_some]
  rw [hsco]

theorem visible_rows (principal : AuthenticatedPrincipal) [DecidablePred (Seen principal)]
    (rows : List StoredEvent) :
    rows.filter (visible principal)
      = (rows.filter fun row => decide (Seen principal row)).filter (visible principal) := by
  rw [filter_filter]
  refine filter_congr fun row _ => ?_
  by_cases hvis : visible principal row = true
  · rw [hvis, Bool.true_and, eq_comm, decide_eq_true_iff]
    exact Or.inl hvis
  · rw [Bool.not_eq_true] at hvis
    rw [hvis, Bool.false_and]

theorem leak_counted (self : AuditTrailService) (h : Exposed principal trail)
    [DecidablePred (Seen principal)] :
    expected self everything none (trail.rows.filter fun row => decide (Seen principal row))
      ≠ expected self everything none (trail.rows.filter (visible principal)) := by
  intro heq
  obtain ⟨row, hrow, hlea⟩ := h
  have htot := congrArg (fun page => page.counts.map AuditCounts.total) heq
  simp only [total_everything, Option.some.injEq] at htot
  -- The leaking event is one more: it is seen, and it is not visible.
  have hsee : row ∈ trail.rows.filter fun row => decide (Seen principal row) :=
    mem_filter.mpr ⟨hrow, decide_eq_true (Or.inr hlea)⟩
  have hlt := length_filter_lt_length_iff_exists.mpr
    ⟨row, hsee, (Bool.not_eq_true _).mpr hlea.not_visible⟩
  rw [← visible_rows] at hlt
  omega

theorem expected_perm (self : AuditTrailService) (query : TrailQuery) (after : Option (ℤ ×ₗ ℤ))
    {rows rows' : List StoredEvent} (hper : rows.Perm rows')
    (hid : (rows.map StoredEvent.id).Nodup) :
    expected self query after rows = expected self query after rows' := by
  classical
  have hsco := hper.filter fun row => decide (InScope query row)
  have hmat := hsco.filter fun row => decide (Satisfies self.locale query row)
  have hread := descending_congr (hmat.filter (before StoredEvent.position after))
    (nodup_positions <| hid.sublist <| List.Sublist.map _ <|
      (filter_sublist.trans filter_sublist).trans filter_sublist)
  simp only [expected, remaining]
  rw [hread, hsco.length_eq, hmat.length_eq]

theorem visible_perm {trail' : Trail}
    (h : ∀ row, visible principal row = true → (row ∈ trail.rows ↔ row ∈ trail'.rows)) :
    (trail.rows.filter (visible principal)).Perm (trail'.rows.filter (visible principal)) := by
  have hnod : ∀ trail : Trail, (trail.rows.filter (visible principal)).Nodup := fun trail =>
    (List.Nodup.of_map _ trail.unique_id).filter _
  refine (perm_ext_iff_of_nodup (hnod trail) (hnod trail')).mpr fun row => ?_
  rw [mem_filter, mem_filter]
  exact and_congr_left fun hvis => h row hvis

/-- **Audit visibility is the grant check, unless an alias event lost its other path.** -/
theorem trail_shows_visible_unless_exposed (self : AuditTrailService) (context : CallContext)
    (principal : AuthenticatedPrincipal) (hp : context.principal = .ok principal) (trail : Trail) :
    ((∀ query valid, validate query = .ok valid →
        query_audit_trail self context query trail
          = .ok (expected self query valid.after (trail.rows.filter (visible principal))))
      ↔ ¬ Exposed principal trail) ∧
    ∀ trail' : Trail, ¬ Exposed principal trail → ¬ Exposed principal trail' →
      (∀ row, visible principal row = true → (row ∈ trail.rows ↔ row ∈ trail'.rows)) →
      ∀ query, query_audit_trail self context query trail
        = query_audit_trail self context query trail' := by
  classical
  have howe : ∀ trail : Trail, ¬ Exposed principal trail → ∀ query valid,
      validate query = .ok valid → query_audit_trail self context query trail
        = .ok (expected self query valid.after (trail.rows.filter (visible principal))) := by
    intro trail hcle query valid hval
    rw [query_audit_trail_eq self principal hp hval, seen_rows hcle]
  refine ⟨⟨fun hall hexp => ?_, howe trail⟩, fun trail' hcle hcle' hsam query => ?_⟩
  · have hval : validate everything = .ok ⟨none, none, none, none, none, none, none, [], none⟩ :=
      rfl
    have heq := hall everything _ hval
    rw [query_audit_trail_eq self principal hp hval] at heq
    exact leak_counted self hexp (Except.ok.inj heq)
  · cases hval : validate query with
    | error e =>
      simp only [query_audit_trail, hval]
      rfl
    | ok valid =>
      rw [howe trail hcle query valid hval, howe trail' hcle' query valid hval,
        expected_perm self query valid.after (visible_perm hsam)]
      exact List.Nodup.sublist (List.Sublist.map _ filter_sublist) trail.unique_id

def aliased (counterpart : Option ConfigPath) : StoredEvent where
  id := 1
  kind := .ValuePathAdded
  display_path := ⟨"/b".toList, by decide⟩
  counterpart_display_path := counterpart
  occurred_at := 0
  first_occurred_at := 0
  event_count := 1
  actor_subject := "operator".toList
  actor_name := none
  protocol_version := "v5".toList
  old_value := none
  new_value := none
  narrative := "operator added the path /b".toList
  coalesce_digest := none
  recorded_actor_name := none
  recorded_narrative := none

def aliased_trail (counterpart : Option ConfigPath) : Trail :=
  ⟨[aliased counterpart], nodup_singleton _, by
    intro row hrow
    rw [mem_singleton.mp hrow]
    exact ⟨by simp [aliased], by simp [aliased], ⟨0, rfl⟩, rfl, le_refl _⟩⟩

def plain_service : AuditTrailService :=
  ⟨2, ⟨id, fun _ _ => rfl, fun _ h => h⟩, fun _ => []⟩

/-- With its other path recorded, a root reader is shown the event because they may read both. -/
theorem trail_shows_recorded_alias :
    let trail := aliased_trail (some ⟨"/a".toList, by decide⟩)
    operator.principal = .ok operator_principal ∧ ¬ Exposed operator_principal trail ∧
      ∀ query valid, validate query = .ok valid →
        query_audit_trail plain_service operator query trail
          = .ok (expected plain_service query valid.after
              (trail.rows.filter (visible operator_principal))) := by
  intro trail
  have hcle : ¬ Exposed operator_principal trail := by
    rintro ⟨row, hrow, -, -, hnone⟩
    rw [mem_singleton.mp hrow] at hnone
    exact absurd hnone (by simp [aliased])
  exact ⟨rfl, hcle,
    (trail_shows_visible_unless_exposed plain_service operator operator_principal rfl trail).1.mpr
      hcle⟩

/-- Without it the event is visible to nobody, and a root reader is counted and shown it. -/
theorem incomplete_alias_shown_to_root_reader :
    (∀ row ∈ (aliased_trail none).rows, visible operator_principal row = false) ∧
      query_audit_trail plain_service operator everything (aliased_trail none)
        = .ok ⟨[entry_of plain_service (aliased none)], none, some ⟨1, 1⟩⟩ := by
  refine ⟨fun row hrow => ?_, rfl⟩
  rw [mem_singleton.mp hrow]
  rfl

end SovereignConfig.Audit
