/-
The audit view's filter form (`build_query` of `audit.rs`) and what the audit service makes of it
(`validate`). `f64` arithmetic is the exact one followed by a rounding.
-/
import SovereignConfig.Audit.Visibility
import SovereignConfig.Lib.Rounding

namespace SovereignConfig.Web

open Lib Text Audit

inductive KindGroup where
  | Changes
  | SecretReveals
  | AccessUrls
  | Reads
deriving DecidableEq

namespace KindGroup

def ALL : List KindGroup := [Changes, SecretReveals, AccessUrls, Reads]

def kinds : KindGroup → List EventKind
  | Changes => [.ValueCreated, .ValueUpdated, .ValueDeleted, .ValuePathAdded, .SubtreeReplaced,
      .SubtreeDeleted]
  | SecretReveals => [.SecretRevealed]
  | AccessUrls => [.ConnectionCreated, .ConnectionRotated, .ConnectionRevoked]
  | Reads => [.SubtreeRead, .ValuesListed]

end KindGroup

structure FilterInput where
  path : Text
  text : Text
  actor : Text
  from_time : Option Timestamp
  until_time : Option Timestamp
  protocol_version : Text
  groups : List KindGroup

structure FilterError where
  field : String
  message : String
deriving DecidableEq

structure AuditQuery where
  path_filter : Option Text
  element_path : Option ConfigPath
  text_filter : Option Text
  from_time : Option Timestamp
  until_time : Option Timestamp
  protocol_version : Option Text
  kinds : List EventKind
  page_size : ℕ
  cursor : Option Text
  actor_filter : Option Text
deriving DecidableEq

def report (wrong : Bool) (field message : String) : List FilterError :=
  if wrong then [⟨field, message⟩] else []

def is_after (start finish : Timestamp) : Bool :=
  decide (start.seconds > finish.seconds) ||
    (decide (start.seconds = finish.seconds) && decide (start.nanos > finish.nanos))

def path_filter (input : FilterInput) (element : Option ConfigPath) : Option Text :=
  if element.isNone && !(trim input.path).isEmpty then some (trim input.path) else none

/-! The web crate repeats the bounds of the audit service. -/

def MAX_PATH_FILTER_CHARACTERS : ℕ := 512

def MAX_TEXT_FILTER_CHARACTERS : ℕ := 256

def MAX_PROTOCOL_VERSION_CHARACTERS : ℕ := 32

def path_refused (path : Text) : Bool :=
  decide (byte_len path > MAX_PATH_FILTER_CHARACTERS) ||
    !path.all (fun c => c.isAlphanum || c == '_' || c == '-' || c == '/')

def text_refused (text : Text) : Bool :=
  decide (text.length > MAX_TEXT_FILTER_CHARACTERS) || contains_char text '\x00'

def version_refused (version : Text) : Bool :=
  decide (byte_len version > MAX_PROTOCOL_VERSION_CHARACTERS) ||
    !version.all (fun c => c.isLower || c.isDigit)

def filter_errors (input : FilterInput) (element : Option ConfigPath) : List FilterError :=
  report ((path_filter input element).any path_refused)
      "audit-path-filter" "use only letters, digits, _, - and /, at most 512 of them" ++
  report (text_refused (trim input.text)) "audit-text-filter" "enter at most 256 characters" ++
  report (text_refused (trim input.actor)) "audit-actor-filter" "enter at most 256 characters" ++
  report (version_refused (trim input.protocol_version))
      "audit-protocol" "enter a version label such as v4" ++
  report (input.from_time.any fun start => input.until_time.any (is_after start ·))
      "audit-until" "choose a time after the start of the range" ++
  report input.groups.isEmpty "audit-kinds" "choose at least one kind of event"

def ticked_kinds (groups : List KindGroup) : List EventKind :=
  if KindGroup.ALL.all (groups.contains ·) then []
  else (KindGroup.ALL.filter (groups.contains ·)).flatMap KindGroup.kinds

def build_query (input : FilterInput) (element : Option ConfigPath) :
    Except (List FilterError) AuditQuery :=
  let errors := filter_errors input element
  if !errors.isEmpty then .error errors
  else .ok {
    path_filter := path_filter input element
    element_path := element
    text_filter := non_empty (trim input.text)
    from_time := input.from_time
    until_time := input.until_time
    protocol_version := non_empty (trim input.protocol_version)
    kinds := ticked_kinds input.groups
    page_size := 0
    cursor := none
    actor_filter := non_empty (trim input.actor) }

def audit_request (query : AuditQuery) (counts : Bool) : TrailQuery where
  path_filter := query.path_filter.getD []
  element_path := (query.element_path.map ConfigPath.as_str).getD []
  text_filter := query.text_filter.getD []
  from_time := query.from_time
  until_time := query.until_time
  protocol_version := query.protocol_version.getD []
  kinds := some query.kinds
  page_size := query.page_size
  cursor := query.cursor.getD []
  actor_filter := query.actor_filter.getD []
  counts := counts

/-! ## Instants -/

/-- `f64::round`: to the nearest whole number, half-way cases away from zero. -/
def round_away (x : ℚ) : ℤ := if 0 ≤ x then ⌊x + 1 / 2⌋ else ⌈x - 1 / 2⌉

/-- `as` of a whole `f64`, which stops at the ends of the type. -/
def saturate (bits : ℕ) (n : ℤ) : ℤ := max (-(2 ^ (bits - 1))) (min n (2 ^ (bits - 1) - 1))

/-- A browser instant as a timestamp; none is an `f64` that is not finite. `round` is the rounding
of `f64`. -/
def timestamp_from_millis (round : ℚ → ℚ) (milliseconds : Option ℚ) : Option Timestamp :=
  milliseconds.map fun milliseconds =>
    let seconds := ⌊round (milliseconds / 1000)⌋
    let nanos := round_away (round (round (milliseconds - round (seconds * 1000)) * 1000000))
    ⟨saturate 64 seconds, saturate 32 nanos⟩

/-- The last instant of the minute `at` starts. -/
def end_of_minute (start : Timestamp) : Timestamp :=
  ⟨start.seconds - start.seconds % 60 + 59, 999999999⟩

def MAX_DATE : ℤ := 8640000000000000

/-- The rounding of `f64`, away from its subnormal numbers and its overflow. -/
abbrev F64Rounding (round : ℚ → ℚ) : Prop := Rounding 53 (2 ^ 1022) round

variable {round : ℚ → ℚ} {input : FilterInput} {text : Text}

theorem timestamp_from_whole_millis (h : F64Rounding round) {ms : ℤ} (hms : |ms| ≤ MAX_DATE) :
    timestamp_from_millis round (some ms) =
      some ⟨ms / 1000, ms % 1000 * 1000000⟩ := by
  have hbou := abs_le.mp hms
  simp only [MAX_DATE] at hbou
  have hflo : ⌊round ((ms : ℚ) / 1000)⌋ = ms / 1000 := by
    have hlt : |ms| < 2 ^ 53 := lt_of_le_of_lt hms (by norm_num [MAX_DATE])
    have htho : ((1000 : ℤ) : ℚ) ≤ 2 ^ 1022 :=
      le_trans (b := 2 ^ 10) (by norm_num) (pow_le_pow_right₀ one_le_two (by norm_num))
    have hpre : (2 ^ 53 : ℚ) ≤ 2 ^ 1022 := pow_le_pow_right₀ one_le_two (by norm_num)
    exact_mod_cast h.floor_div hlt (by norm_num) htho hpre
  have hexa : ∀ n : ℤ, -(2 ^ 53) ≤ n → n ≤ 2 ^ 53 → round (n : ℚ) = n :=
    fun n hlow hhig => h.exact n (abs_le.mpr ⟨hlow, hhig⟩)
  have hsec : round (((ms / 1000 : ℤ) : ℚ) * 1000) = ((ms / 1000 * 1000 : ℤ) : ℚ) := by
    have := hexa (ms / 1000 * 1000) (by omega) (by omega)
    exact_mod_cast this
  have hres : round ((ms : ℚ) - ((ms / 1000 * 1000 : ℤ) : ℚ)) = ((ms % 1000 : ℤ) : ℚ) := by
    have heq : ms - ms / 1000 * 1000 = ms % 1000 := by omega
    have := hexa (ms % 1000) (by omega) (by omega)
    rw [← this, ← heq, Int.cast_sub]
  have hnan : round (((ms % 1000 : ℤ) : ℚ) * 1000000) = ((ms % 1000 * 1000000 : ℤ) : ℚ) := by
    have := hexa (ms % 1000 * 1000000) (by omega) (by omega)
    exact_mod_cast this
  have hrou : ∀ n : ℤ, 0 ≤ n → round_away (n : ℚ) = n := fun n hn => by
    have hn' : (0 : ℚ) ≤ n := by exact_mod_cast hn
    rw [round_away, if_pos hn', Int.floor_eq_iff]
    constructor <;> linarith
  unfold timestamp_from_millis
  simp only [Option.map_some, hflo, hsec, hres, hnan]
  rw [hrou _ (by omega)]
  have hsat64 : saturate 64 (ms / 1000) = ms / 1000 := by
    simp only [saturate]
    omega
  have hsat32 : saturate 32 (ms % 1000 * 1000000) = ms % 1000 * 1000000 := by
    simp only [saturate]
    omega
  rw [hsat64, hsat32]

def within_years (timestamp : Timestamp) : Prop := in_range (timestamp.seconds * 1000000000) = true

theorem instant_of_nanos {timestamp : Timestamp}
    (hnan : 0 ≤ timestamp.nanos ∧ timestamp.nanos < 1000000000) : instant timestamp =
      if in_range (timestamp.seconds * 1000000000) = true
        then .ok (timestamp.seconds * 1000000000 + timestamp.nanos) else .error invalid_query := by
  unfold instant
  simp only [hnan, true_and]

/-- The times of the form are whole milliseconds that a browser can name. -/
structure BrowserTimes (round : ℚ → ℚ) (input : FilterInput) : Prop where
  from_time : ∀ t ∈ input.from_time,
    ∃ ms : ℤ, |ms| ≤ MAX_DATE ∧ timestamp_from_millis round (some ms) = some t
  until_time : ∀ t ∈ input.until_time, ∃ (ms : ℤ) (start : Timestamp), |ms| ≤ MAX_DATE ∧
    timestamp_from_millis round (some ms) = some start ∧ t = end_of_minute start

theorem BrowserTimes.nanos (h : BrowserTimes round input) (hrou : F64Rounding round) :
    (∀ t ∈ input.from_time, 0 ≤ t.nanos ∧ t.nanos < 1000000000) ∧
      ∀ t ∈ input.until_time, 0 ≤ t.nanos ∧ t.nanos < 1000000000 := by
  constructor
  · intro t ht
    obtain ⟨ms, hms, heq⟩ := h.from_time t ht
    obtain rfl := Option.some.inj ((timestamp_from_whole_millis hrou hms).symm.trans heq)
    show 0 ≤ ms % 1000 * 1000000 ∧ ms % 1000 * 1000000 < 1000000000
    omega
  · intro t ht
    obtain ⟨_, start, -, -, rfl⟩ := h.until_time t ht
    exact ⟨by norm_num [end_of_minute], by norm_num [end_of_minute]⟩

/-! ## What the service makes of the form -/

theorem report_eq_nil {wrong : Bool} {field message : String} :
    report wrong field message = [] ↔ wrong = false := by
  cases wrong <;> simp [report]

structure FormPassed (input : FilterInput) (element : Option ConfigPath) : Prop where
  path : (path_filter input element).any path_refused = false
  text : text_refused (trim input.text) = false
  actor : text_refused (trim input.actor) = false
  version : version_refused (trim input.protocol_version) = false
  ordered : (input.from_time.any fun start => input.until_time.any (is_after start ·)) = false

theorem build_query_ok {element : Option ConfigPath} {query : AuditQuery}
    (h : build_query input element = .ok query) : FormPassed input element ∧
      query = ⟨path_filter input element, element, non_empty (trim input.text), input.from_time,
        input.until_time, non_empty (trim input.protocol_version), ticked_kinds input.groups, 0,
        none, non_empty (trim input.actor)⟩ := by
  unfold build_query at h
  obtain ⟨herr, h⟩ := unless_eq_ok.mp h
  refine ⟨?_, (Except.ok.inj h).symm⟩
  have hnil : filter_errors input element = [] := by simpa using herr
  simp only [filter_errors, List.append_eq_nil_iff, report_eq_nil] at hnil
  obtain ⟨⟨⟨⟨⟨hpat, htex⟩, hact⟩, hver⟩, hord⟩, -⟩ := hnil
  exact ⟨hpat, htex, hact, hver, hord⟩

theorem getD_non_empty (text : Text) : (non_empty text).getD [] = text := by
  cases text <;> rfl

theorem checked_non_empty {check : Text → Except Status Text} (h : check text = .ok text) :
    checked ((non_empty text).getD []) check = .ok (non_empty text) := by
  rw [getD_non_empty]
  cases text with
  | nil => rfl
  | cons c text => simp [checked, non_empty, h, Except.map]

theorem free_text_of_form (h : text_refused text = false) : free_text_fragment text = .ok text := by
  simp only [text_refused, Bool.or_eq_false_iff, decide_eq_false_iff_not, not_lt] at h
  have hlen : text.length ≤ Audit.MAX_TEXT_FILTER_CHARACTERS := h.1
  simp [free_text_fragment, hlen, h]

theorem version_of_form {version : Text} (h : version_refused version = false) :
    protocol_version version = .ok version := by
  simp only [version_refused, Bool.or_eq_false_iff, decide_eq_false_iff_not, not_lt,
    Bool.not_eq_false'] at h
  have hlen : byte_len version ≤ Audit.MAX_PROTOCOL_VERSION_CHARACTERS := h.1
  simp only [protocol_version, hlen, h, decide_true, Bool.true_and, if_true]

theorem path_of_form {sent : Option Text} (h : sent.any path_refused = false) :
    ∃ fragment, checked (sent.getD []) path_fragment = .ok fragment ∧
      (fragment.isSome = true → sent.isSome = true) := by
  cases sent with
  | none => exact ⟨none, rfl, nofun⟩
  | some path =>
    simp only [Option.any_some, path_refused, Bool.or_eq_false_iff, decide_eq_false_iff_not,
      not_lt, Bool.not_eq_false'] at h
    have hlen : byte_len path ≤ Audit.MAX_PATH_FILTER_CHARACTERS := h.1
    have hche : path_fragment path = .ok (to_ascii_lowercase path) := by
      simp only [path_fragment, hlen, h, decide_true, Bool.true_and, if_true]
    cases path with
    | nil => exact ⟨none, rfl, nofun⟩
    | cons c path =>
      refine ⟨some (to_ascii_lowercase (c :: path)), ?_, fun _ => rfl⟩
      simp only [checked, non_empty, Option.getD_some, List.isEmpty_cons, Bool.false_eq_true,
        if_false, hche, Except.map]

theorem element_of_form {sent : Option ConfigPath} (h : ∀ path ∈ sent, path.path ≠ root_text) :
    checked ((sent.map ConfigPath.as_str).getD []) element = .ok (sent.map element_scope) := by
  cases sent with
  | none => rfl
  | some path =>
    have hope : operation_path path.path = true := path.canonical.resolve_left (h path rfl)
    have hpar : ConfigPath.parse_operation path.path = .ok path := by
      simp [ConfigPath.parse_operation, hope]
    have hne : path.path ≠ [] := fun hnil => by
      rw [hnil] at hope
      exact absurd hope (by decide)
    simp [checked, non_empty, ConfigPath.as_str, hne, element, hpar, Except.map]

theorem instants_of_form {sent : Option Timestamp}
    (hnan : ∀ t ∈ sent, 0 ≤ t.nanos ∧ t.nanos < 1000000000) :
    (∃ value, instants sent = .ok value) ↔ ∀ t ∈ sent, within_years t := by
  cases sent with
  | none => exact iff_of_true ⟨none, rfl⟩ (by simp)
  | some t =>
    simp only [instants, instant_of_nanos (hnan t rfl), Option.mem_some_iff, forall_eq',
      within_years]
    by_cases hran : in_range (t.seconds * 1000000000) = true
    · simp [hran, Except.map]
    · simp [hran, Except.map]

theorem ordered_of_form {start finish : Option Timestamp} {first last : Option OffsetDateTime}
    (hsta : ∀ t ∈ start, 0 ≤ t.nanos ∧ t.nanos < 1000000000)
    (hfin : ∀ t ∈ finish, 0 ≤ t.nanos ∧ t.nanos < 1000000000)
    (hord : (start.any fun start => finish.any (is_after start ·)) = false)
    (hfir : instants start = .ok first) (hlas : instants finish = .ok last) :
    ¬ (first.any fun start => last.any (start > ·)) = true := by
  cases start with
  | none =>
    obtain rfl := Except.ok.inj hfir
    simp
  | some t =>
    cases finish with
    | none =>
      obtain rfl := Except.ok.inj hlas
      simp
    | some t' =>
      simp only [instants, instant_of_nanos (hsta t rfl)] at hfir
      simp only [instants, instant_of_nanos (hfin t' rfl)] at hlas
      split at hfir
      · split at hlas
        · obtain rfl := Except.ok.inj hfir
          obtain rfl := Except.ok.inj hlas
          simp only [Option.any_some, is_after, Bool.or_eq_false_iff, Bool.and_eq_false_iff,
            decide_eq_false_iff_not] at hord
          have ht := hsta t rfl
          have ht' := hfin t' rfl
          simp only [Option.any_some, decide_eq_true_eq]
          intro hlat
          change (t'.seconds * 1000000000 + t'.nanos : ℤ) < t.seconds * 1000000000 + t.nanos
            at hlat
          omega
        · exact absurd hlas (by simp [Except.map])
      · exact absurd hfir (by simp [Except.map])

/-- **A filter the form accepts is one the service accepts, exactly when its times are within the
years -9999 to 9999.** -/
theorem sent_query_accepted_iff {round : ℚ → ℚ} (hround : F64Rounding round)
    {input : FilterInput} {element : Option ConfigPath} {query : AuditQuery}
    (htimes : BrowserTimes round input) (helement : ∀ path ∈ element, path.path ≠ root_text)
    (haccepted : build_query input element = .ok query) (counts : Bool) :
    (∃ valid, validate (audit_request query counts) = .ok valid) ↔
      (∀ t ∈ input.from_time, within_years t) ∧ ∀ t ∈ input.until_time, within_years t := by
  obtain ⟨hfrom, hunti⟩ := htimes.nanos hround
  obtain ⟨hfor, rfl⟩ := build_query_ok haccepted
  constructor
  · rintro ⟨valid, hval⟩
    have hv := validate_ok hval
    exact ⟨(instants_of_form hfrom).mp ⟨_, hv.from_time⟩,
      (instants_of_form hunti).mp ⟨_, hv.until_time⟩⟩
  · rintro ⟨hfrom_years, huntil⟩
    obtain ⟨from_time, hfro⟩ := (instants_of_form hfrom).mpr hfrom_years
    obtain ⟨until_time, hunt⟩ := (instants_of_form hunti).mpr huntil
    obtain ⟨fragment, hpat, hsen⟩ := path_of_form hfor.path
    refine ⟨⟨fragment, element.map element_scope, non_empty (trim input.text),
      non_empty (trim input.actor), from_time, until_time,
      non_empty (trim input.protocol_version), ticked_kinds input.groups, none⟩,
      validate_iff.mpr ⟨⟨hpat, element_of_form helement,
        checked_non_empty (free_text_of_form hfor.text),
        checked_non_empty (free_text_of_form hfor.actor),
        checked_non_empty (version_of_form hfor.version), hfro, hunt, rfl, rfl⟩, ?_,
        ordered_of_form hfrom hunti hfor.ordered hfro hunt⟩⟩
    -- A value's history sends no fragment of a path.
    rw [Bool.and_eq_true]
    rintro ⟨hfra, hsco⟩
    cases element with
    | none => simp at hsco
    | some path => exact absurd (hsen hfra) (by simp [path_filter])

def dated_form (day : ℤ) : FilterInput :=
  ⟨[], [' ', 'x', ' '], [], some ⟨day * 86400, 0⟩, some (end_of_minute ⟨day * 86400, 0⟩), ['v', '4'],
    [.Changes]⟩

def dated_query (day : ℤ) : AuditQuery :=
  ⟨none, none, some ['x'], some ⟨day * 86400, 0⟩, some (end_of_minute ⟨day * 86400, 0⟩),
    some ['v', '4'], KindGroup.kinds .Changes, 0, none, none⟩

/-- The first day of the epoch. -/
theorem first_day_accepted : build_query (dated_form 0) none = .ok (dated_query 0) ∧
    ∃ valid, validate (audit_request (dated_query 0) true) = .ok valid := by
  have hbui : build_query (dated_form 0) none = .ok (dated_query 0) := by decide
  have hmil : timestamp_from_millis id (some ((0 : ℤ) : ℚ)) = some ⟨0, 0⟩ :=
    timestamp_from_whole_millis (Rounding.id 53 _) (by norm_num [MAX_DATE])
  have htim : BrowserTimes id (dated_form 0) := by
    constructor
    · rintro _ ⟨⟩
      exact ⟨0, by norm_num [MAX_DATE], hmil⟩
    · rintro _ ⟨⟩
      exact ⟨0, ⟨0, 0⟩, by norm_num [MAX_DATE], hmil, rfl⟩
  refine ⟨hbui, (sent_query_accepted_iff (Rounding.id 53 _) htim (by simp) hbui true).mpr ?_⟩
  constructor
  · rintro _ ⟨⟩
    exact (by decide : in_range (0 * 86400 * 1000000000) = true)
  · rintro _ ⟨⟩
    exact (by decide : in_range ((end_of_minute ⟨0 * 86400, 0⟩).seconds * 1000000000) = true)

/-- The first day of the year 10000, which a browser's `Date` holds. -/
theorem year_10000_sent_and_refused :
    |(253402300800000 : ℤ)| ≤ MAX_DATE ∧
    timestamp_from_millis id (some 253402300800000) = some ⟨2932897 * 86400, 0⟩ ∧
    build_query (dated_form 2932897) none = .ok (dated_query 2932897) ∧
    validate (audit_request (dated_query 2932897) true) = .error invalid_query := by
  have hdat : |(253402300800000 : ℤ)| ≤ MAX_DATE := by norm_num [MAX_DATE]
  exact ⟨hdat, timestamp_from_whole_millis (Rounding.id 53 _) hdat, by decide, rfl⟩

end SovereignConfig.Web
