/-
`sovereign-config-core/src/status.rs`: the version a session speaks. The loop is two searches, one
after the other (`select_eq`).
-/
import SovereignConfig.Client
import SovereignConfig.Lib.Checks

namespace SovereignConfig

open Lib List

inductive ProtocolVersion where
  | V5
  | V4
  | V3
deriving DecidableEq

namespace ProtocolVersion

def ALL : List ProtocolVersion := [.V5, .V4, .V3]

def as_str : ProtocolVersion → Text
  | .V5 => "v5".toList
  | .V4 => "v4".toList
  | .V3 => "v3".toList

def parse (text : Text) : Option ProtocolVersion := ALL.find? fun version => version.as_str == text

theorem as_str_of_parse {text : Text} {version : ProtocolVersion} (h : parse text = some version) :
    version.as_str = text := by
  have hfou := find?_some (p := fun version : ProtocolVersion => version.as_str == text) h
  exact eq_of_beq hfou

end ProtocolVersion

structure ServedVersion where
  version : Text
  deprecation_date : Option Text
deriving DecidableEq

/-! ## The service's text, for an operator -/

def NAMED_VERSION_LIMIT : ℕ := 8

def NAMED_VERSION_LENGTH : ℕ := 16

def DEPRECATION_DATE_LENGTH : ℕ := 40

def version_char (c : Char) : Bool := c.isAlphanum || c == '.' || c == '-' || c == '_'

def date_char (c : Char) : Bool := c.isAlphanum || c == ':' || c == '+' || c == '-' || c == '.'

/-- A text cut to a length, with `?` for every character that is not allowed. -/
def sanitise_to (limit : ℕ) (allowed : Char → Bool) (text : Text) : Text :=
  (text.take limit).map fun c => if allowed c then c else '?'

def sanitise (version : Text) : Text := sanitise_to NAMED_VERSION_LENGTH version_char version

def sanitise_date (date : Text) : Text := sanitise_to DEPRECATION_DATE_LENGTH date_char date

/-- A text of at most `limit` characters, all of them allowed or the `?` of those that were
not. -/
def Clean (limit : ℕ) (allowed : Char → Bool) (text : Text) : Prop :=
  text.length ≤ limit ∧ ∀ c ∈ text, allowed c = true ∨ c = '?'

theorem clean_sanitise_to (limit : ℕ) (allowed : Char → Bool) (text : Text) :
    Clean limit allowed (sanitise_to limit allowed text) := by
  constructor
  · rw [sanitise_to, length_map, length_take]
    exact Nat.min_le_left _ _
  · intro c hc
    obtain ⟨b, -, rfl⟩ := mem_map.mp hc
    split_ifs with hb
    · exact Or.inl hb
    · exact Or.inr rfl

def join (names : List Text) : Text := [',', ' '].intercalate names

def describe_served (served : List ServedVersion) : Text :=
  if served.isEmpty then "none".toList
  else
    join ((served.take NAMED_VERSION_LIMIT).map fun entry => sanitise entry.version)
      ++ if served.length > NAMED_VERSION_LIMIT then ", …".toList else []

def describe_spoken : Text := join (ProtocolVersion.ALL.map ProtocolVersion.as_str)

def incompatible_intro : Text :=
  "service protocol is incompatible: this client speaks ".toList ++ describe_spoken
    ++ ", the service serves ".toList

def incompatible (served : List ServedVersion) : ClientError :=
  ⟨.IncompatibleProtocol, String.ofList (incompatible_intro ++ describe_served served)⟩

theorem describe_served_clean (served : List ServedVersion) :
    ∃ (names : List Text) (more : Bool), names.length ≤ NAMED_VERSION_LIMIT ∧
      (∀ name ∈ names, Clean NAMED_VERSION_LENGTH version_char name) ∧
      describe_served served = join names ++ if more then ", …".toList else [] := by
  unfold describe_served
  split_ifs with hemp hmor
  · refine ⟨["none".toList], false, by decide, fun name hnam => ?_, rfl⟩
    have hnone : sanitise "none".toList = "none".toList := by decide
    rw [mem_singleton.mp hnam, ← hnone]
    exact clean_sanitise_to _ _ _
  all_goals
    refine ⟨(served.take NAMED_VERSION_LIMIT).map fun entry => sanitise entry.version, ?_⟩
    have hlim : ((served.take NAMED_VERSION_LIMIT).map fun entry =>
        sanitise entry.version).length ≤ NAMED_VERSION_LIMIT := by
      rw [length_map, length_take]
      exact Nat.min_le_left _ _
    have hcle : ∀ name ∈ (served.take NAMED_VERSION_LIMIT).map fun entry =>
        sanitise entry.version, Clean NAMED_VERSION_LENGTH version_char name := by
      intro name hnam
      obtain ⟨entry, -, rfl⟩ := mem_map.mp hnam
      exact clean_sanitise_to _ _ _
  · exact ⟨true, hlim, hcle, rfl⟩
  · exact ⟨false, hlim, hcle, rfl⟩

/-! ## Selection -/

structure ServiceStatus where
  protocol_version : ProtocolVersion
  /-- Set when the version carries an announced retirement date. -/
  deprecation_date : Option Text
deriving DecidableEq

namespace ServiceStatus

def of_entry (entry : ServedVersion) : Option ServiceStatus :=
  (ProtocolVersion.parse entry.version).map fun version =>
    ⟨version, entry.deprecation_date.map sanitise_date⟩

def select_from (served : List ServedVersion) (deprecated : Option ServedVersion) :
    List ServedVersion → Except ClientError ServiceStatus
  | [] => ok_or (deprecated.bind of_entry) (incompatible served)
  | entry :: rest =>
    match ProtocolVersion.parse entry.version with
    | none => select_from served deprecated rest
    | some version =>
      match entry.deprecation_date with
      | none => .ok ⟨version, none⟩
      -- `get_or_insert`: a candidate that is there already stays.
      | some _ => select_from served (deprecated.or (some entry)) rest

def select (served : List ServedVersion) : Except ClientError ServiceStatus :=
  select_from served none served

end ServiceStatus

def ServedVersion.spoken (self : ServedVersion) : Bool :=
  (ProtocolVersion.parse self.version).isSome

def ServedVersion.current (self : ServedVersion) : Bool :=
  self.spoken && self.deprecation_date.isNone

namespace ServiceStatus

def choice (served : List ServedVersion) : Option ServedVersion :=
  (served.find? ServedVersion.current).or (served.find? ServedVersion.spoken)

theorem select_from_eq (served rest : List ServedVersion) (deprecated : Option ServedVersion) :
    select_from served deprecated rest = ok_or (((rest.find? ServedVersion.current).or
          (deprecated.or (rest.find? ServedVersion.spoken))).bind of_entry)
        (incompatible served) := by
  induction rest generalizing deprecated with
  | nil => rw [select_from, find?_nil, find?_nil, Option.none_or, Option.or_none]
  | cons entry rest ih =>
    rw [select_from]
    cases hpar : ProtocolVersion.parse entry.version with
    | none =>
      have hspo : entry.spoken = false := by rw [ServedVersion.spoken, hpar]; rfl
      have hcur : entry.current = false := by rw [ServedVersion.current, hspo]; rfl
      rw [find?_cons_of_neg (by simp [hcur]), find?_cons_of_neg (by simp [hspo])]
      exact ih deprecated
    | some version =>
      have hspo : entry.spoken = true := by rw [ServedVersion.spoken, hpar]; rfl
      cases hdat : entry.deprecation_date with
      | none =>
        have hcur : entry.current = true := by
          rw [ServedVersion.current, hspo, hdat]; rfl
        rw [find?_cons_of_pos hcur, Option.some_or, Option.bind_some, of_entry, hpar,
          hdat]
        rfl
      | some date =>
        have hcur : entry.current = false := by
          rw [ServedVersion.current, hspo, hdat]; rfl
        rw [find?_cons_of_neg (by simp [hcur]), find?_cons_of_pos hspo]
        simp only [ih, Option.or_assoc, Option.some_or]

theorem select_eq (served : List ServedVersion) :
    select served = ok_or ((choice served).bind of_entry) (incompatible served) := by
  rw [select, select_from_eq, Option.none_or]
  rfl

theorem choice_filter (served : List ServedVersion) :
    choice (served.filter ServedVersion.spoken) = choice served := by
  unfold choice
  rw [find?_filter, find?_filter]
  congr 2
  · funext entry
    simp only [ServedVersion.current, Bool.and_eq_true, Bool.decide_and, Bool.decide_eq_true]
    rw [← Bool.and_assoc, Bool.and_self]
  · funext entry
    simp only [and_self, Bool.decide_eq_true]

/-- What is selected was served, under the name of its version. -/
theorem select_served {served : List ServedVersion} {status : ServiceStatus}
    (h : select served = .ok status) : ∃ entry ∈ served,
      ProtocolVersion.parse entry.version = some status.protocol_version ∧
      status.deprecation_date = entry.deprecation_date.map sanitise_date := by
  rw [select_eq, ok_or_eq_ok, Option.bind_eq_some_iff] at h
  obtain ⟨entry, hcho, hent⟩ := h
  obtain ⟨version, hver, rfl⟩ := Option.map_eq_some_iff.mp hent
  refine ⟨entry, ?_, hver, rfl⟩
  rcases Option.or_eq_some_iff.mp hcho with hfin | ⟨-, hfin⟩
  · exact mem_of_find?_eq_some hfin
  · exact mem_of_find?_eq_some hfin

/-- **The first current version is selected, or else the first spoken one.** -/
theorem selection (served : List ServedVersion) :
    ((∃ entry version, served.find? ServedVersion.current = some entry ∧
        ProtocolVersion.parse entry.version = some version ∧
        select served = .ok ⟨version, none⟩) ∨
      (∃ entry version, served.find? ServedVersion.current = none ∧
        served.find? ServedVersion.spoken = some entry ∧
        ProtocolVersion.parse entry.version = some version ∧
        select served = .ok ⟨version, entry.deprecation_date.map sanitise_date⟩) ∨
      (served.find? ServedVersion.spoken = none ∧ select served = .error (incompatible served))) ∧
    (∀ served' : List ServedVersion,
      served.filter ServedVersion.spoken = served'.filter ServedVersion.spoken →
      (select served).mapError ClientError.kind = (select served').mapError ClientError.kind) ∧
    (∀ status, select served = .ok status →
      (∃ entry ∈ served, entry.version = status.protocol_version.as_str) ∧
      ∀ date, status.deprecation_date = some date →
        Clean DEPRECATION_DATE_LENGTH date_char date) ∧
    ∀ error, select served = .error error →
      error.kind = .IncompatibleProtocol ∧
      ∃ (names : List Text) (more : Bool), names.length ≤ NAMED_VERSION_LIMIT ∧
        (∀ name ∈ names, Clean NAMED_VERSION_LENGTH version_char name) ∧
        error.message.toList
          = incompatible_intro ++ (join names ++ if more then ", …".toList else []) := by
  refine ⟨?_, fun served' hfil => ?_, fun status hsta => ?_, fun error herr => ?_⟩
  · rw [select_eq, choice]
    cases hcur : served.find? ServedVersion.current with
    | some entry =>
      have hfou := find?_some hcur
      rw [ServedVersion.current, Bool.and_eq_true, Option.isNone_iff_eq_none] at hfou
      obtain ⟨version, hver⟩ := Option.isSome_iff_exists.mp hfou.1
      refine Or.inl ⟨entry, version, rfl, hver, ?_⟩
      rw [Option.some_or, Option.bind_some, of_entry, hver, hfou.2]
      rfl
    | none =>
      cases hspo : served.find? ServedVersion.spoken with
      | some entry =>
        have hfou : entry.spoken = true := find?_some hspo
        obtain ⟨version, hver⟩ := Option.isSome_iff_exists.mp hfou
        refine Or.inr (Or.inl ⟨entry, version, rfl, rfl, hver, ?_⟩)
        rw [Option.none_or, Option.bind_some, of_entry, hver]
        rfl
      | none => exact Or.inr (Or.inr ⟨rfl, rfl⟩)
  · rw [select_eq, select_eq, ← choice_filter, hfil, choice_filter]
    cases (choice served').bind of_entry <;> rfl
  · obtain ⟨entry, hmem, hver, hdep⟩ := select_served hsta
    refine ⟨⟨entry, hmem, (ProtocolVersion.as_str_of_parse hver).symm⟩, fun date hdat => ?_⟩
    rw [hdep] at hdat
    obtain ⟨written, -, rfl⟩ := Option.map_eq_some_iff.mp hdat
    exact clean_sanitise_to _ _ _
  · have hinc : error = incompatible served := by
      rw [select_eq] at herr
      cases hcho : (choice served).bind of_entry with
      | some status => rw [hcho] at herr; exact nomatch herr
      | none =>
        rw [hcho] at herr
        exact (Except.error.inj herr).symm
    obtain ⟨names, more, hlim, hcle, hdes⟩ := describe_served_clean served
    refine ⟨by rw [hinc]; rfl, names, more, hlim, hcle, ?_⟩
    rw [hinc, incompatible, String.toList_ofList, hdes]

def v4_without_date : List ServedVersion :=
  [⟨"v9".toList, none⟩, ⟨"v5".toList, some "2027-01-01".toList⟩, ⟨"v4".toList, none⟩]

theorem selection_of_v4 :
    select v4_without_date = .ok ⟨.V4, none⟩ ∧
      (select (v4_without_date.drop 1)).mapError ClientError.kind = .ok ⟨.V4, none⟩ ∧
      ∃ entry ∈ v4_without_date, entry.version = ProtocolVersion.V4.as_str := by
  have hsel : select v4_without_date = .ok ⟨.V4, none⟩ := by decide
  obtain ⟨-, hunk, hnam, -⟩ := selection v4_without_date
  refine ⟨hsel, ?_, (hnam _ hsel).1⟩
  rw [← hunk (v4_without_date.drop 1) (by decide), hsel]
  rfl

end ServiceStatus

end SovereignConfig
