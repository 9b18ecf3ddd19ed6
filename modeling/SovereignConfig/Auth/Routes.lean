/-
Which routes are counted, refused and exempted (`protocol.rs`, `is_unauthenticated_version_handshake`
of `auth.rs`). Three decompositions of a path, written separately, and what they agree on.
-/
import SovereignConfig.Lib.Decimal
import SovereignConfig.Text

namespace SovereignConfig.Protocol

open Lib Text List

inductive Method where
  | POST
  | Other (name : Text)
deriving DecidableEq

inductive Route where
  | Unversioned
  | Versioned (version : Text)
  | Malformed
deriving DecidableEq

inductive Attribution where
  | Served (version : Text)
  | UnservedVersion
  | Unversioned
  | Unrecognised
  | NotProtocolTraffic
deriving DecidableEq

def NAMESPACE : Text := "/sovereign.config.".toList
def GET_VERSION : Text := ".System/GetVersion".toList

def classify (path : Text) : Option Route :=
  match strip_prefix_of path NAMESPACE with
  | none => none
  | some rest =>
    match split_once '/' rest with
    | none => some .Malformed
    | some (qualified_service, method) =>
      if qualified_service = [] ∨ method = [] ∨ '/' ∈ method then some .Malformed
      else
        match split_once '.' qualified_service with
        | none => some .Unversioned
        | some (version, service) =>
          if version ≠ [] ∧ service ≠ [] then some (.Versioned version) else some .Malformed

def attribute_request (method : Method) (path : Text) (recognised : List Text) : Attribution :=
  if method ≠ .POST then .NotProtocolTraffic
  else
    match classify path with
    | none => .NotProtocolTraffic
    | some .Unversioned => .Unversioned
    | some .Malformed => .Unrecognised
    | some (.Versioned version) =>
      ((recognised.find? (· == version)).map Attribution.Served).getD .UnservedVersion

/-- `UnservedVersionService::call`: the version a request is refused for, if it is not passed on. -/
def refused_version (recognised : List Text) (method : Method) (path : Text) : Option Text :=
  if method = .POST then
    match classify path with
    | some (.Versioned version) => if recognised.contains version then none else some version
    | _ => none
  else none

def strip_suffix_of (t suffix : Text) : Option Text :=
  (strip_prefix_of t.reverse suffix.reverse).map List.reverse

def is_unauthenticated_version_handshake (served : List Text) (path : Text) : Bool :=
  ((strip_prefix_of path NAMESPACE).bind (strip_suffix_of · GET_VERSION)).any served.contains

variable {path rest version : Text} {served : List Text}

theorem strip_suffix_eq_some {t suffix u : Text} :
    strip_suffix_of t suffix = some u ↔ t = u ++ suffix := by
  simp only [strip_suffix_of, Option.map_eq_some_iff, strip_prefix_eq_some]
  constructor
  · rintro ⟨v, hv, rfl⟩
    rw [← t.reverse_reverse, hv, reverse_append, reverse_reverse]
  · rintro rfl
    exact ⟨u.reverse, reverse_append, reverse_reverse u⟩

structure Call (version rest : Text) : Prop where
  parts : ∃ service method, rest = version ++ '.' :: (service ++ '/' :: method) ∧
    service ≠ [] ∧ '/' ∉ service ∧ method ≠ [] ∧ '/' ∉ method
  named : version ≠ []
  no_dot : '.' ∉ version
  no_slash : '/' ∉ version

theorem classify_eq_versioned :
    classify path = some (.Versioned version) ↔ ∃ rest, path = NAMESPACE ++ rest ∧
      Call version rest := by
  constructor
  · intro h
    unfold classify at h
    split at h
    · cases h
    · rename_i rest hres
      refine ⟨rest, strip_prefix_eq_some.mp hres, ?_⟩
      split at h
      · cases h
      · rename_i qualified method hsla
        obtain ⟨rfl, hqua⟩ := split_once_eq_some hsla
        split_ifs at h with hsha
        · cases h
        · rw [not_or, not_or] at hsha
          split at h
          · cases h
          · rename_i version' service hdot
            obtain ⟨rfl, hver⟩ := split_once_eq_some hdot
            split_ifs at h with hpar
            · obtain rfl : version' = version := by simpa using h
              rw [mem_append, mem_cons, not_or, not_or] at hqua
              exact ⟨⟨service, method, by simp, hpar.2, hqua.2.2, hsha.2⟩, hpar.1,
                hver, hqua.1⟩
            · cases h
  · rintro ⟨rest, rfl, ⟨service, method, rfl, hser, hsla, hmet, hone⟩, hne, hdot, hno⟩
    have hqua : '/' ∉ version ++ '.' :: service := by
      rw [mem_append, mem_cons, not_or, not_or]
      exact ⟨hno, by decide, hsla⟩
    have hcut : version ++ '.' :: (service ++ '/' :: method)
        = (version ++ '.' :: service) ++ '/' :: method := by simp
    have hsha : ¬ (version ++ '.' :: service = [] ∨ method = [] ∨ '/' ∈ method) := by
      simp [hmet, hone]
    rw [classify, strip_prefix_eq_some.mpr rfl, hcut]
    simp only
    rw [split_once_append method hqua]
    simp only
    rw [if_neg hsha, split_once_append service hdot]
    exact if_pos ⟨hne, hser⟩

theorem refused_iff (method : Method) (path : Text) :
    (refused_version served method path).isSome = true ↔
      attribute_request method path served = .UnservedVersion := by
  unfold refused_version attribute_request
  by_cases hpos : method = .POST
  · rw [if_pos hpos, if_neg (not_not.mpr hpos)]
    rcases classify path with _ | (_ | version | _)
    · simp
    · simp
    · simp only
      cases hfin : served.find? (· == version) with
      | none =>
        have hnot : ¬ served.contains version = true := fun hmem =>
          find?_eq_none.mp hfin version (contains_iff_mem.mp hmem) (beq_self_eq_true _)
        rw [if_neg hnot]
        exact iff_of_true rfl rfl
      | some label =>
        obtain rfl : label = version := by simpa using find?_some hfin
        rw [if_pos (contains_iff_mem.mpr (mem_of_find?_eq_some hfin))]
        exact iff_of_false (fun hnone => nomatch hnone) fun hser => nomatch hser
    · simp
  · rw [if_neg hpos, if_pos hpos]
    simp

theorem exempted_versioned (hlab : ∀ label ∈ served, '.' ∉ label ∧ '/' ∉ label ∧ label ≠ [])
    (h : is_unauthenticated_version_handshake served path = true) :
    ∃ version ∈ served, classify path = some (.Versioned version) := by
  rw [is_unauthenticated_version_handshake, Option.any_eq_true] at h
  obtain ⟨version, hstr, hser⟩ := h
  obtain ⟨rest, hres, hsuf⟩ := Option.bind_eq_some_iff.mp hstr
  have hmem := contains_iff_mem.mp hser
  obtain ⟨hdot, hsla, hne⟩ := hlab version hmem
  refine ⟨version, hmem, classify_eq_versioned.mpr ⟨rest, strip_prefix_eq_some.mp hres, ?_⟩⟩
  rw [strip_suffix_eq_some] at hsuf
  exact ⟨⟨"System".toList, "GetVersion".toList, hsuf, by decide⟩, hne, hdot, hsla⟩

/-- **The layers agree on a route,** as long as no served label is empty. -/
theorem routes_agree (served : List Text) :
    (∀ path version, classify path = some (.Versioned version) ↔ ∃ service method,
      path = NAMESPACE ++ version ++ '.' :: service ++ '/' :: method ∧
      version ≠ [] ∧ '.' ∉ version ∧ '/' ∉ version ∧ service ≠ [] ∧ '/' ∉ service ∧
      method ≠ [] ∧ '/' ∉ method) ∧
    (∀ method path, (refused_version served method path).isSome = true ↔
      attribute_request method path served = .UnservedVersion) ∧
    (∀ path version, refused_version served .POST path = none →
      classify path = some (.Versioned version) → version ∈ served) ∧
    ((∀ label ∈ served, '.' ∉ label ∧ '/' ∉ label ∧ label ≠ []) →
      ∀ path, is_unauthenticated_version_handshake served path = true →
        ∃ version ∈ served, classify path = some (.Versioned version)) := by
  refine ⟨fun path version => ?_, refused_iff, fun path version hpas hrou => ?_,
    fun hlab path => exempted_versioned hlab⟩
  · rw [classify_eq_versioned]
    constructor
    · rintro ⟨rest, rfl, ⟨service, method, rfl, hser, hsla, hmet, hone⟩, hne, hdot, hno⟩
      exact ⟨service, method, by simp, hne, hdot, hno, hser, hsla, hmet, hone⟩
    · rintro ⟨service, method, rfl, hne, hdot, hno, hser, hsla, hmet, hone⟩
      exact ⟨_, by simp, ⟨service, method, rfl, hser, hsla, hmet, hone⟩, hne, hdot, hno⟩
  · rw [refused_version, if_pos rfl, hrou] at hpas
    by_contra hnot
    rw [← contains_iff_mem] at hnot
    exact absurd ((if_neg hnot).symm.trans hpas) (Option.some_ne_none version)

/-- The path of `GetVersion` on `v4`, with `v4` served, is classified as it is exempted. -/
theorem served_handshake_versioned :
    ∃ version ∈ ["v5".toList, "v4".toList, "v3".toList],
      classify (NAMESPACE ++ "v4".toList ++ GET_VERSION) = some (.Versioned version) :=
  (routes_agree ["v5".toList, "v4".toList, "v3".toList]).2.2.2 (by decide +kernel) _
    (by decide +kernel)

/-- With an empty label served, a malformed path is exempted from authentication. -/
theorem empty_label_exempts_malformed :
    (∀ label ∈ [([] : Text)], '.' ∉ label ∧ '/' ∉ label) ∧
      is_unauthenticated_version_handshake [[]] (NAMESPACE ++ GET_VERSION) = true ∧
      classify (NAMESPACE ++ GET_VERSION) = some .Malformed := by
  refine ⟨?_, by decide +kernel, by decide +kernel⟩
  simp

end SovereignConfig.Protocol
