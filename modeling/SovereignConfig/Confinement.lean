/-
`ConfigPath::is_at_or_below`, the grants of `auth.rs` and the command line's `operation_path`: each
of them is `AtOrBelow`, the prefix order on the segments of the folds.
-/
import SovereignConfig.Rpc

namespace SovereignConfig

open Lib Text List

/-- The segments of `p` are the first ones of `q`; everything is below the root. -/
def AtOrBelow (q p : ConfigPath) : Prop :=
  p.fold = root_text ∨ segments p.fold <+: segments q.fold

/-! ## Folded paths -/

/-- A segment of a path that `ConfigPath::parse` accepts. -/
def fold_segment_ok (s : Text) : Bool :=
  !s.isEmpty && s.all (fun c => c.isLower || c.isDigit || c == '-' || c == '_')

def fold_path_ok : Text → Bool
  | '/' :: relative => !relative.isEmpty && (relative.splitOn '/').all fold_segment_ok
  | _ => false

variable {s : Text} {more : List Permission} {permission : Permission}
  {grants : Std.TreeMap Text (List Permission)}

theorem segment_ok_of_fold (h : fold_segment_ok s = true) : segment_ok s = true := by
  simp only [fold_segment_ok, segment_ok, Bool.and_eq_true, all_eq_true] at h ⊢
  refine ⟨h.1, fun c hc => ?_⟩
  have hcha := h.2 c hc
  simp only [segment_char, Char.isAlpha, Bool.or_eq_true] at hcha ⊢
  rcases hcha with ((hlow | hdig) | hdas) | hund
  · exact Or.inl (Or.inl (Or.inl (Or.inr hlow)))
  · exact Or.inl (Or.inl (Or.inr hdig))
  · exact Or.inl (Or.inr hdas)
  · exact Or.inr hund

theorem operation_path_of_fold {t : Text} (h : fold_path_ok t = true) :
    operation_path t = true := by
  unfold fold_path_ok at h
  split at h
  · simp only [Bool.and_eq_true, all_eq_true] at h
    simp only [operation_path, Bool.and_eq_true, all_eq_true]
    exact ⟨h.1, fun s hs => segment_ok_of_fold (h.2 s hs)⟩
  · simp at h

/-- `ConfigPath::parse`: the root, or a path already folded. -/
def ConfigPath.parse (value : Text) : Except PathError ConfigPath :=
  if hroot : value = root_text then .ok ⟨value, Or.inl hroot⟩
  else if hpath : fold_path_ok value = true then .ok ⟨value, Or.inr (operation_path_of_fold hpath)⟩
  else .error .NonCanonical

theorem fold_char_lower {c : Char}
    (h : (c.isLower || c.isDigit || c == '-' || c == '_') = true) : c.toLower = c := by
  apply Char.toLower_eq_of_not_isUpper
  intro hupp
  simp only [Bool.or_eq_true, beq_iff_eq, Char.isLower, Char.isDigit, Char.isUpper,
    Bool.and_eq_true, decide_eq_true_eq, ge_iff_le, UInt32.le_iff_toNat_le] at h hupp
  have hA : 'A'.val.toNat = 65 := rfl
  have hZ : 'Z'.val.toNat = 90 := rfl
  have ha : 'a'.val.toNat = 97 := rfl
  have h9 : '9'.val.toNat = 57 := rfl
  rcases h with ((hlow | hdig) | rfl) | rfl
  · omega
  · omega
  · exact absurd hupp (by decide)
  · exact absurd hupp (by decide)

theorem lower_fold_segment (h : fold_segment_ok s = true) : to_ascii_lowercase s = s := by
  simp only [fold_segment_ok, Bool.and_eq_true, all_eq_true] at h
  exact (map_congr_left fun c hc => fold_char_lower (h.2 c hc)).trans (map_id s)

theorem parse_fold {value : Text} {p : ConfigPath} (h : ConfigPath.parse value = .ok p) :
    p.fold = p.as_str := by
  unfold ConfigPath.parse at h
  split at h
  · rename_i hroo
    obtain rfl := Except.ok.inj h
    simp only [ConfigPath.fold, ConfigPath.as_str, hroo]
    decide
  · split at h
    · rename_i hpat
      obtain rfl := Except.ok.inj h
      unfold fold_path_ok at hpat
      split at hpat
      · rename_i relative _
        simp only [Bool.and_eq_true, all_eq_true] at hpat
        -- The text is the rendering of its segments, none of which the fold moves.
        show to_ascii_lowercase ('/' :: relative) = '/' :: relative
        rw [← render_splitOn relative, lower_render]
        congr 1
        exact (map_congr_left fun s hs => lower_fold_segment (hpat.2 s hs)).trans
          (map_id _)
      · simp at hpat
    · simp at h

theorem fold_segment_of_lower (hne : s ≠ []) (h : ∀ c ∈ s, segment_char c = true ∧ c.toLower = c) :
    fold_segment_ok s = true := by
  simp only [fold_segment_ok, Bool.and_eq_true, Bool.not_eq_true', isEmpty_eq_false_iff,
    all_eq_true]
  refine ⟨hne, fun c hc => ?_⟩
  obtain ⟨hcha, hlowe⟩ := h c hc
  -- A letter that lowering leaves alone is a lower-case one.
  have hupp : c.isUpper = true → c.isLower = true := by
    intro hup
    rw [← hlowe, Char.isLower_toLower_eq_isAlpha, Char.isAlpha, hup, Bool.true_or]
  simp only [segment_char, Char.isAlpha, Bool.or_eq_true] at hcha ⊢
  rcases hcha with (((hup | hlow) | hdig) | hdas) | hund
  · exact Or.inl (Or.inl (Or.inl (hupp hup)))
  · exact Or.inl (Or.inl (Or.inl hlow))
  · exact Or.inl (Or.inl (Or.inr hdig))
  · exact Or.inl (Or.inr hdas)
  · exact Or.inr hund

theorem parse_of_fold (p : ConfigPath) : ConfigPath.parse p.fold = .ok p.folded := by
  unfold ConfigPath.parse
  split
  · rfl
  · rename_i hroo
    have hok : fold_path_ok p.fold = true := by
      have hseg := p.foldSegments_segs
      rw [p.fold_eq] at hroo ⊢
      cases hss : p.segs with
      | nil => exact absurd (by rw [hss]; rfl) hroo
      | cons s ss =>
        rw [hss] at hseg
        have hspl : (s ++ render '/' ss).splitOn '/' = s :: ss :=
          splitOn_render hseg.free (by simp)
        have hne : s ++ render '/' ss ≠ [] := by
          simp [(hseg s mem_cons_self).1]
        rw [path_text_cons, render_cons, fold_path_ok, hspl, Bool.and_eq_true, all_eq_true]
        refine ⟨by simpa using hne, fun u hu => ?_⟩
        exact fold_segment_of_lower (hseg u hu).1 (hseg u hu).2
    rw [dif_pos hok]
    rfl

theorem covers_iff (path root : Text) :
    (root == root_text || path == root
      || (strip_prefix_of path root).any (fun suffix => starts_with suffix ['/'])) = true ↔
      at_or_below path root = true := by
  simp only [at_or_below, Bool.or_eq_true, strip_prefix_then, starts_with_iff]

theorem at_or_below_segs (q p : ConfigPath) : AtOrBelow q p ↔ p.segs <+: q.segs := by
  constructor
  · rintro (hroo | hpre)
    · rw [ConfigPath.segs, hroo]
      exact nil_prefix
    · exact hpre
  · exact Or.inr

theorem at_or_below_fold (q p : ConfigPath) :
    at_or_below q.fold p.fold = true ↔ AtOrBelow q p := by
  rw [q.fold_eq, p.fold_eq, at_or_below_iff q.foldSegments_segs p.foldSegments_segs,
    at_or_below_segs]

theorem allows_iff (principal : AuthenticatedPrincipal) (path : ConfigPath)
    (permission : Permission) :
    principal.allows path permission = true ↔
      ∃ grant ∈ principal.grants, permission ∈ grant.permissions ∧
        at_or_below path.fold grant.prefix_path = true := by
  simp only [AuthenticatedPrincipal.allows, any_eq_true, Bool.and_eq_true, covers_iff,
    contains_iff_mem]

theorem at_or_below_trans {q : ConfigPath} {root granted : Text}
    (hroo : at_or_below q.fold root = true) (hgra : at_or_below root granted = true) :
    at_or_below q.fold granted = true := by
  simp only [at_or_below, Bool.or_eq_true, beq_iff_eq, starts_with_iff] at hroo hgra ⊢
  rcases hgra with (hall | hsam) | hbel
  · exact Or.inl (Or.inl hall)
  · rw [← hsam]
    exact hroo
  · right
    rcases hroo with (hall | hsam) | habo
    · -- Below the root there is only the empty text and a slash.
      rw [hall] at hbel
      exact hbel.trans q.root_prefix
    · rw [hsam]
      exact hbel
    · exact (hbel.trans (prefix_append _ _)).trans habo

/-! ## Grants of a token (`auth.rs`) -/

structure RawGrant where
  prefix_path : Text
  permissions : List Permission
deriving DecidableEq

inductive AuthenticationFailure where
  | InvalidClaims
deriving DecidableEq

def canonical_prefix (prefix_path : Text) : Option Text :=
  match ConfigPath.parse_selection prefix_path with
  | .ok path => some path.fold
  | .error _ => none

def extend (permissions : List Permission) : List Permission → List Permission
  | [] => permissions
  | permission :: more =>
    extend (if permissions.contains permission then permissions
      else permissions ++ [permission]) more

/-- The loop of `validate_grants`, from the grants merged so far. -/
def merge_grants : List RawGrant → Std.TreeMap Text (List Permission) →
    Except AuthenticationFailure (Std.TreeMap Text (List Permission))
  | [], grants => .ok grants
  | raw_grant :: raw_grants, grants =>
    match canonical_prefix raw_grant.prefix_path with
    | none => .error .InvalidClaims
    | some prefix_path =>
      if raw_grant.permissions.isEmpty then .error .InvalidClaims
      else merge_grants raw_grants
        (grants.insert prefix_path (extend (grants[prefix_path]?.getD []) raw_grant.permissions))

def validate_grants (raw_grants : List RawGrant) : Except AuthenticationFailure (List Grant) := do
  let grants ← merge_grants raw_grants ∅
  return grants.toList.map fun (prefix_path, permissions) => ⟨prefix_path, permissions⟩

theorem mem_extend {permissions : List Permission} :
    permission ∈ extend permissions more ↔ permission ∈ permissions ∨ permission ∈ more := by
  induction more generalizing permissions with
  | nil => simp [extend]
  | cons p more ih =>
    rw [extend, ih, mem_cons]
    split_ifs with hin
    · rw [contains_iff_mem] at hin
      constructor
      · rintro (h | h)
        · exact Or.inl h
        · exact Or.inr (Or.inr h)
      · rintro (h | rfl | h)
        · exact Or.inl h
        · exact Or.inl hin
        · exact Or.inr h
    · rw [mem_append, mem_singleton, or_assoc]

def Holds (grants : Std.TreeMap Text (List Permission)) (prefix_path : Text)
    (permission : Permission) : Prop :=
  ∃ permissions, grants[prefix_path]? = some permissions ∧ permission ∈ permissions

theorem holds_insert {prefix_path fold : Text} :
    Holds (grants.insert prefix_path (extend (grants[prefix_path]?.getD []) more)) fold permission ↔
      Holds grants fold permission ∨ (prefix_path = fold ∧ permission ∈ more) := by
  unfold Holds
  by_cases heq : prefix_path = fold
  · subst heq
    rw [Std.TreeMap.getElem?_insert_self]
    simp only [Option.some.injEq, exists_eq_left', mem_extend, true_and]
    cases grants[prefix_path]? with
    | none => simp
    | some permissions => simp
  · have hne : compare prefix_path fold ≠ .eq := fun h => heq (Std.LawfulEqCmp.eq_of_compare h)
    rw [Std.TreeMap.getElem?_insert, if_neg hne]
    simp [heq]

variable {raw_grants : List RawGrant}

theorem holds_merge {merged : Std.TreeMap Text (List Permission)}
    (h : merge_grants raw_grants grants = .ok merged) (fold : Text) (permission : Permission) :
    Holds merged fold permission ↔ Holds grants fold permission ∨
      ∃ raw ∈ raw_grants, permission ∈ raw.permissions ∧
        canonical_prefix raw.prefix_path = some fold := by
  induction raw_grants generalizing grants with
  | nil =>
    obtain rfl := Except.ok.inj h
    simp
  | cons raw raw_grants ih =>
    rw [merge_grants] at h
    split at h
    · simp at h
    · rename_i prefix_path hpre
      split at h
      · simp at h
      · rw [ih h, holds_insert]
        simp only [mem_cons, exists_eq_or_imp, hpre, Option.some.injEq]
        tauto

theorem allows_validated {grants : List Grant} (h : validate_grants raw_grants = .ok grants)
    (subject : Text) (name : Option Text) (q : ConfigPath) (permission : Permission) :
    AuthenticatedPrincipal.allows ⟨subject, name, grants⟩ q permission = true ↔
      ∃ raw ∈ raw_grants, permission ∈ raw.permissions ∧
        ∃ p, ConfigPath.parse_selection raw.prefix_path = .ok p ∧ AtOrBelow q p := by
  obtain ⟨merged, hmer, rfl⟩ : ∃ merged, merge_grants raw_grants ∅ = .ok merged ∧
      grants = merged.toList.map fun (prefix_path, permissions) => ⟨prefix_path, permissions⟩ := by
    cases hm : merge_grants raw_grants ∅ with
    | error e => simp [validate_grants, hm, bind, Except.bind] at h
    | ok merged => exact ⟨merged, rfl, by
        simpa [validate_grants, hm, bind, Except.bind, pure, Except.pure] using h.symm⟩
  have hhol := holds_merge hmer
  have hgra : AuthenticatedPrincipal.allows ⟨subject, name, merged.toList.map
      fun (prefix_path, permissions) => ⟨prefix_path, permissions⟩⟩ q permission = true ↔
      ∃ fold, Holds merged fold permission ∧ at_or_below q.fold fold = true := by
    rw [allows_iff]
    simp only [mem_map, Prod.exists, Std.TreeMap.mem_toList_iff_getElem?_eq_some]
    constructor
    · rintro ⟨grant, ⟨fold, permissions, hget, rfl⟩, hmem, hbel⟩
      exact ⟨fold, ⟨permissions, hget, hmem⟩, hbel⟩
    · rintro ⟨fold, ⟨permissions, hget, hmem⟩, hbel⟩
      exact ⟨_, ⟨fold, permissions, hget, rfl⟩, hmem, hbel⟩
  rw [hgra]
  constructor
  · rintro ⟨fold, hhel, hbel⟩
    rcases (hhol fold permission).mp hhel with ⟨permissions, hemp, -⟩ | ⟨raw, hraw, hmem, hcan⟩
    · simp at hemp
    · rw [ canonical_prefix] at hcan
      split at hcan
      · rename_i p hpar
        obtain rfl := Option.some.inj hcan
        exact ⟨raw, hraw, hmem, p, hpar, (at_or_below_fold q p).mp hbel⟩
      · simp at hcan
  · rintro ⟨raw, hraw, hmem, p, hpar, hbel⟩
    refine ⟨p.fold, (hhol p.fold permission).mpr (Or.inr ⟨raw, hraw, hmem, ?_⟩),
      (at_or_below_fold q p).mpr hbel⟩
    rw [ canonical_prefix, hpar]

/-! ## The command line (`session.rs`) -/

namespace Cli

inductive Scope where
  | Exact
  | Tree
deriving DecidableEq

/-- The selected connection. Of its URL only the root is read here; `parse_root` made it, and
`Connection.selected` gives the connection of any URL that parses. -/
structure Connection where
  root : ConfigPath
  parsed : ConfigPath.parse root.as_str = .ok root

def parse_typed (path : Text) : Scope → Except String ConfigPath
  | .Tree => (ConfigPath.parse_selection path).mapError
      fun _ => "path must name a configuration subtree"
  | .Exact => (ConfigPath.parse_operation path).mapError
      fun _ => "path must name a configuration value"

def operation_path (connection : Connection) (path : Text) (scope : Scope) :
    Except String ConfigPath := do
  let path ← parse_typed path scope
  let root := connection.root.as_str
  let fold := path.fold
  if root != root_text && fold != root
      && !(strip_prefix_of fold root).any (fun suffix => starts_with suffix ['/']) then
    .error "path is outside the selected profile root"
  else .ok path

theorem operation_path_eq_ok {connection : Connection} {typed : Text} {scope : Scope}
    {path : ConfigPath} :
    operation_path connection typed scope = .ok path ↔
      parse_typed typed scope = .ok path ∧ AtOrBelow path connection.root := by
  have hroo : connection.root.as_str = connection.root.fold := (parse_fold connection.parsed).symm
  unfold operation_path
  cases hpar : parse_typed typed scope with
  | error e => simp [bind, Except.bind]
  | ok parsed =>
    have hcov := covers_iff parsed.fold connection.root.as_str
    rw [hroo, at_or_below_fold] at hcov
    simp only [bind, Except.bind, hroo, Except.ok.injEq]
    split_ifs with hout
    · -- Outside: the three tests fail, so the path is not below the root.
      simp only [Bool.and_eq_true, bne_iff_ne, ne_eq, Bool.not_eq_true'] at hout
      refine iff_of_false (by simp) fun hbot => ?_
      obtain ⟨rfl, hbel⟩ := hbot
      have hcove := hcov.mpr hbel
      simp only [Bool.or_eq_true, beq_iff_eq, hout.1.1, hout.1.2, hout.2,
        false_or, Bool.false_eq_true] at hcove
    · have hbel : AtOrBelow parsed connection.root := by
        apply hcov.mp
        simp only [Bool.and_eq_true, bne_iff_ne, ne_eq, Bool.not_eq_true', not_and,
          Bool.not_eq_false] at hout
        simp only [Bool.or_eq_true, beq_iff_eq]
        by_cases h₁ : connection.root.fold = root_text
        · exact Or.inl (Or.inl h₁)
        · by_cases h₂ : parsed.fold = connection.root.fold
          · exact Or.inl (Or.inr h₂)
          · exact Or.inr (hout ⟨h₁, h₂⟩)
      constructor
      · intro h
        obtain rfl := Except.ok.inj h
        exact ⟨rfl, hbel⟩
      · rintro ⟨rfl, -⟩
        rfl

end Cli

/-! ## One relation -/

/-- **The confinement checks agree.** On every pair of paths, `is_at_or_below`, the grants of a
validated token and the command line all decide `AtOrBelow`. -/
theorem confinement_is_one_relation (p q : ConfigPath) :
    (q.is_at_or_below p = true ↔ AtOrBelow q p) ∧
    (∀ raw_grants grants subject name permission, validate_grants raw_grants = .ok grants →
      (AuthenticatedPrincipal.allows ⟨subject, name, grants⟩ q permission = true ↔
        ∃ raw ∈ raw_grants, permission ∈ raw.permissions ∧
          ∃ r, ConfigPath.parse_selection raw.prefix_path = .ok r ∧ AtOrBelow q r)) ∧
    (∀ (connection : Cli.Connection) typed scope, connection.root.fold = p.fold →
      ∀ path, Cli.operation_path connection typed scope = .ok path ↔
        Cli.parse_typed typed scope = .ok path ∧ AtOrBelow path p) := by
  refine ⟨?_, ?_, ?_⟩
  · rw [is_at_or_below_iff, at_or_below_segs]
  · intro raw_grants grants subject name permission hval
    exact allows_validated hval subject name q permission
  · intro connection typed scope hroo path
    rw [Cli.operation_path_eq_ok, AtOrBelow, AtOrBelow, hroo]

/-- Two grants that differ in case, and a connection on the same subtree: a value below it is
covered, a sibling whose name begins with the root's is not. -/
theorem confinement_is_one_relation_at_siblings :
    let root : ConfigPath := ⟨"/A".toList, by decide⟩
    let value : ConfigPath := ⟨"/a/B".toList, by decide⟩
    let sibling : ConfigPath := ⟨"/a-b".toList, by decide⟩
    let raw_grants : List RawGrant := [⟨"/A".toList, [.Read]⟩, ⟨"/a".toList, [.Write]⟩]
    let grants : List Grant := [⟨"/a".toList, [.Read, .Write]⟩]
    let connection : Cli.Connection := ⟨⟨"/a".toList, by decide⟩, by decide⟩
    validate_grants raw_grants = .ok grants ∧ connection.root.fold = root.fold ∧
      value.is_at_or_below root = true ∧ AtOrBelow value root ∧ ¬ AtOrBelow sibling root ∧
      (AuthenticatedPrincipal.allows ⟨[], none, grants⟩ value .Write = true ↔
        ∃ raw ∈ raw_grants, .Write ∈ raw.permissions ∧
          ∃ r, ConfigPath.parse_selection raw.prefix_path = .ok r ∧ AtOrBelow value r) ∧
      (Cli.operation_path connection "/a/B".toList .Exact = .ok value ↔
        Cli.parse_typed "/a/B".toList .Exact = .ok value ∧ AtOrBelow value root) := by
  intro root value sibling raw_grants grants connection
  have hgra : validate_grants raw_grants = .ok grants := rfl
  have hroo : connection.root.fold = root.fold := rfl
  obtain ⟨hval, hall, htyp⟩ := confinement_is_one_relation root value
  have hsib := (confinement_is_one_relation root sibling).1
  have hins : value.is_at_or_below root = true := rfl
  exact ⟨hgra, hroo, hins, hval.mp hins,
    fun h => absurd (hsib.mpr h) (by decide),
    hall raw_grants grants [] none .Write hgra, htyp connection _ .Exact hroo value⟩

end SovereignConfig
