/-
`values/subtree.rs`: the validation of a replacement that needs no storage, the settling of
preserve markers, and the refusal of plain values that would meet a stored secret.
-/
import SovereignConfig.Rpc

namespace SovereignConfig.Values

open Lib Text List

def MASKED_SECRET_TEXT : Text := "********".toList

inductive SubTreeEntryContent where
  | PlainValue (value : Text)
  | PreserveSecret
deriving DecidableEq

structure SubTreeEntry where
  path : Text
  content : Option SubTreeEntryContent
deriving DecidableEq

/-- A `BTreeMap` from fold keys. -/
abbrev Displays := Std.TreeMap Text Text

structure NormalizedSubtree where
  values : List SubTreeEntry
  displays : Displays

def invalid_subtree : Status := .invalid_argument "configuration subtree is invalid"

def content_ok : Option SubTreeEntryContent → Bool
  | some (.PlainValue content) => !contains_char content '\x00'
  | some .PreserveSecret => true
  | none => false

/-- The first loop of `normalize`: fold every path, remembering the case it came in. -/
def fold_entries (root : ConfigPath) :
    List SubTreeEntry → Displays → Except Status (List SubTreeEntry × Displays)
  | [], displays => .ok ([], displays)
  | value :: values, displays =>
    match ConfigPath.parse_operation value.path with
    | .error _ => .error invalid_subtree
    | .ok value_path =>
      if !value_path.is_at_or_below root then .error invalid_subtree
      else if !content_ok value.content then .error invalid_subtree
      else do
        let displays :=
          if value_path.fold ≠ value_path.as_str then
            displays.insert value_path.fold value_path.as_str
          else displays
        let (rest, displays) ← fold_entries root values displays
        return ({ value with path := value_path.fold } :: rest, displays)

/-- The walk up from a path: has one of its ancestors been accepted? Every round shortens
`ancestor`, so its length is more rounds than the walk takes. -/
def has_stored_ancestor (accepted_paths : List Text) : ℕ → Text → Bool
  | 0, _ => false
  | rounds + 1, ancestor =>
    match rsplit_once '/' ancestor with
    | none => false
    | some (parent, _) =>
      if parent.isEmpty then false
      else if accepted_paths.contains parent then true
      else has_stored_ancestor accepted_paths rounds parent

/-- The second loop of `normalize`: no path below, or equal to, one accepted before it. -/
def accept_paths (accepted_paths : List Text) : List SubTreeEntry → Except Status Unit
  | [] => .ok ()
  | value :: values =>
    if has_stored_ancestor accepted_paths value.path.length value.path
        || accepted_paths.contains value.path then .error invalid_subtree
    else accept_paths (value.path :: accepted_paths) values

def normalize (root : ConfigPath) (values : List SubTreeEntry) :
    Except Status NormalizedSubtree := do
  let (values, displays) ← fold_entries root values ∅
  let values := values.insertionSort (fun first second => first.path ≤ second.path)
  accept_paths [] values
  return ⟨values, displays⟩

def resolve_preserve_markers (values : List SubTreeEntry) (secret_paths : List Text) :
    List SubTreeEntry :=
  values.map fun value =>
    if value.content = some .PreserveSecret ∧ !secret_paths.contains value.path then
      { value with content := some (.PlainValue MASKED_SECRET_TEXT) }
    else value

def SubTreeEntry.plain_path (value : SubTreeEntry) : Option Text :=
  match value.content with
  | some (.PlainValue _) => some value.path
  | _ => none

def SubTreeEntry.preserve_path (value : SubTreeEntry) : Option Text :=
  match value.content with
  | some .PreserveSecret => some value.path
  | _ => none

def plain_paths (values : List SubTreeEntry) (secret_paths : List Text) :
    Except Status (List Text) :=
  let plain := values.filterMap SubTreeEntry.plain_path
  let preserve := values.filterMap SubTreeEntry.preserve_path
  if plain.any (fun plain => secret_paths.any fun secret => paths_collide plain secret)
      || !preserve.all (fun preserve => secret_paths.contains preserve) then
    .error invalid_subtree
  else .ok plain

def display_of (displays : Displays) (fold : Text) : Text := displays[fold]?.getD fold

/-! ## What `normalize` guarantees -/

def NormalEntry (root : ConfigPath) (value : SubTreeEntry) : Prop :=
  content_ok value.content = true ∧
    ∃ p : ConfigPath, operation_path p.path = true ∧ p.fold = value.path ∧ root.segs <+: p.segs

def DisplaysOk (displays : Displays) : Prop :=
  ∀ fold display, displays[fold]? = some display →
    operation_path display = true ∧ to_ascii_lowercase display = fold

theorem fold_operation_path {p : ConfigPath} (h : operation_path p.path = true) :
    operation_path p.fold = true := by
  obtain ⟨ss, hne, hok, hp⟩ := (operation_path_iff p.path).mp h
  refine (operation_path_iff p.fold).mpr ⟨ss.map to_ascii_lowercase, by simpa using hne, ?_, ?_⟩
  · intro s hs
    obtain ⟨hnil, hcha⟩ := foldSegments_lower hok s hs
    simp only [segment_ok, Bool.and_eq_true, Bool.not_eq_true', isEmpty_eq_false_iff,
      all_eq_true]
    exact ⟨hnil, fun c hc => (hcha c hc).1⟩
  · rw [ConfigPath.fold, hp, lower_render]

theorem lower_lower (t : Text) :
    to_ascii_lowercase (to_ascii_lowercase t) = to_ascii_lowercase t := by
  simp [to_ascii_lowercase, Char.toLower_toLower_eq_toLower]

variable {displays displays' : Displays} {root : ConfigPath} {value : SubTreeEntry}
  {folded values : List SubTreeEntry} {accepted : List Text} {n : NormalizedSubtree}

theorem display_of_normal (hd : DisplaysOk displays) (hv : NormalEntry root value) :
    operation_path (display_of displays value.path) = true ∧
      to_ascii_lowercase (display_of displays value.path) = value.path := by
  unfold display_of
  cases hget : displays[value.path]? with
  | some display => exact hd _ _ hget
  | none =>
    obtain ⟨_, p, hp, hfol, _⟩ := hv
    rw [Option.getD_none, ← hfol]
    exact ⟨fold_operation_path hp, lower_lower p.path⟩

theorem fold_entries_cons
    (h : fold_entries root (value :: values) displays = .ok (folded, displays')) :
    ∃ p rest, ConfigPath.parse_operation value.path = .ok p ∧ p.is_at_or_below root = true ∧
      content_ok value.content = true ∧
      fold_entries root values
        (if p.fold ≠ p.as_str then displays.insert p.fold p.as_str else displays) =
          .ok (rest, displays') ∧
      folded = { value with path := p.fold } :: rest := by
  rw [fold_entries] at h
  split at h
  · simp at h
  · rename_i p hpar
    split at h
    · simp at h
    · rename_i hbel
      split at h
      · simp at h
      · rename_i hcon
        simp only [Bool.not_eq_true, Bool.not_eq_false'] at hbel hcon
        simp only [bind, Except.bind] at h
        split at h
        · simp at h
        · rename_i rest hres
          cases h
          exact ⟨p, rest.1, hpar, hbel, hcon, hres, rfl⟩

theorem fold_entries_ok (hd : DisplaysOk displays)
    (h : fold_entries root values displays = .ok (folded, displays')) :
    (∀ value ∈ folded, NormalEntry root value) ∧ DisplaysOk displays' := by
  induction values generalizing displays folded with
  | nil =>
    cases h
    exact ⟨by simp, hd⟩
  | cons value values ih =>
    obtain ⟨p, rest, hpar, hbel, hcon, hres, rfl⟩ := fold_entries_cons h
    obtain ⟨hpat, hop⟩ := parse_operation_path hpar
    rw [← hpat] at hop
    have hd' : DisplaysOk (if p.fold ≠ p.as_str then displays.insert p.fold p.as_str
        else displays) := by
      split
      · intro fold display hget
        rw [Std.TreeMap.getElem?_insert] at hget
        split at hget
        · rename_i heq
          obtain rfl := Option.some.inj hget
          exact ⟨hop, Std.LawfulEqCmp.eq_of_compare heq⟩
        · exact hd fold display hget
      · exact hd
    obtain ⟨hall, hdis⟩ := ih hd' hres
    refine ⟨fun v hv => ?_, hdis⟩
    rcases mem_cons.mp hv with rfl | hv
    · exact ⟨hcon, p, hop, rfl, (is_at_or_below_iff p root).mp hbel⟩
    · exact hall v hv

theorem has_stored_ancestor_iff {accepted : List Text} {rounds : ℕ} {ss : List Text}
    (hss : FoldSegments ss) (hrou : ss.length ≤ rounds) :
    has_stored_ancestor accepted rounds (render '/' ss) = true ↔
      ∃ ps, ps ≠ [] ∧ ps <+: ss ∧ ps ≠ ss ∧ render '/' ps ∈ accepted := by
  induction rounds generalizing ss with
  | zero =>
    obtain rfl : ss = [] := length_eq_zero_iff.mp (Nat.le_zero.mp hrou)
    simp only [has_stored_ancestor, Bool.false_eq_true, false_iff]
    rintro ⟨ps, hne, hpre, _⟩
    exact hne (prefix_nil.mp hpre)
  | succ rounds ih =>
    rcases eq_nil_or_concat ss with rfl | ⟨up, s, rfl⟩
    · refine iff_of_false (by simp [has_stored_ancestor, rsplit_once, render]) ?_
      rintro ⟨ps, hne, hpre, _⟩
      exact hne (prefix_nil.mp hpre)
    · rw [concat_eq_append] at hss hrou ⊢
      have hup : FoldSegments up := hss.initial (prefix_append _ _)
      have hsla : '/' ∉ s := hss.free s (by simp)
      have hlen : up.length ≤ rounds := by simpa using hrou
      -- A proper ancestor of `up ++ [s]` is `up` itself or one of its proper ancestors.
      have hpro : ∀ ps : List Text, (ps <+: up ++ [s] ∧ ps ≠ up ++ [s]) ↔ ps <+: up := by
        intro ps
        rw [prefix_concat_iff]
        constructor
        · rintro ⟨h | h, hne⟩
          · exact absurd h hne
          · exact h
        · intro h
          refine ⟨Or.inr h, fun heq => ?_⟩
          have := h.length_le
          rw [heq] at this
          simp at this
      rw [has_stored_ancestor, rsplit_once_render hsla]
      simp only [List.isEmpty_iff, render_eq_nil, List.contains_iff_mem]
      by_cases hnil : up = []
      · subst hnil
        simp only [if_true, Bool.false_eq_true, false_iff]
        rintro ⟨ps, hne, hpre, hneq, _⟩
        exact hne (List.prefix_nil.mp ((hpro ps).mp ⟨hpre, hneq⟩))
      · rw [if_neg hnil]
        by_cases hacc : render '/' up ∈ accepted
        · simp only [hacc, if_true, true_iff]
          exact ⟨up, hnil, ((hpro up).mpr prefix_rfl).1, ((hpro up).mpr prefix_rfl).2,
            hacc⟩
        · rw [if_neg hacc, ih hup hlen]
          constructor
          · rintro ⟨ps, hne, hpre, _, hmem⟩
            exact ⟨ps, hne, ((hpro ps).mpr hpre).1, ((hpro ps).mpr hpre).2, hmem⟩
          · rintro ⟨ps, hne, hpre, hneq, hmem⟩
            refine ⟨ps, hne, (hpro ps).mp ⟨hpre, hneq⟩, ?_, hmem⟩
            rintro rfl
            exact hacc hmem

theorem NormalEntry.segments (h : NormalEntry root value) :
    FoldSegments (segments value.path) ∧ value.path = path_text (segments value.path) ∧
      segments value.path ≠ [] ∧ root.segs <+: segments value.path := by
  obtain ⟨_, p, hp, hfol, hbel⟩ := h
  rw [← hfol]
  exact ⟨p.foldSegments_segs, p.fold_eq,
    fun hnil => operation_ne_root hp (p.segs_eq_nil.mp hnil), hbel⟩

theorem length_le_render (ss : List Text) : ss.length ≤ (render '/' ss).length := by
  induction ss with
  | nil => simp
  | cons s ss ih =>
    rw [render_cons, length_cons, length_cons, length_append]
    omega

theorem stored_ancestor_iff (h : NormalEntry root value) :
    has_stored_ancestor accepted value.path.length value.path = true ↔
      ∃ ps, ps ≠ [] ∧ ps <+: SovereignConfig.segments value.path ∧
        ps ≠ SovereignConfig.segments value.path ∧ path_text ps ∈ accepted := by
  obtain ⟨hfol, htex, hne, _⟩ := h.segments
  have htex' := htex
  rw [path_text_of_ne hne] at htex'
  have hlen : (SovereignConfig.segments value.path).length ≤ value.path.length := by
    conv_rhs => rw [htex']
    exact length_le_render _
  have hiff := @has_stored_ancestor_iff accepted _ _ hfol hlen
  rw [← htex'] at hiff
  rw [hiff]
  refine exists_congr (fun ps => and_congr_right (fun hps => ?_))
  rw [path_text_of_ne hps]

def Apart (p q : Text) : Prop :=
  ¬ SovereignConfig.segments p <+: SovereignConfig.segments q ∧
    ¬ SovereignConfig.segments q <+: SovereignConfig.segments p

theorem accept_paths_ok (hvalu : ∀ value ∈ values, NormalEntry root value)
    (hacc : ∀ path ∈ accepted, ∃ value, NormalEntry root value ∧ value.path = path)
    (h : accept_paths accepted values = .ok ()) :
    (∀ path ∈ accepted, ∀ value ∈ values,
      ¬ SovereignConfig.segments path <+: SovereignConfig.segments value.path) ∧
    values.Pairwise fun first second =>
      ¬ SovereignConfig.segments first.path <+: SovereignConfig.segments second.path := by
  induction values generalizing accepted with
  | nil => exact ⟨by simp, List.Pairwise.nil⟩
  | cons value values ih =>
    rw [accept_paths] at h
    split at h
    · simp at h
    · rename_i hnone
      simp only [Bool.or_eq_true, not_or, Bool.not_eq_true, contains_iff_mem] at hnone
      have hval := hvalu value mem_cons_self
      obtain ⟨hfol, htex, hne, _⟩ := hval.segments
      have hcle : ∀ path ∈ accepted,
          ¬ SovereignConfig.segments path <+: SovereignConfig.segments value.path := by
        intro path hpat hpre
        obtain ⟨before, hbef, rfl⟩ := hacc path hpat
        obtain ⟨_, htex', hne', _⟩ := hbef.segments
        by_cases heq : SovereignConfig.segments before.path = SovereignConfig.segments value.path
        · refine hnone.2 ?_
          rw [htex, ← heq, ← htex']
          exact hpat
        · have := (stored_ancestor_iff hval).mpr ⟨_, hne', hpre, heq, htex' ▸ hpat⟩
          rw [hnone.1] at this
          exact absurd this (by decide)
      have hres := ih (fun v hv => hvalu v (mem_cons_of_mem _ hv))
        (fun path hpat => by
          rcases mem_cons.mp hpat with rfl | hpat
          · exact ⟨value, hval, rfl⟩
          · exact hacc path hpat) h
      refine ⟨fun path hpat v hv => ?_, List.Pairwise.cons (fun v hv => ?_) hres.2⟩
      · rcases mem_cons.mp hv with rfl | hv
        · exact hcle path hpat
        · exact hres.1 path (mem_cons_of_mem _ hpat) v hv
      · exact hres.1 value.path mem_cons_self v hv

structure Normal (root : ConfigPath) (n : NormalizedSubtree) : Prop where
  entries : ∀ value ∈ n.values, NormalEntry root value
  displays : DisplaysOk n.displays
  apart : n.values.Pairwise fun first second => Apart first.path second.path

theorem le_of_prefix {ps qs : List Text} (hq : FoldSegments qs) (hne : ps ≠ [])
    (h : ps <+: qs) : path_text ps ≤ path_text qs := by
  have hp : FoldSegments ps := hq.initial h
  rw [path_text_of_ne hne, path_text_of_ne (fun hnil => hne (prefix_nil.mp (hnil ▸ h)))]
  by_cases heq : ps = qs
  · rw [heq]
  · have hpre := (render_delim_prefix_iff hp.free hq.free).mpr ⟨h, heq⟩
    rw [← not_lt]
    exact ((prefix_append _ _).trans hpre).le

theorem normalize_ok (h : normalize root values = .ok n) : Normal root n := by
  unfold normalize at h
  simp only [bind, Except.bind] at h
  split at h
  · simp at h
  · rename_i folded hfol
    obtain ⟨folded, displays⟩ := folded
    split at h
    · simp at h
    · rename_i hacc
      cases h
      have hemp : DisplaysOk ∅ := fun fold display hget => by simp at hget
      obtain ⟨hnor, hdis⟩ := fold_entries_ok hemp hfol
      have hent : ∀ value ∈ folded.insertionSort (fun first second => first.path ≤ second.path),
          NormalEntry root value := fun value hv => hnor value ((mem_insertionSort _).mp hv)
      obtain ⟨_, hpai⟩ := accept_paths_ok hent (by simp) hacc
      refine ⟨hent, hdis, ?_⟩
      have hsor := pairwise_insertionSort
        (fun first second : SubTreeEntry => first.path ≤ second.path) folded
      -- Sorting leaves only one direction for the loop to check.
      refine (hpai.and hsor).imp_of_mem (fun {first second} hf hs hrel => ⟨hrel.1, fun hpre => ?_⟩)
      obtain ⟨hfold, htex, hne, _⟩ := (hent first hf).segments
      obtain ⟨_, htex', hne', _⟩ := (hent second hs).segments
      have hle : second.path ≤ first.path := by
        rw [htex, htex']
        exact le_of_prefix hfold hne' hpre
      have heq : first.path = second.path := le_antisymm hrel.2 hle
      exact hrel.1 (by rw [heq])

theorem fold_entries_length (h : fold_entries root values displays = .ok (folded, displays')) :
    folded.length = values.length := by
  induction values generalizing displays folded with
  | nil =>
    cases h
    rfl
  | cons value values ih =>
    obtain ⟨p, rest, -, -, -, hres, rfl⟩ := fold_entries_cons h
    rw [length_cons, length_cons, ih hres]

theorem normalize_length (h : normalize root values = .ok n) : n.values.length = values.length := by
  unfold normalize at h
  simp only [bind, Except.bind] at h
  split at h
  · simp at h
  · rename_i folded hfol
    split at h
    · simp at h
    · cases h
      rw [length_insertionSort]
      exact fold_entries_length hfol

end SovereignConfig.Values
