/-
`sovereign-config-core/src/path.rs` and `values/paths.rs`: the path grammar, folding and
confinement, each question about the text read as one about the fold's segments.
-/
import SovereignConfig.Text
import SovereignConfig.Lib.Segments

namespace SovereignConfig

open Lib Text List

/-! ## Grammar -/

def root_text : Text := ['/']

def segment_char (c : Char) : Bool := c.isAlpha || c.isDigit || c == '-' || c == '_'

def segment_ok (s : Text) : Bool := !s.isEmpty && s.all segment_char

/-- The grammar of an operation path, and of the `path` column's constraint:
`^/[A-Za-z0-9_-]+(/[A-Za-z0-9_-]+)*$`. -/
def operation_path : Text → Bool
  | '/' :: relative => !relative.isEmpty && (relative.splitOn '/').all segment_ok
  | _ => false

structure ConfigPath where
  path : Text
  canonical : path = root_text ∨ operation_path path = true
deriving DecidableEq

theorem canonical_of_operation {t : Text} (h : operation_path t = true) :
    t = root_text ∨ operation_path t = true := Or.inr h

theorem canonical_a : "/a".toList = root_text ∨ operation_path "/a".toList = true := by decide
theorem canonical_b : "/b".toList = root_text ∨ operation_path "/b".toList = true := by decide

inductive PathError where
  | NonCanonical
deriving DecidableEq

namespace ConfigPath

theorem eq_of_path {p q : ConfigPath} (h : p.path = q.path) : p = q := by
  cases p
  cases q
  exact (mk.injEq ..).mpr h

def root : ConfigPath := ⟨root_text, Or.inl rfl⟩

def parse_operation (value : Text) : Except PathError ConfigPath :=
  if h : operation_path value = true then .ok ⟨value, Or.inr h⟩ else .error .NonCanonical

def parse_selection (value : Text) : Except PathError ConfigPath :=
  if value = root_text then .ok root else parse_operation value

def as_str (p : ConfigPath) : Text := p.path

def fold (p : ConfigPath) : Text := to_ascii_lowercase p.path

/-- `is_at_or_below`, on bytes and ignoring ASCII case as the source has it. -/
def is_at_or_below (self root : ConfigPath) : Bool :=
  if root.path = root_text then true
  else
    let prefix_len := root.path.length
    decide (prefix_len ≤ self.path.length)
      && to_ascii_lowercase (self.path.take prefix_len) == to_ascii_lowercase root.path
      && (self.path.length == prefix_len || self.path[prefix_len]? == some '/')

end ConfigPath

/-! ## Fold-path arithmetic -/

def paths_collide (first second : Text) : Bool :=
  first == second
    || (strip_prefix_of first second).any (fun suffix => starts_with suffix ['/'])
    || (strip_prefix_of second first).any (fun suffix => starts_with suffix ['/'])

def parent_path (fold_path : Text) : Text :=
  match rsplit_once '/' fold_path with
  | none => root_text
  | some (parent, _) => if parent = [] then root_text else parent

/-- The subtree test of every statement: `$1 = '/' OR p = $1 OR starts_with(p, $1 || '/')`. -/
def at_or_below (path root : Text) : Bool :=
  root == root_text || path == root || starts_with path (root ++ ['/'])

/-! ## Segments -/

def FoldSegments (ss : List Text) : Prop :=
  ∀ s ∈ ss, s ≠ [] ∧ ∀ c ∈ s, segment_char c = true ∧ c.toLower = c

def path_text (ss : List Text) : Text := if ss = [] then root_text else render '/' ss

def segments (t : Text) : List Text := if t = root_text then [] else t.tail.splitOn '/'

theorem segment_char_slash : segment_char '/' = false := by decide

theorem toLower_eq_slash (c : Char) : c.toLower = '/' ↔ c = '/' := by
  by_cases h : c.isUpper = true
  · constructor
    · intro e
      have hlow : c.toLower.isLower = true := by
        rw [Char.isLower_toLower_eq_isAlpha, Char.isAlpha, h, Bool.true_or]
      rw [e] at hlow
      exact absurd hlow (by decide)
    · rintro rfl
      exact absurd h (by decide)
  · rw [Char.toLower_eq_of_not_isUpper h]

theorem segment_char_toLower {c : Char} (h : segment_char c = true) :
    segment_char c.toLower = true := by
  by_cases hu : c.isUpper = true
  · have : c.isAlpha = true := by rw [Char.isAlpha, hu, Bool.true_or]
    simp [segment_char, Char.isAlpha_toLower_eq_isAlpha, this]
  · rw [Char.toLower_eq_of_not_isUpper hu]
    exact h

/-! ### From text to segments -/

variable {ss ts ps rs : List Text}

theorem FoldSegments.free (h : FoldSegments ss) : Free '/' ss := by
  intro s hs hmem
  have := ((h s hs).2 '/' hmem).1
  rw [segment_char_slash] at this
  exact absurd this (by decide)

theorem FoldSegments.initial (h : FoldSegments ts) (hp : ss <+: ts) :
    FoldSegments ss := fun s hs => h s (hp.subset hs)

theorem FoldSegments.nil : FoldSegments [] := fun _ hs => absurd hs not_mem_nil

theorem free_of_segments_ok (h : ∀ s ∈ ss, segment_ok s = true) : Free '/' ss := by
  intro s hs hmem
  have hok := h s hs
  simp only [segment_ok, Bool.and_eq_true, all_eq_true] at hok
  exact absurd (hok.2 '/' hmem) (by decide)

theorem operation_path_iff (t : Text) : operation_path t = true ↔
    ∃ ss, ss ≠ [] ∧ (∀ s ∈ ss, segment_ok s = true) ∧ t = render '/' ss := by
  constructor
  · intro h
    unfold operation_path at h
    split at h
    · rename_i relative
      simp only [Bool.and_eq_true, all_eq_true] at h
      exact ⟨relative.splitOn '/', splitOn_ne_nil _ _, h.2, (render_splitOn relative).symm⟩
    · exact absurd h (by decide)
  · rintro ⟨ss, hne, hok, rfl⟩
    have hspl := splitOn_render (free_of_segments_ok hok) hne
    cases ss with
    | nil => exact absurd rfl hne
    | cons s ss =>
      rw [render_cons, tail_cons] at hspl
      rw [render_cons]
      simp only [operation_path, hspl, Bool.and_eq_true, all_eq_true]
      refine ⟨?_, hok⟩
      have hs := hok s mem_cons_self
      cases s with
      | nil => exact absurd hs (by decide)
      | cons c s => rfl

theorem lower_render (ss : List Text) :
    to_ascii_lowercase (render '/' ss) = render '/' (ss.map to_ascii_lowercase) := by
  induction ss with
  | nil => rfl
  | cons s ss ih =>
    simp only [render_cons, map_cons, to_ascii_lowercase, map_append] at ih ⊢
    rw [ih]
    rfl

theorem foldSegments_lower (h : ∀ s ∈ ss, segment_ok s = true) :
    FoldSegments (ss.map to_ascii_lowercase) := by
  intro s hs
  obtain ⟨u, hu, rfl⟩ := mem_map.mp hs
  have hok := h u hu
  simp only [segment_ok, Bool.and_eq_true, all_eq_true] at hok
  refine ⟨?_, fun c hc => ?_⟩
  · intro hnil
    rw [to_ascii_lowercase, map_eq_nil_iff] at hnil
    rw [hnil] at hok
    exact absurd hok.1 (by decide)
  · obtain ⟨b, hb, rfl⟩ := mem_map.mp hc
    exact ⟨segment_char_toLower (hok.2 b hb), Char.toLower_toLower_eq_toLower b⟩

@[simp] theorem path_text_nil : path_text [] = root_text := rfl

theorem path_text_of_ne (h : ss ≠ []) : path_text ss = render '/' ss := if_neg h

@[simp] theorem path_text_cons (s : Text) (ss : List Text) :
    path_text (s :: ss) = render '/' (s :: ss) := rfl

theorem render_ne_root (h : FoldSegments ss) : render '/' ss ≠ root_text := by
  cases ss with
  | nil => simp [root_text]
  | cons s ss =>
    have hs := (h s mem_cons_self).1
    simp [root_text, hs]

theorem segments_path_text (h : FoldSegments ss) : segments (path_text ss) = ss := by
  cases ss with
  | nil => rfl
  | cons s ss =>
    rw [path_text_cons, segments, if_neg (render_ne_root h)]
    exact splitOn_render h.free (by simp)

theorem path_text_inj (hs : FoldSegments ss) (ht : FoldSegments ts)
    (h : path_text ss = path_text ts) : ss = ts := by
  rw [← segments_path_text hs, h, segments_path_text ht]

namespace ConfigPath

def segs (p : ConfigPath) : List Text := segments p.fold

theorem fold_spec (p : ConfigPath) : ∃ ss, FoldSegments ss ∧ p.fold = path_text ss ∧
    (ss = [] ↔ p.path = root_text) := by
  rcases p.canonical with h | h
  · exact ⟨[], FoldSegments.nil, by rw [fold, h]; rfl, by simp [h]⟩
  · obtain ⟨ss, hne, hok, hp⟩ := (operation_path_iff p.path).mp h
    have hne' : ss.map to_ascii_lowercase ≠ [] := by simpa using hne
    refine ⟨ss.map to_ascii_lowercase, foldSegments_lower hok, ?_, ?_⟩
    · rw [fold, hp, lower_render, path_text_of_ne hne']
    · refine iff_of_false hne' (fun hroo => ?_)
      rw [hp] at hroo
      have hlow := congrArg to_ascii_lowercase hroo
      rw [lower_render] at hlow
      exact render_ne_root (foldSegments_lower hok) hlow

theorem foldSegments_segs (p : ConfigPath) : FoldSegments p.segs := by
  obtain ⟨ss, hss, hp, -⟩ := p.fold_spec
  rw [segs, hp, segments_path_text hss]
  exact hss

theorem fold_eq (p : ConfigPath) : p.fold = path_text p.segs := by
  obtain ⟨ss, hss, hp, -⟩ := p.fold_spec
  rw [segs, hp, segments_path_text hss]

theorem fold_chars (p : ConfigPath) {c : Char} (h : c ∈ p.fold) :
    c = '/' ∨ segment_char c = true := by
  rw [p.fold_eq] at h
  cases hseg : p.segs with
  | nil =>
    rw [hseg] at h
    exact Or.inl (mem_singleton.mp h)
  | cons s ss =>
    rw [hseg, path_text_cons] at h
    obtain ⟨u, hu, hc⟩ := mem_flatMap.mp h
    rcases mem_cons.mp hc with rfl | hc
    · exact Or.inl rfl
    · exact Or.inr ((p.foldSegments_segs u (hseg ▸ hu)).2 c hc).1

variable {p : ConfigPath} {ss : List Text}

theorem fold_eq_iff (h : FoldSegments ss) : p.fold = path_text ss ↔ p.segs = ss := by
  rw [fold_eq]
  exact ⟨path_text_inj p.foldSegments_segs h, congrArg path_text⟩

theorem segs_of_render {path : ConfigPath} (hne : ss ≠ []) (hok : ∀ s ∈ ss, segment_ok s = true)
    (hpat : path.path = render '/' ss) : path.segs = ss.map to_ascii_lowercase := by
  refine (fold_eq_iff (foldSegments_lower hok)).mp ?_
  rw [fold, hpat, lower_render, path_text_of_ne (by simpa using hne)]

theorem segs_eq_nil (p : ConfigPath) : p.segs = [] ↔ p.path = root_text := by
  obtain ⟨ss, hss, hp, hroo⟩ := p.fold_spec
  rw [segs, hp, segments_path_text hss, hroo]

theorem root_prefix (p : ConfigPath) : root_text <+: p.fold := by
  rw [fold_eq]
  cases p.segs with
  | nil => exact prefix_refl _
  | cons s ss => exact ⟨s ++ render '/' ss, rfl⟩

theorem fold_canonical (p : ConfigPath) : p.fold = root_text ∨ operation_path p.fold = true := by
  rcases p.canonical with h | h
  · exact Or.inl (by rw [fold, h]; rfl)
  · refine Or.inr ((operation_path_iff _).mpr ?_)
    obtain ⟨ss, hne, hok, hp⟩ := (operation_path_iff p.path).mp h
    refine ⟨ss.map to_ascii_lowercase, by simpa using hne, fun s hs => ?_, ?_⟩
    · obtain ⟨hsne, hcha⟩ := foldSegments_lower hok s hs
      simp only [segment_ok, Bool.and_eq_true, all_eq_true, Bool.not_eq_true',
        isEmpty_eq_false_iff]
      exact ⟨hsne, fun c hc => (hcha c hc).1⟩
    · rw [fold, hp, lower_render]

def folded (p : ConfigPath) : ConfigPath := ⟨p.fold, p.fold_canonical⟩

theorem segs_inj {q : ConfigPath} : p.segs = q.segs ↔ p.fold = q.fold := by
  constructor
  · intro h; rw [fold_eq, fold_eq, h]
  · intro h; rw [segs, segs, h]

end ConfigPath

theorem starts_with_slash_iff (hp : FoldSegments ps) (hr : FoldSegments rs) (hne : rs ≠ []) :
    starts_with (path_text ps) (path_text rs ++ ['/']) = true ↔ rs <+: ps ∧ rs ≠ ps := by
  rw [starts_with_iff, path_text_of_ne hne]
  cases ps with
  | nil =>
    refine iff_of_false (fun h => ?_) (fun h => hne (prefix_nil.mp h.1))
    have hlen := h.length_le
    cases rs with
    | nil => exact hne rfl
    | cons r rs =>
      simp [root_text] at hlen
  | cons p ps => rw [path_text_cons, render_delim_prefix_iff hr.free hp.free]

theorem at_or_below_iff (hp : FoldSegments ps) (hr : FoldSegments rs) :
    at_or_below (path_text ps) (path_text rs) = true ↔ rs <+: ps := by
  cases hrs : rs with
  | nil => simp [at_or_below]
  | cons r rs' =>
    have hne : rs ≠ [] := by simp [hrs]
    rw [← hrs]
    have hroo : (path_text rs == root_text) = false := by
      rw [path_text_of_ne hne]
      simpa using render_ne_root hr
    simp only [at_or_below, hroo, Bool.false_or, Bool.or_eq_true, beq_iff_eq,
      starts_with_slash_iff hp hr hne]
    constructor
    · rintro (h | h)
      · rw [path_text_inj hp hr h]
      · exact h.1
    · intro h
      by_cases heq : rs = ps
      · exact Or.inl (by rw [heq])
      · exact Or.inr ⟨h, heq⟩

theorem paths_collide_iff {qs : List Text} (hp : FoldSegments ps) (hq : FoldSegments qs)
    (hpne : ps ≠ []) (hqne : qs ≠ []) :
    paths_collide (path_text ps) (path_text qs) = true ↔ ps <+: qs ∨ qs <+: ps := by
  simp only [paths_collide, Bool.or_eq_true, beq_iff_eq, strip_prefix_then]
  rw [← starts_with_iff, ← starts_with_iff, starts_with_slash_iff hp hq hqne,
    starts_with_slash_iff hq hp hpne]
  constructor
  · rintro ((h | h) | h)
    · exact Or.inl (by rw [path_text_inj hp hq h])
    · exact Or.inr h.1
    · exact Or.inl h.1
  · rintro (h | h)
    · by_cases heq : ps = qs
      · exact Or.inl (Or.inl (by rw [heq]))
      · exact Or.inr ⟨h, heq⟩
    · by_cases heq : qs = ps
      · exact Or.inl (Or.inl (by rw [heq]))
      · exact Or.inl (Or.inr ⟨h, heq⟩)

theorem parent_path_concat {s : Text} (h : FoldSegments (ss ++ [s])) :
    parent_path (path_text (ss ++ [s])) = path_text ss := by
  have hs : '/' ∉ s := h.free s (by simp)
  rw [path_text_of_ne (by simp), parent_path, rsplit_once_render hs]
  by_cases hss : ss = []
  · subst hss; rfl
  · simp only
    rw [if_neg (by simpa [render_eq_nil] using hss), path_text_of_ne hss]

theorem is_at_or_below_iff (p r : ConfigPath) :
    p.is_at_or_below r = true ↔ r.segs <+: p.segs := by
  by_cases hroo : r.path = root_text
  · have : r.segs = [] := r.segs_eq_nil.mpr hroo
    simp [ConfigPath.is_at_or_below, hroo, this]
  · have hne : r.segs ≠ [] := fun h => hroo (r.segs_eq_nil.mp h)
    rw [← at_or_below_iff p.foldSegments_segs r.foldSegments_segs, ← p.fold_eq, ← r.fold_eq]
    have hfol : (r.fold == root_text) = false := by
      rw [r.fold_eq, path_text_of_ne hne]
      simpa using render_ne_root r.foldSegments_segs
    have hlen : ∀ q : ConfigPath, q.fold.length = q.path.length := fun q => length_map ..
    simp only [ConfigPath.is_at_or_below, if_neg hroo, at_or_below, hfol, Bool.false_or,
      Bool.and_eq_true, decide_eq_true_eq, Bool.or_eq_true, beq_iff_eq, starts_with_iff]
    have htak : to_ascii_lowercase (p.path.take r.path.length) = p.fold.take r.path.length :=
      map_take
    have hget : p.path[r.path.length]? = some '/' ↔ p.fold[r.path.length]? = some '/' := by
      rw [ConfigPath.fold, to_ascii_lowercase, getElem?_map]
      cases p.path[r.path.length]? with
      | none => simp
      | some c => simp [toLower_eq_slash]
    rw [htak, hget, show to_ascii_lowercase r.path = r.fold from rfl]
    constructor
    · rintro ⟨⟨hle, htk⟩, hend⟩
      have hdec : p.fold = r.fold ++ p.fold.drop r.path.length := by
        conv_lhs => rw [← take_append_drop r.path.length p.fold, htk]
      rcases hend with hend | hend
      · left
        rw [hdec, List.drop_eq_nil_of_le (by rw [hlen]; omega), List.append_nil]
      · right
        obtain ⟨hlt, hc⟩ := List.getElem?_eq_some_iff.mp hend
        refine ⟨p.fold.drop (r.path.length + 1), ?_⟩
        conv_rhs => rw [hdec, List.drop_eq_getElem_cons hlt, hc]
        simp
    · rintro (h | ⟨t, ht⟩)
      · have hl : p.path.length = r.path.length := by rw [← hlen p, ← hlen r, h]
        refine ⟨⟨by omega, ?_⟩, Or.inl hl⟩
        rw [h, ← hlen r, take_length]
      · have hl : r.fold.length = r.path.length := hlen r
        refine ⟨⟨?_, ?_⟩, Or.inr ?_⟩
        · rw [← hlen p, ← hl, ← ht]; simp
        · rw [← ht, ← hl, append_assoc, take_left]
        · rw [← ht, ← hl]; simp

end SovereignConfig
