/-
Whether the mutations can deadlock on their path locks. Byte order and segment order differ where
two paths first differ in `-` against `/`; without an alias of such paths nothing deadlocks.
-/
import SovereignConfig.Values.Transaction

namespace SovereignConfig.Values

open Lib Text List Function

/-! ## The plan of one path, on segments -/

theorem ancestor_keys_eq (s : Text) : ∀ (ss : List Text) (built : Text),
    ancestor_keys built ss =
      (proper_prefixes (ss ++ [s])).tail.map (fun u => built ++ render '/' u)
  | [], _ => rfl
  | t :: ss, built => by
    have hnil : ∃ rest, proper_prefixes (ss ++ [s]) = [] :: rest := by
      cases ss with
      | nil => exact ⟨_, rfl⟩
      | cons u us => exact ⟨_, rfl⟩
    obtain ⟨rest, hres⟩ := hnil
    simp [ancestor_keys, ancestor_keys_eq s ss, proper_prefixes, hres, comp_def]

def ancestor_locks (ss : List Text) : List (LockRequest Text) :=
  (proper_prefixes ss).map fun u => ⟨path_text u, false⟩

variable {r : LockRequest Text} {ss : List Text} {p q new_path source : ConfigPath} {value : Text}
  {paths : AliasPaths}

theorem mem_ancestor_locks :
    r ∈ ancestor_locks ss ↔ ∃ u, u <+: ss ∧ u ≠ ss ∧ r = ⟨path_text u, false⟩ := by
  simp only [ancestor_locks, mem_map, mem_proper_prefixes]
  constructor
  · rintro ⟨u, ⟨hu, hne⟩, rfl⟩
    exact ⟨u, hu, hne, rfl⟩
  · rintro ⟨u, hu, hne, rfl⟩
    exact ⟨u, ⟨hu, hne⟩, rfl⟩

theorem ancestor_locks_concat {s : Text} (h : FoldSegments (ss ++ [s])) :
    ancestor_locks (ss ++ [s]) = ⟨root_text, false⟩ ::
      (if path_text ss ≠ root_text then
        (ancestor_keys [] (((path_text ss).dropWhile (· == '/')).splitOn '/')).map (⟨·, false⟩)
      else []) := by
  cases hss : ss with
  | nil => simp [ancestor_locks, proper_prefixes, path_text]
  | cons t ts =>
    have hts : FoldSegments (t :: ts) := hss ▸ h.initial (prefix_append ss [s])
    have hdro := dropWhile_render hts.free fun s hs => (hts s hs).1
    rw [path_text_cons, if_pos (render_ne_root hts), hdro, splitOn_render hts.free (by simp),
      ancestor_keys_eq s]
    simp [ancestor_locks, proper_prefixes, path_text, comp_def]

theorem mutation_locks_eq (p : ConfigPath) :
    mutation_locks p = ancestor_locks p.segs ++ [⟨p.fold, true⟩] := by
  have hseg := p.foldSegments_segs
  rw [mutation_locks, p.fold_eq]
  rcases eq_nil_or_concat p.segs with hnil | ⟨ss, s, hcat⟩
  · simp [hnil, path_text, ancestor_locks, proper_prefixes]
  · rw [concat_eq_append] at hcat
    rw [hcat] at hseg ⊢
    have hroo : path_text (ss ++ [s]) ≠ root_text := by
      rw [path_text_of_ne (by simp)]
      exact render_ne_root hseg
    rw [ancestor_locks_concat hseg, parent_path_concat hseg]
    simp only [if_pos hroo]

theorem segments_fold (p : ConfigPath) : segments p.fold = p.segs := rfl

theorem mem_mutation_locks :
    r ∈ mutation_locks p ↔
      ∃ u, u <+: p.segs ∧ r = ⟨path_text u, decide (u = p.segs)⟩ := by
  rw [mutation_locks_eq, mem_append, mem_ancestor_locks, mem_singleton, p.fold_eq]
  constructor
  · rintro (⟨u, hu, hne, rfl⟩ | rfl)
    · exact ⟨u, hu, by simp [hne]⟩
    · exact ⟨p.segs, prefix_rfl, by simp⟩
  · rintro ⟨u, hu, rfl⟩
    by_cases hne : u = p.segs
    · exact Or.inr (by simp [hne])
    · exact Or.inl ⟨u, hu, hne, by simp [hne]⟩

theorem segments_key {u : List Text} (hu : u <+: p.segs) :
    segments (path_text u) = u := segments_path_text (p.foldSegments_segs.initial hu)

theorem mutation_locks_up (p : ConfigPath) :
    (mutation_locks p).Pairwise fun r r' => segments r.key < segments r'.key := by
  have hmem : ∀ {u}, u ∈ proper_prefixes p.segs → segments (path_text u) = u := fun hu =>
    segments_key (mem_proper_prefixes.mp hu).1
  rw [mutation_locks_eq, pairwise_append]
  refine ⟨?_, pairwise_singleton _ _, ?_⟩
  · rw [ancestor_locks, pairwise_map]
    refine (pairwise_proper_prefixes p.segs).imp_of_mem fun hu hv hlt => ?_
    simp only [hmem hu, hmem hv]
    exact hlt
  · intro r hr r' hr'
    obtain ⟨u, hu, hne, rfl⟩ := mem_ancestor_locks.mp hr
    obtain rfl := mem_singleton.mp hr'
    rw [segments_key hu, segments_fold]
    exact lt_of_prefix_ne hu hne

/-- **Two paths whose segments are in order** are locked in order: what the second path shares
with the first is already held, and the rest is beyond it. -/
theorem mutation_locks_ordered (hlt : p.segs < q.segs) :
    Ordered segments [] (mutation_locks p ++ mutation_locks q) := by
  refine ordered_append.mpr ⟨Ordered.of_pairwise (mutation_locks_up p) fun r _ =>
    Or.inr fun r' hr' => absurd hr' not_mem_nil, Ordered.of_pairwise (mutation_locks_up q) ?_⟩
  intro r hr
  obtain ⟨u, hu, rfl⟩ := mem_mutation_locks.mp hr
  by_cases hup : u <+: p.segs
  · have hne : u ≠ q.segs := by
      rintro rfl
      rcases eq_or_ne q.segs p.segs with he | he
      · exact absurd hlt (by rw [he]; exact lt_irrefl _)
      · exact absurd (lt_of_prefix_ne hup he) (lt_asymm hlt)
    refine Or.inl ⟨⟨path_text u, decide (u = p.segs)⟩, ?_, rfl, by simp [hne]⟩
    simpa using mem_mutation_locks.mpr ⟨u, hup, rfl⟩
  · refine Or.inr fun r' hr' => ?_
    obtain ⟨w, hw, rfl⟩ := mem_mutation_locks.mp (by simpa using hr')
    simp only [segments_key hu, segments_key hw]
    exact prefix_lt_of_lt hlt hw hu hup

/-- The first place where two texts differ has `-` in one and `/` in the other. -/
def misordered : Text → Text → Bool
  | c :: s, d :: t =>
    if c = d then misordered s t else (c == '-' && d == '/') || (c == '/' && d == '-')
  | _, _ => false

theorem misordered_comm : ∀ s t : Text, misordered s t = misordered t s
  | [], [] => rfl
  | [], _ :: _ => rfl
  | _ :: _, [] => rfl
  | c :: s, d :: t => by
    simp only [misordered, misordered_comm s t, eq_comm]
    split
    · rfl
    · rw [Bool.or_comm, Bool.and_comm, Bool.and_comm (c == '-')]

theorem misordered_self : ∀ s : Text, misordered s s = false
  | [] => rfl
  | c :: s => by rw [misordered, if_pos rfl, misordered_self s]

theorem segment_char_below_slash {c : Char} (h : segment_char c = true) (hlt : c < '/') :
    c = '-' := by
  have hval : c.val.toNat < 47 := hlt
  simp only [segment_char, Char.isAlpha, Char.isUpper, Char.isLower, Char.isDigit,
    Bool.or_eq_true, Bool.and_eq_true, decide_eq_true_eq, beq_iff_eq, ge_iff_le,
    UInt32.le_iff_toNat_le] at h
  rcases h with (((h | h) | h) | rfl) | rfl
  · exact absurd hval (Nat.not_lt.mpr (le_trans (by decide) h.1))
  · exact absurd hval (Nat.not_lt.mpr (le_trans (by decide) h.1))
  · exact absurd hval (Nat.not_lt.mpr (le_trans (by decide) h.1))
  · rfl
  · exact absurd hval (by decide)

theorem segment_lt {x y : Text} (hy : y = [] ∨ ∃ y', y = '/' :: y') : ∀ {s t : Text},
    (∀ c ∈ s, segment_char c = true) → s ++ x < t ++ y → misordered (s ++ x) (t ++ y) = false →
    s < t ∨ s = t ∧ x < y ∧ misordered x y = false
  | [], [], _, hlt, hm => Or.inr ⟨rfl, hlt, hm⟩
  | [], d :: t, _, _, _ => Or.inl (nil_lt_cons d t)
  | c :: s, [], hs, hlt, hm => by
    have hc := hs c mem_cons_self
    rcases hy with rfl | ⟨y', rfl⟩
    · exact absurd hlt (not_lt_nil _)
    · simp only [cons_append, nil_append, cons_lt_cons_iff] at hlt hm
      rcases hlt with hlt | ⟨rfl, _⟩
      · -- Only `-` sorts before the delimiter, and that is the exception.
        obtain rfl := segment_char_below_slash hc hlt
        exact absurd hm (by simp [misordered])
      · exact absurd hc (by simp [segment_char_slash])
  | c :: s, d :: t, hs, hlt, hm => by
    simp only [cons_append, cons_lt_cons_iff] at hlt ⊢
    rcases hlt with hlt | ⟨rfl, hlt⟩
    · exact Or.inl (Or.inl hlt)
    · simp only [cons_append, misordered, if_pos] at hm
      rcases segment_lt hy (fun b hb => hs b (mem_cons_of_mem c hb)) hlt hm with h | ⟨rfl, h⟩
      · exact Or.inl (Or.inr ⟨rfl, h⟩)
      · exact Or.inr ⟨rfl, h⟩

theorem segments_lt_of_bytes_lt {ps qs : List Text} (hp : FoldSegments ps)
    (hlt : render '/' ps < render '/' qs)
    (hm : misordered (render '/' ps) (render '/' qs) = false) : ps < qs := by
  induction ps generalizing qs with
  | nil =>
    cases qs with
    | nil => exact absurd hlt (lt_irrefl _)
    | cons q qs => exact nil_lt_cons q qs
  | cons p ps ih =>
    cases qs with
    | nil => exact absurd hlt (not_lt_nil _)
    | cons q qs =>
      simp only [render_cons, cons_lt_cons_iff, lt_irrefl, true_and, false_or] at hlt
      simp only [render_cons, misordered, if_pos] at hm
      have hcha : ∀ c ∈ p, segment_char c = true := fun c hc => ((hp p mem_cons_self).2 c hc).1
      rcases segment_lt (render_nil_or_cons qs) hcha hlt hm with h | ⟨rfl, h, hm'⟩
      · exact cons_lt_cons_iff.mpr (Or.inl h)
      · refine cons_lt_cons_iff.mpr (Or.inr ⟨rfl, ih (fun s hs => ?_) h hm'⟩)
        exact hp s (mem_cons_of_mem _ hs)

theorem misordered_cut : ∀ {s t : Text}, s < t → misordered s t = true →
    ∃ u v w, s = u ++ '-' :: v ∧ t = u ++ '/' :: w
  | [], _, _, hm => absurd hm (by simp [misordered])
  | _ :: _, [], hlt, _ => absurd hlt (not_lt_nil _)
  | c :: s, d :: t, hlt, hm => by
    rw [cons_lt_cons_iff] at hlt
    by_cases hcd : c = d
    · subst hcd
      rw [misordered, if_pos rfl] at hm
      have hlt' : s < t := hlt.resolve_left (lt_irrefl c) |>.2
      obtain ⟨u, v, w, rfl, rfl⟩ := misordered_cut hlt' hm
      exact ⟨c :: u, v, w, rfl, rfl⟩
    · rw [misordered, if_neg hcd] at hm
      simp only [Bool.or_eq_true, Bool.and_eq_true, beq_iff_eq] at hm
      rcases hm with ⟨rfl, rfl⟩ | ⟨rfl, rfl⟩
      · exact ⟨[], s, t, rfl, rfl⟩
      · exact absurd (hlt.resolve_right fun h => hcd h.1) (by decide)

/-- An alias whose two paths first differ in `-` against `/`. -/
def Mutation.misordered : Mutation → Bool
  | add_value_path paths =>
    Values.misordered (to_ascii_lowercase paths.source) (to_ascii_lowercase paths.new_path)
  | _ => false

theorem parse_operation_fold (h : ConfigPath.parse_operation value = .ok p) :
    p.fold = to_ascii_lowercase value := by
  rw [ConfigPath.fold, (parse_operation_path h).1]

theorem parse_operation_render (h : ConfigPath.parse_operation value = .ok p) :
    p.fold = render '/' p.segs := by
  have hne : p.segs ≠ [] := fun hnil =>
    operation_ne_root (parse_operation_canonical h) (p.segs_eq_nil.mp hnil)
  rw [p.fold_eq, path_text_of_ne hne]

theorem add_value_path_locks (hsou : ConfigPath.parse_operation paths.source = .ok source)
    (hnew : ConfigPath.parse_operation paths.new_path = .ok new_path)
    (hne : source.fold ≠ new_path.fold) :
    ∃ p q : ConfigPath, p.fold < q.fold ∧ p.fold = render '/' p.segs ∧ q.fold = render '/' q.segs ∧
      (Mutation.add_value_path paths).locks = mutation_locks p ++ mutation_locks q ∧
      (Mutation.add_value_path paths).misordered = misordered p.fold q.fold := by
  have hloc : (Mutation.add_value_path paths).locks =
      mutation_locks (alias_order source new_path).1 ++
        mutation_locks (alias_order source new_path).2 := by
    rw [Mutation.locks, hsou, hnew]
    simp only [if_neg hne]
  rw [hloc, Mutation.misordered, ← parse_operation_fold hsou, ← parse_operation_fold hnew]
  have hs := parse_operation_render hsou
  have hn := parse_operation_render hnew
  unfold alias_order
  split
  · rename_i hle
    exact ⟨source, new_path, lt_of_le_of_ne hle hne, hs, hn, rfl, rfl⟩
  · rename_i hle
    exact ⟨new_path, source, not_le.mp hle, hn, hs, rfl, misordered_comm _ _⟩

theorem path_locks_ordered (path : Except PathError ConfigPath) :
    Ordered segments [] (path_locks path) := by
  cases path with
  | error e => trivial
  | ok p =>
    exact Ordered.of_pairwise (mutation_locks_up p) fun r _ =>
      Or.inr fun r' hr' => absurd hr' not_mem_nil

theorem mutation_ordered {mutation : Mutation} (h : mutation.misordered = false) :
    Ordered segments [] mutation.locks := by
  cases mutation with
  | put_value path written => exact path_locks_ordered _
  | replace_sub_tree path values => exact path_locks_ordered _
  | delete_values path recurse => exact path_locks_ordered _
  | add_value_path paths =>
    cases hsou : ConfigPath.parse_operation paths.source with
    | error e =>
      rw [Mutation.locks, hsou]
      trivial
    | ok source =>
      cases hnew : ConfigPath.parse_operation paths.new_path with
      | error e =>
        rw [Mutation.locks, hsou, hnew]
        trivial
      | ok new_path =>
        by_cases hne : source.fold = new_path.fold
        · rw [Mutation.locks, hsou, hnew]
          simp only [if_pos hne]
          trivial
        · obtain ⟨p, q, hlt, hp, hq, hloc, hmis⟩ := add_value_path_locks hsou hnew hne
          rw [hloc]
          refine mutation_locks_ordered (segments_lt_of_bytes_lt p.foldSegments_segs ?_ ?_)
          · rw [← hp, ← hq]
            exact hlt
          · rw [← hp, ← hq, ← hmis]
            exact h

theorem parse_operation_segments (h : FoldSegments ss) (hne : ss ≠ []) :
    ∃ p, ConfigPath.parse_operation (render '/' ss) = .ok p ∧ p.segs = ss ∧
      p.fold = render '/' ss := by
  have hok : ∀ s ∈ ss, segment_ok s = true := by
    intro s hs
    obtain ⟨hsne, hcha⟩ := h s hs
    simp only [segment_ok, Bool.and_eq_true, all_eq_true, Bool.not_eq_true',
      isEmpty_eq_false_iff]
    exact ⟨hsne, fun c hc => (hcha c hc).1⟩
  have hop : operation_path (render '/' ss) = true := (operation_path_iff _).mpr ⟨ss, hne, hok, rfl⟩
  have hfol : to_ascii_lowercase (render '/' ss) = render '/' ss := by
    rw [lower_render]
    congr 1
    refine (map_congr_left fun s hs => ?_).trans (map_id ss)
    exact (map_congr_left fun c hc => ((h s hs).2 c hc).2).trans (map_id s)
  refine ⟨⟨render '/' ss, Or.inr hop⟩, by rw [ConfigPath.parse_operation, dif_pos hop], ?_, hfol⟩
  rw [ConfigPath.segs, ConfigPath.fold, hfol, ← path_text_of_ne hne, segments_path_text h]

/-- What a transaction holds that has locked `q` and then, for a path below `p`, what is above
`p`: never `p` itself, and nothing but `q` exclusively. -/
theorem locks_short_of (hdow : ¬ p.segs <+: q.segs)
    (hr : r ∈ mutation_locks q ++ ancestor_locks p.segs) :
    ∃ v, FoldSegments v ∧ r.key = path_text v ∧ v ≠ p.segs ∧ (r.exclusive = true → v = q.segs) := by
  rcases mem_append.mp hr with hr | hr
  · obtain ⟨v, hv, rfl⟩ := mem_mutation_locks.mp hr
    exact ⟨v, q.foldSegments_segs.initial hv, rfl, fun h => hdow (h ▸ hv), by simp⟩
  · obtain ⟨v, hv, hne, rfl⟩ := mem_ancestor_locks.mp hr
    exact ⟨v, p.foldSegments_segs.initial hv, rfl, hne, by simp⟩

theorem locks_apart (hup : ¬ q.segs <+: p.segs) (hdow : ¬ p.segs <+: q.segs) :
    ∀ x ∈ mutation_locks q ++ ancestor_locks p.segs,
      ∀ y ∈ mutation_locks p ++ ancestor_locks q.segs, ¬ x.Conflicts y := by
  rintro x hx y hy ⟨hkey, hex⟩
  obtain ⟨v, hvf, hvk, hvne, hvx⟩ := locks_short_of hdow hx
  obtain ⟨w, hwf, hwk, hwne, hwx⟩ := locks_short_of hup hy
  obtain rfl : v = w := path_text_inj hvf hwf (by rw [← hvk, ← hwk, hkey])
  rcases hex with h | h
  · exact hwne (hvx h)
  · exact hvne (hwx h)

theorem mutation_locks_through {us vs : List Text} (h : p.segs = us ++ vs) (hvs : vs ≠ []) :
    ∃ rest, mutation_locks p = ancestor_locks us ++ ⟨path_text us, false⟩ :: rest := by
  obtain ⟨rest, hres⟩ := proper_prefixes_through us hvs
  rw [mutation_locks_eq, h, ancestor_locks, hres, map_append, map_cons,
    append_assoc, cons_append]
  exact ⟨_, rfl⟩

theorem misordered_branch (hp : p.fold = render '/' p.segs) (hq : q.fold = render '/' q.segs)
    (hlt : p.fold < q.fold) (hmis : misordered p.fold q.fold = true) :
    ∃ us vs, q.segs = us ++ vs ∧ vs ≠ [] ∧ us ≠ [] ∧ ¬ us <+: p.segs ∧ ¬ p.segs <+: us ∧
      render '/' us <+: p.fold := by
  obtain ⟨u, v, w, hpu, hqu⟩ := misordered_cut hlt hmis
  obtain ⟨us, vs, hseg, hvs, rfl⟩ := render_cut q.foldSegments_segs.free (hq.symm.trans hqu)
  -- What follows `us` in the smaller path is a `-`, so no segment ends there.
  have hdas : ∀ z, render '/' z ≠ '-' :: v := by
    intro z hz
    rcases render_nil_or_cons (d := '/') z with h | ⟨y, h⟩ <;> simp [h] at hz
  refine ⟨us, vs, hseg, hvs, ?_, ?_, ?_, ⟨_, hpu.symm⟩⟩
  · rintro rfl
    exact hdas p.segs (hp.symm.trans hpu)
  · rintro ⟨z, hz⟩
    rw [← hz, render_append, hpu, append_cancel_left_eq] at hp
    exact hdas z hp.symm
  · rintro ⟨z, rfl⟩
    have hlen := congrArg List.length hpu
    rw [hp, render_append] at hlen
    simp at hlen

/-- **A misordered alias deadlocks with another alias:** of the path where its greater path
branches off, and of a path below its smaller one. -/
theorem misordered_deadlocks (hsou : ConfigPath.parse_operation paths.source = .ok source)
    (hnew : ConfigPath.parse_operation paths.new_path = .ok new_path)
    (hmis : (Mutation.add_value_path paths).misordered = true) :
    ∃ other : AliasPaths, ∃ s,
      LockReach (fun i => (![Mutation.add_value_path paths, .add_value_path other] i).locks) s ∧
        Deadlocked s := by
  have hne : source.fold ≠ new_path.fold := by
    intro he
    rw [Mutation.misordered, ← parse_operation_fold hsou, ← parse_operation_fold hnew, he,
      misordered_self] at hmis
    exact absurd hmis (by decide)
  obtain ⟨p, q, hlt, hp, hq, hloc, hm⟩ := add_value_path_locks hsou hnew hne
  obtain ⟨us, vs, hseg, hvs, hus, hup, hdow, hpre⟩ := misordered_branch hp hq hlt (hm ▸ hmis)
  have hbel : FoldSegments (p.segs ++ [['x']]) := by
    intro s hs
    rcases mem_append.mp hs with hs | hs
    · exact p.foldSegments_segs s hs
    · rw [mem_singleton.mp hs]
      exact ⟨by simp, fun c hc => by rw [mem_singleton.mp hc]; decide⟩
  obtain ⟨top, htop, rfl, htopf⟩ :=
    parse_operation_segments (q.foldSegments_segs.initial ⟨vs, hseg.symm⟩) hus
  obtain ⟨low, hlow, hlows, hlowf⟩ := parse_operation_segments hbel (by simp)
  have hord : top.fold < low.fold := by
    obtain ⟨v, hv⟩ := hpre
    rw [htopf, hlowf, render_append, ← hp, ← hv]
    exact lt_of_prefix_ne ⟨_, (append_assoc _ _ _).symm⟩ (by simp)
  have hoth : (Mutation.add_value_path
      ⟨render '/' top.segs, render '/' (p.segs ++ [['x']])⟩).locks =
        mutation_locks top ++ mutation_locks low := by
    rw [Mutation.locks, htop, hlow]
    simp only [if_neg hord.ne, alias_order, if_pos hord.le]
  obtain ⟨rest, hres⟩ := mutation_locks_through hseg hvs
  obtain ⟨rest', hres'⟩ := mutation_locks_through hlows (by simp)
  have hsel : ∀ r : ConfigPath, ⟨path_text r.segs, true⟩ ∈ mutation_locks r := fun r =>
    mem_mutation_locks.mpr ⟨r.segs, prefix_rfl, by simp⟩
  refine ⟨⟨render '/' top.segs, render '/' (p.segs ++ [['x']])⟩, LockReach.crossed
    (a := mutation_locks p ++ ancestor_locks top.segs) (r := ⟨path_text top.segs, false⟩)
    (b := mutation_locks top ++ ancestor_locks p.segs) (t := ⟨path_text p.segs, false⟩)
    (c := rest) (d := rest') ?_ ?_ (locks_apart hup hdow)
    ⟨_, mem_append_left _ (hsel top), rfl, Or.inr rfl⟩
    ⟨_, mem_append_left _ (hsel p), rfl, Or.inr rfl⟩⟩
  · rw [append_assoc, ← hres]
    exact hloc
  · rw [append_assoc, ← hres']
    exact hoth

/-! ## Deadlock freedom -/

/-- **When the mutations cannot deadlock.** -/
theorem deadlock_free_unless_misordered (ι : Type) [DecidableEq ι] (mutations : ι → Mutation) :
    ((∀ i, (mutations i).misordered = false) →
      ∀ s, LockReach (fun i => (mutations i).locks) s → ¬ Deadlocked s) ∧
    ∀ (i : ι) (paths : AliasPaths) (source new_path : ConfigPath),
      mutations i = .add_value_path paths →
      ConfigPath.parse_operation paths.source = .ok source →
      ConfigPath.parse_operation paths.new_path = .ok new_path →
      (mutations i).misordered = true →
        ∃ other : AliasPaths, ∃ s,
          LockReach (fun j => (![mutations i, .add_value_path other] j).locks) s ∧
            Deadlocked s := by
  constructor
  · intro h s hs
    exact hs.not_deadlocked fun i => mutation_ordered (h i)
  · intro i paths source new_path hi hsou hnew hmis
    rw [hi] at hmis ⊢
    exact misordered_deadlocks hsou hnew hmis

/-- Two aliases into each other's subtrees, at work at once. -/
theorem deadlock_free_two_aliases :
    (∀ i, (![Mutation.add_value_path ⟨"/a/x".toList, "/b/y".toList⟩,
      .add_value_path ⟨"/b/x".toList, "/a/y".toList⟩] i).misordered = false) ∧
    ∀ s, LockReach (fun i => (![Mutation.add_value_path ⟨"/a/x".toList, "/b/y".toList⟩,
      .add_value_path ⟨"/b/x".toList, "/a/y".toList⟩] i).locks) s → ¬ Deadlocked s := by
  have h : ∀ i, (![Mutation.add_value_path ⟨"/a/x".toList, "/b/y".toList⟩,
      .add_value_path ⟨"/b/x".toList, "/a/y".toList⟩] i).misordered = false := by decide
  exact ⟨h, (deadlock_free_unless_misordered (Fin 2) _).1 h⟩

/-- The alias of `/a/x` at `/a-b` and the alias of `/a-b/y` at `/a` deadlock: the first holds
`/a-b` and asks to share `/a`, the second holds `/a` and asks to share `/a-b`. -/
theorem crossed_aliases_deadlock :
    ∃ s, LockReach (fun i => (![Mutation.add_value_path ⟨"/a/x".toList, "/a-b".toList⟩,
      .add_value_path ⟨"/a-b/y".toList, "/a".toList⟩] i).locks) s ∧ Deadlocked s := by
  refine LockReach.crossed
    (a := [⟨"/".toList, false⟩, ⟨"/a-b".toList, true⟩, ⟨"/".toList, false⟩])
    (b := [⟨"/".toList, false⟩, ⟨"/a".toList, true⟩, ⟨"/".toList, false⟩])
    (r := ⟨"/a".toList, false⟩) (c := [⟨"/a/x".toList, true⟩])
    (t := ⟨"/a-b".toList, false⟩) (d := [⟨"/a-b/y".toList, true⟩]) (by decide) (by decide) ?_ ?_ ?_
  · simp only [LockRequest.Conflicts]
    decide
  · exact ⟨⟨"/a".toList, true⟩, by decide, rfl, Or.inr rfl⟩
  · exact ⟨⟨"/a-b".toList, true⟩, by decide, rfl, Or.inr rfl⟩

end SovereignConfig.Values
