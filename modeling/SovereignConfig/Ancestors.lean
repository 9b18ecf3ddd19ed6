/-
The namespaces above a path, in both of its forms, as `values/paths.rs` and the web client's
`tree.rs` derive them by one loop (`lockstep`). An index out of range is a panic.
-/
import SovereignConfig.Path

namespace SovereignConfig

open Lib Text List

def Encloses (key fold : Text) : Prop :=
  key = root_text ∨ (key ≠ [] ∧ key ++ ['/'] <+: fold)

namespace ConfigPath

variable {p : ConfigPath}

def named (p : ConfigPath) : List Text := segments p.path

def namespaces (p : ConfigPath) : List (Text × Text) :=
  (List.range p.segs.length).map fun n =>
    (path_text (p.segs.take n), path_text (p.named.take n))

theorem named_spec (p : ConfigPath) : p.path = path_text p.named ∧
    (∀ s ∈ p.named, segment_ok s = true) ∧ p.segs = p.named.map to_ascii_lowercase := by
  rcases p.canonical with hroo | hop
  · have hnam : p.named = [] := by rw [named, hroo]; rfl
    rw [hnam, hroo, p.segs_eq_nil.mpr hroo]
    simp
  · obtain ⟨ds, hne, hok, hpat⟩ := (operation_path_iff p.path).mp hop
    have hseg := segs_of_render hne hok hpat
    have hroo : p.path ≠ root_text := fun h =>
      hne (map_eq_nil_iff.mp (hseg.symm.trans (p.segs_eq_nil.mpr h)))
    have hnam : p.named = ds := by
      rw [named, segments, if_neg hroo, hpat, splitOn_render (free_of_segments_ok hok) hne]
    rw [hnam, path_text_of_ne hne]
    exact ⟨hpat, hok, hseg⟩

theorem length_named (p : ConfigPath) : p.named.length = p.segs.length := by
  rw [p.named_spec.2.2, length_map]

theorem named_ne_nil (h : p.path ≠ root_text) : p.named ≠ [] := by
  intro hnil
  have hpat := p.named_spec.1
  rw [hnil] at hpat
  exact h hpat

theorem path_eq_render (h : p.path ≠ root_text) : p.path = render '/' p.named := by
  rw [← path_text_of_ne (named_ne_nil h)]
  exact p.named_spec.1

theorem fold_eq_render (h : p.path ≠ root_text) : p.fold = render '/' p.segs := by
  rw [p.fold_eq, path_text_of_ne (mt p.segs_eq_nil.mp h)]

theorem lower_prefix (p : ConfigPath) (n : ℕ) :
    to_ascii_lowercase (path_text (p.named.take n)) = path_text (p.segs.take n) := by
  rw [p.named_spec.2.2, ← map_take]
  by_cases hnil : p.named.take n = []
  · rw [hnil]; rfl
  · rw [path_text_of_ne hnil, path_text_of_ne (by simpa using hnil), lower_render]

theorem written_prefix (h : p.path ≠ root_text) (n : ℕ) :
    path_text (p.named.take n) = p.path.take (path_text (p.segs.take n)).length := by
  have hlength : (path_text (p.segs.take n)).length = (path_text (p.named.take n)).length := by
    rw [← p.lower_prefix n]
    exact length_map ..
  have hini : path_text (p.named.take n) <+: p.path := by
    rw [path_eq_render h]
    by_cases hnil : p.named.take n = []
    · obtain ⟨s, ss, hcon⟩ := exists_cons_of_ne_nil (named_ne_nil h)
      rw [hnil, hcon]
      exact ⟨s ++ render '/' ss, rfl⟩
    · refine ⟨render '/' (p.named.drop n), ?_⟩
      rw [path_text_of_ne hnil, ← render_append, take_append_drop]
  rw [hlength]
  exact prefix_iff_eq_take.mp hini

variable {display key : Text}

/-- **The namespaces above a path are the proper ancestors of its fold,** each with the prefix
of the path that is as long. -/
theorem mem_namespaces (h : p.path ≠ root_text) :
    (key, display) ∈ p.namespaces ↔
      Encloses key p.fold ∧ display = p.path.take key.length := by
  have hfre := p.foldSegments_segs.free
  simp only [namespaces, mem_map, mem_range, Prod.mk.injEq]
  constructor
  · rintro ⟨n, hn, rfl, rfl⟩
    refine ⟨?_, written_prefix h n⟩
    by_cases hnil : p.segs.take n = []
    · exact Or.inl (by rw [hnil]; rfl)
    · rw [path_text_of_ne hnil, fold_eq_render h]
      refine Or.inr ⟨mt render_eq_nil.mp hnil, ?_⟩
      refine (render_delim_prefix_iff (hfre.initial ( take_prefix ..)) hfre).mpr
        ⟨ take_prefix .., fun heq => ?_⟩
      have hlength := congrArg List.length heq
      rw [length_take] at hlength
      omega
  · rintro ⟨hanc, rfl⟩
    have hpos : 0 < p.segs.length := length_pos_of_ne_nil (mt p.segs_eq_nil.mp h)
    rcases hanc with rfl | ⟨hne, v, hv⟩
    · exact ⟨0, hpos, rfl, written_prefix h 0⟩
    · rw [fold_eq_render h, append_assoc] at hv
      obtain ⟨us, vs, hseg, hvs, rfl⟩ := render_cut hfre hv.symm
      have hus : us ≠ [] := fun hnil => hne (render_eq_nil.mpr hnil)
      have htak : p.segs.take us.length = us := by rw [hseg, take_left]
      refine ⟨us.length, ?_, ?_, ?_⟩
      · rw [hseg, length_append]
        exact Nat.lt_add_of_pos_right (length_pos_of_ne_nil hvs)
      · rw [htak, path_text_of_ne hus]
      · rw [ written_prefix h, htak, path_text_of_ne hus]

theorem path_of_mem_namespaces (h : (key, display) ∈ p.namespaces) :
    ∃ q : ConfigPath, q.as_str = display ∧ q.fold = key := by
  obtain ⟨n, -, heq⟩ := mem_map.mp h
  obtain ⟨rfl, rfl⟩ := Prod.mk.inj heq
  have hcan : path_text (p.named.take n) = root_text ∨
      operation_path (path_text (p.named.take n)) = true := by
    by_cases hnil : p.named.take n = []
    · exact Or.inl (by rw [hnil]; rfl)
    · refine Or.inr ((operation_path_iff _).mpr ⟨_, hnil, fun s hs => ?_, path_text_of_ne hnil⟩)
      exact p.named_spec.2.1 s (mem_of_mem_take hs)
  exact ⟨⟨_, hcan⟩, rfl, p.lower_prefix n⟩

theorem namespaces_cons (h : p.path ≠ root_text) :
    p.namespaces = (root_text, root_text) ::
      (List.range p.segs.dropLast.length).map fun n =>
        (render '/' (p.segs.take (n + 1)), render '/' (p.named.take (n + 1))) := by
  obtain ⟨s, ss, hseg⟩ := exists_cons_of_ne_nil (mt p.segs_eq_nil.mp h)
  obtain ⟨d, ds, hnam⟩ := exists_cons_of_ne_nil (named_ne_nil h)
  rw [namespaces, hseg, hnam, length_dropLast, length_cons, Nat.add_sub_cancel,
    range_succ_eq_map, map_cons, map_map]
  rfl

end ConfigPath

def visit {σ : Type} (note : σ → Text → Text → σ) (fold_segments display_segments : List Text) :
    σ × Text × Text → ℕ → Option (σ × Text × Text)
  | (state, fold_built, display_built), index => do
    let fold_segment ← fold_segments[index]?
    let fold_built := fold_built ++ '/' :: fold_segment
    let display_segment ← display_segments[index]?
    let display_built := display_built ++ '/' :: display_segment
    return (note state fold_built display_built, fold_built, display_built)

/-- The loop of `add_parent_paths` and of `namespace_labels`. There is no result when an index is
out of range. -/
def lockstep {σ : Type} (note : σ → Text → Text → σ) (fold_segments display_segments : List Text)
    (state : σ) : Option σ := do
  let last ← (List.range fold_segments.length).foldlM (visit note fold_segments display_segments)
    (state, [], [])
  return last.1

theorem render_take_succ {ss : List Text} {n : ℕ} (h : n < ss.length) :
    render '/' (ss.take n) ++ '/' :: ss[n] = render '/' (ss.take (n + 1)) := by
  rw [take_add_one, getElem?_eq_getElem h, render_append]
  simp

variable {ds : List Text}

theorem lockstep_eq {σ : Type} (note : σ → Text → Text → σ) {fs : List Text}
    (h : fs.length ≤ ds.length) (state : σ) :
    lockstep note fs ds state = some ((List.range fs.length).foldl
      (fun state n => note state (render '/' (fs.take (n + 1))) (render '/' (ds.take (n + 1))))
      state) := by
  -- After `n` rounds both prefixes have `n` segments.
  have hloo : ∀ n ≤ fs.length, (List.range n).foldlM (visit note fs ds) (state, [], [])
      = some ((List.range n).foldl (fun state n =>
          note state (render '/' (fs.take (n + 1))) (render '/' (ds.take (n + 1)))) state,
        render '/' (fs.take n), render '/' (ds.take n)) := by
    intro n hn
    induction n with
    | zero => rfl
    | succ n ih =>
      have hfs : n < fs.length := hn
      have hds : n < ds.length := by omega
      rw [range_succ, foldlM_append, ih (by omega), foldl_append]
      simp [visit, hfs, hds, render_take_succ]
  rw [lockstep, hloo _ le_rfl]
  rfl

/-- **The loop never runs out of range on the two forms of a path, and it visits the namespaces
above it that are not the root.** -/
theorem lockstep_namespaces {σ : Type} (note : σ → Text → Text → σ) {p : ConfigPath}
    (h : p.path ≠ root_text) (hds : p.named.dropLast <+: ds) (state : σ) :
    lockstep note p.segs.dropLast ds state = some (p.namespaces.tail.foldl
      (fun state entry => note state entry.1 entry.2) state) := by
  have hlength : p.segs.dropLast.length = p.named.dropLast.length := by
    rw [length_dropLast, length_dropLast, p.length_named]
  rw [lockstep_eq note (hlength ▸ hds.length_le), p.namespaces_cons h, tail_cons,
    foldl_map, Option.some.injEq]
  refine foldl_ext _ _ _ fun state n hn => ?_
  have hlt : n + 1 ≤ p.segs.dropLast.length := mem_range.mp hn
  obtain ⟨rest, rfl⟩ := hds
  rw [take_append_of_le_length (hlength ▸ hlt), dropLast_eq_take,
    dropLast_eq_take, take_take, take_take, p.length_named]
  rw [length_dropLast] at hlt
  rw [min_eq_left hlt]

end SovereignConfig
