/-
The namespaces of a listing (`values/paths.rs`): a least element at each, whatever the order of the
rows. The loop with its indexes agrees with the recursion of `Values/Reads.lean`.
-/
import SovereignConfig.Ancestors
import SovereignConfig.Lib.LeastMap
import SovereignConfig.Values.Readable

namespace SovereignConfig.Values

open Lib Text List ConfigPath

/-- `add_parent_paths` with the loop as the source has it. -/
def add_parent_paths_by_index (paths : Namespaces) (fold_path display_path : Text)
    (created_at : OffsetDateTime) : Option Namespaces :=
  let paths := upsert_ancestor paths root_text created_at root_text
  let fold_parent := parent_path fold_path
  if fold_parent = root_text then some paths
  else
    lockstep (fun paths fold display => upsert_ancestor paths fold created_at display)
      ((fold_parent.dropWhile (· == '/')).splitOn '/')
      ((display_path.dropWhile (· == '/')).splitOn '/') paths

def derive_namespaces (rows : List PathRow) : Option Namespaces :=
  rows.foldlM (fun paths row =>
    add_parent_paths_by_index paths row.lowercase_path row.path row.created_at) ∅

variable {p : ConfigPath}

theorem path_forms (h : p.path ≠ root_text) :
    parent_path p.fold = path_text p.segs.dropLast ∧
    (p.path.dropWhile (· == '/')).splitOn '/' = p.named ∧
    (p.segs.dropLast ≠ [] →
      ((path_text p.segs.dropLast).dropWhile (· == '/')).splitOn '/' = p.segs.dropLast) := by
  have hseg : p.segs ≠ [] := mt p.segs_eq_nil.mp h
  have hfol := p.foldSegments_segs
  refine ⟨?_, ?_, fun hne => ?_⟩
  · have hcut := dropLast_append_getLast hseg
    have hpar := parent_path_concat (hcut.symm ▸ hfol)
    rwa [hcut, ← p.fold_eq] at hpar
  · have hok := p.named_spec.2.1
    have hnon : ∀ s ∈ p.named, s ≠ [] := fun s hs hnil => absurd (hnil ▸ hok s hs) (by decide)
    rw [path_eq_render h, dropWhile_render (free_of_segments_ok hok) hnon,
      splitOn_render (free_of_segments_ok hok) (named_ne_nil h)]
  · have hini := hfol.initial ( dropLast_prefix p.segs)
    rw [path_text_of_ne hne, dropWhile_render hini.free fun s hs => (hini s hs).1,
      splitOn_render hini.free hne]

theorem add_parent_paths_by_index_eq (h : p.path ≠ root_text) (paths : Namespaces)
    (created_at : OffsetDateTime) :
    add_parent_paths_by_index paths p.fold p.path created_at
      = some (p.namespaces.foldl
          (fun paths entry => upsert_ancestor paths entry.1 created_at entry.2) paths) := by
  obtain ⟨hpar, hnam, hini⟩ := path_forms h
  have hcon := p.namespaces_cons h
  rw [add_parent_paths_by_index, hpar, hnam]
  by_cases hnil : p.segs.dropLast = []
  · rw [hnil] at hcon ⊢
    rw [if_pos path_text_nil, hcon]
    rfl
  · have hroo : path_text p.segs.dropLast ≠ root_text := by
      rw [path_text_of_ne hnil]
      exact render_ne_root (p.foldSegments_segs.initial ( dropLast_prefix _))
    rw [if_neg hroo, hini hnil, lockstep_namespaces _ h ( dropLast_prefix _)]
    rw [hcon, foldl_cons, tail_cons]

theorem add_ancestors_eq (created_at : OffsetDateTime) {fs ds : List Text}
    (h : fs.length ≤ ds.length) (paths : Namespaces) (fold_built display_built : Text) :
    add_ancestors created_at paths fold_built display_built fs ds
      = (List.range fs.length).foldl (fun paths n =>
          upsert_ancestor paths (fold_built ++ render '/' (fs.take (n + 1))) created_at
            (display_built ++ render '/' (ds.take (n + 1)))) paths := by
  induction fs generalizing ds paths fold_built display_built with
  | nil =>
    cases ds with
    | nil => rfl
    | cons d ds => rfl
  | cons f fs ih =>
    cases ds with
    | nil => simp at h
    | cons d ds =>
      rw [add_ancestors, ih (by simpa using h), length_cons, range_succ_eq_map,
        foldl_cons, foldl_map]
      simp

/-- **No index is out of range on a stored path,** so the loop by index is the model's. -/
theorem add_parent_paths_indexed {p : ConfigPath} (h : p.path ≠ root_text) (paths : Namespaces)
    (created_at : OffsetDateTime) :
    add_parent_paths_by_index paths p.fold p.path created_at
      = some (add_parent_paths paths p.fold p.path created_at) := by
  obtain ⟨hpar, hnam, hini⟩ := path_forms h
  rw [add_parent_paths_by_index, add_parent_paths, hpar, hnam]
  by_cases hroo : path_text p.segs.dropLast = root_text
  · rw [if_pos hroo, if_pos hroo]
  · have hne : p.segs.dropLast ≠ [] := fun hnil => hroo (by rw [hnil]; rfl)
    have hlength : p.segs.dropLast.length ≤ p.named.length := by
      rw [p.length_named]
      exact ( dropLast_prefix _).length_le
    rw [if_neg hroo, if_neg hroo, hini hne, lockstep_eq _ hlength, add_ancestors_eq _ hlength]
    rfl

theorem upsert_ancestor_eq (paths : Namespaces) (fold : Text) (created_at : OffsetDateTime)
    (display : Text) :
    upsert_ancestor paths fold created_at display
      = keep_least toLex paths (fold, (created_at, display)) := by
  unfold upsert_ancestor keep_least
  cases paths[fold]? with
  | none => rfl
  | some entry =>
    have hlt : created_at < entry.1 ∨ (created_at = entry.1 ∧ display < entry.2) ↔
        toLex (created_at, display) < toLex entry := by
      rw [Prod.Lex.toLex_lt_toLex]
    exact if_congr hlt rfl rfl

def offers (row : PathRow) : List (Text × OffsetDateTime × Text) :=
  (display_path row.path).namespaces.map fun entry => (entry.1, row.created_at, entry.2)

section Stored

variable {row : PathRow} {rows : List PathRow}

theorem display_path_of (h : operation_path row.path = true) :
    (display_path row.path).path = row.path ∧ (display_path row.path).path ≠ root_text ∧
      (display_path row.path).fold = row.lowercase_path := by
  have hpat : (display_path row.path).path = row.path := by rw [display_path, dif_pos h]
  refine ⟨hpat, ?_, ?_⟩
  · rw [hpat]
    exact operation_ne_root h
  · rw [ConfigPath.fold, hpat]
    rfl

theorem mem_offers (h : operation_path row.path = true) {key : Text}
    {entry : OffsetDateTime × Text} : (key, entry) ∈ offers row ↔
      Encloses key row.lowercase_path ∧
        entry = (row.created_at, row.path.take key.length) := by
  obtain ⟨hpat, hroo, hfol⟩ := display_path_of h
  have hmem : ∀ display, (key, display) ∈ (display_path row.path).namespaces ↔
      Encloses key row.lowercase_path ∧ display = row.path.take key.length := by
    intro display
    rw [mem_namespaces hroo, hfol, hpat]
  constructor
  · intro hin
    obtain ⟨⟨key', display⟩, hent, heq⟩ := mem_map.mp hin
    obtain ⟨rfl, rfl⟩ := Prod.mk.inj heq
    obtain ⟨habo, hdis⟩ := (hmem display).mp hent
    exact ⟨habo, by rw [hdis]⟩
  · rintro ⟨habo, rfl⟩
    exact mem_map.mpr ⟨_, (hmem _).mpr ⟨habo, rfl⟩, rfl⟩

theorem derive_namespaces_least (h : ∀ row ∈ rows, operation_path row.path = true) :
    ∃ paths, derive_namespaces rows = some paths ∧ Least toLex (rows.flatMap offers) paths := by
  have hste : ∀ row ∈ rows, ∀ paths,
      add_parent_paths_by_index paths row.lowercase_path row.path row.created_at
        = some ((offers row).foldl (keep_least toLex) paths) := by
    intro row hrow paths
    obtain ⟨hpat, hroo, hfol⟩ := display_path_of (h row hrow)
    have heq := add_parent_paths_by_index_eq hroo paths row.created_at
    rw [hpat, hfol] at heq
    rw [heq, offers, foldl_map]
    exact congrArg some (congrArg (fun f => List.foldl f paths _)
      (funext₂ fun paths entry => upsert_ancestor_eq ..))
  refine ⟨_, foldlM_eq_some hste, ?_⟩
  rw [← foldl_flatMap]
  exact least_empty.fold (rows.flatMap offers)

end Stored

end SovereignConfig.Values
