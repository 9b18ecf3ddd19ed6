/-
The labels of the sidebar tree (`tree.rs`), beside the namespaces of the server's listing.
-/
import SovereignConfig.Values.Namespaces

namespace SovereignConfig.Web

open Lib Text Values List ConfigPath

def path_segments (path : Text) : List Text :=
  (path.splitOn '/').filter fun segment => !segment.isEmpty

def parent_forms (path : ConfigPath) : Option (Text × Text) :=
  match rsplit_once '/' path.fold with
  | some (parent, _) =>
    if parent ≠ [] then
      let boundary := parent.length
      if boundary ≤ path.as_str.length then some (parent, path.as_str.take boundary) else none
    else some (root_text, root_text)
  | none => some (root_text, root_text)

abbrev Labels := Std.TreeMap Text Text

/-- `labels.entry(fold).or_insert_with(|| display)`. -/
def or_insert (labels : Labels) (fold display : Text) : Labels :=
  match labels[fold]? with
  | none => labels.insert fold display
  | some _ => labels

def add_labels (labels : Labels) (path : ConfigPath) : Option Labels := do
  let (fold_parent, display_parent) ← parent_forms path
  if fold_parent = root_text then return labels
  else lockstep or_insert (path_segments fold_parent) (path_segments display_parent) labels

def namespace_labels (value_paths : List ConfigPath) : Option Labels :=
  let labels : Labels := (∅ : Labels).insert root_text root_text
  (order_by ConfigPath.fold value_paths).foldlM add_labels labels

theorem path_segments_render {ss : List Text} (hfre : Free '/' ss) (hne : ∀ s ∈ ss, s ≠ []) :
    path_segments (render '/' ss) = ss := by
  cases hss : ss with
  | nil => rfl
  | cons s rest =>
    have hnil : ss ≠ [] := by simp [hss]
    rw [← hss, path_segments, render_eq_intercalate hnil, splitOn_cons_eq_if_modifyHead,
      if_pos (by simp), splitOn_intercalate '/' hfre hnil]
    simpa using hne

variable {p : ConfigPath}

theorem parent_forms_eq (h : p.path ≠ root_text) :
    parent_forms p = some (path_text p.segs.dropLast, path_text p.named.dropLast) := by
  have hseg : p.segs ≠ [] := mt p.segs_eq_nil.mp h
  have hcut : rsplit_once '/' p.fold = some (render '/' p.segs.dropLast, p.segs.getLast hseg) := by
    rw [fold_eq_render h]
    conv_lhs => rw [← dropLast_append_getLast hseg]
    exact rsplit_once_render (p.foldSegments_segs.free _ (getLast_mem hseg))
  have hnam : p.named.dropLast = p.named.take (p.segs.length - 1) := by
    rw [dropLast_eq_take, p.length_named]
  have hwri := written_prefix h (p.segs.length - 1)
  rw [← hnam, ← dropLast_eq_take] at hwri
  simp only [parent_forms, hcut]
  by_cases hnil : p.segs.dropLast = []
  · have hnil' : p.named.dropLast = [] := by
      rw [← length_eq_zero_iff, length_dropLast, p.length_named,
        ← length_dropLast, hnil]
      rfl
    rw [hnil, hnil', if_neg (by simp)]
    rfl
  · rw [path_text_of_ne hnil] at hwri
    have hbou : (render '/' p.segs.dropLast).length ≤ p.as_str.length := by
      have hlength : p.fold.length = p.as_str.length := length_map ..
      rw [← hlength, fold_eq_render h]
      conv_rhs => rw [← dropLast_append_getLast hseg, render_append, length_append]
      exact Nat.le_add_right ..
    rw [if_pos (mt render_eq_nil.mp hnil), if_pos hbou, path_text_of_ne hnil, hwri]
    rfl

theorem parent_forms_root (h : p.path = root_text) :
    parent_forms p = some (root_text, root_text) := by
  have hfol : p.fold = root_text := by rw [ConfigPath.fold, h]; rfl
  rw [parent_forms, hfol]
  rfl

theorem add_labels_eq (labels : Labels) (p : ConfigPath) :
    add_labels labels p = some (p.namespaces.tail.foldl
      (fun labels entry => or_insert labels entry.1 entry.2) labels) := by
  by_cases hroo : p.path = root_text
  · have hnone : p.namespaces = [] := by
      rw [ConfigPath.namespaces, p.segs_eq_nil.mpr hroo]
      rfl
    rw [add_labels, parent_forms_root hroo, hnone]
    rfl
  · have hini := p.foldSegments_segs.initial ( dropLast_prefix p.segs)
    have hok : ∀ s ∈ p.named.dropLast, segment_ok s = true := fun s hs =>
      p.named_spec.2.1 s (mem_of_mem_dropLast hs)
    rw [add_labels, parent_forms_eq hroo, Option.bind_eq_bind, Option.bind_some]
    by_cases hnil : p.segs.dropLast = []
    · rw [p.namespaces_cons hroo, hnil]
      rfl
    · have hnil' : p.named.dropLast ≠ [] := by
        intro hnil'
        apply hnil
        rw [← length_eq_zero_iff, length_dropLast, ← p.length_named,
          ← length_dropLast, hnil']
        rfl
      have hnon : ∀ s ∈ p.named.dropLast, s ≠ [] := fun s hs hemp =>
        absurd (hemp ▸ hok s hs) (by decide)
      rw [path_text_of_ne hnil, path_text_of_ne hnil']
      simp only [if_neg (render_ne_root hini)]
      rw [path_segments_render hini.free fun s hs => (hini s hs).1,
        path_segments_render (free_of_segments_ok hok) hnon]
      exact lockstep_namespaces _ hroo prefix_rfl labels

theorem or_insert_eq (labels : Labels) (fold display : Text) :
    or_insert labels fold display = keep_least (fun _ => ()) labels (fold, display) := by
  unfold or_insert keep_least
  cases labels[fold]? with
  | none => rfl
  | some kept => exact (if_neg (lt_irrefl _)).symm

theorem namespace_labels_least (value_paths : List ConfigPath) :
    ∃ labels, namespace_labels value_paths = some labels ∧
      Least (fun _ => ()) ((root_text, root_text) ::
        (order_by ConfigPath.fold value_paths).flatMap fun p => p.namespaces.tail) labels := by
  have hste : ∀ p ∈ order_by ConfigPath.fold value_paths, ∀ labels,
      add_labels labels p = some (p.namespaces.tail.foldl (keep_least fun _ => ()) labels) := by
    intro p _ labels
    rw [add_labels_eq]
    exact congrArg some (congrArg (fun f => List.foldl f labels _)
      (funext₂ fun labels entry => or_insert_eq ..))
  refine ⟨_, foldlM_eq_some hste, ?_⟩
  have hroo : Least (fun _ => ()) [(root_text, root_text)]
      ((∅ : Labels).insert root_text root_text) := by
    have hemp : Least (fun _ => ()) [] (∅ : Labels) := least_empty
    simpa [keep_least] using hemp.keep (root_text, root_text)
  rw [← foldl_flatMap]
  exact hroo.fold _

theorem namespace_labels_spec (value_paths : List ConfigPath) :
    ∃ labels, namespace_labels value_paths = some labels ∧
      (∀ key, key ∈ labels ↔ key = root_text ∨
        ∃ p ∈ value_paths, p.path ≠ root_text ∧ Encloses key p.fold) ∧
      ∀ key label, labels[key]? = some label →
        ∃ q : ConfigPath, q.as_str = label ∧ q.fold = key := by
  obtain ⟨labels, hlab, hlea⟩ := namespace_labels_least value_paths
  refine ⟨labels, hlab, fun key => ?_, fun key label hlabe => ?_⟩
  · rw [hlea.mem_iff]
    constructor
    · rintro ⟨display, hin⟩
      rcases mem_cons.mp hin with heq | hin
      · exact Or.inl (Prod.mk.inj heq).1
      · obtain ⟨p, hp, hin⟩ := mem_flatMap.mp hin
        have hroo : p.path ≠ root_text := by
          intro hroo
          rw [ConfigPath.namespaces, p.segs_eq_nil.mpr hroo] at hin
          exact absurd hin not_mem_nil
        exact Or.inr ⟨p, mem_order_by.mp hp, hroo,
          ((mem_namespaces hroo).mp (mem_of_mem_tail hin)).1⟩
    · rintro (rfl | ⟨p, hp, hroo, habo⟩)
      · exact ⟨root_text, mem_cons_self⟩
      · have hin := (mem_namespaces hroo).mpr ⟨habo, rfl⟩
        have hcon : p.namespaces = (root_text, root_text) :: p.namespaces.tail := by
          rw [p.namespaces_cons hroo, tail_cons]
        rw [hcon] at hin
        rcases mem_cons.mp hin with heq | hin
        · obtain ⟨rfl, -⟩ := Prod.mk.inj heq
          exact ⟨root_text, mem_cons_self⟩
        · exact ⟨_, mem_cons_of_mem _ (mem_flatMap.mpr ⟨p, mem_order_by.mpr hp, hin⟩)⟩
  · rcases mem_cons.mp (hlea.offered hlabe) with heq | hin
    · obtain ⟨rfl, rfl⟩ := Prod.mk.inj heq
      exact ⟨.root, rfl, rfl⟩
    · obtain ⟨p, -, hin⟩ := mem_flatMap.mp hin
      exact path_of_mem_namespaces (mem_of_mem_tail hin)

/-- **The server and the web client derive the same namespaces.** -/
theorem namespaces_derived {rows : List PathRow}
    (hstored : ∀ row ∈ rows, operation_path row.path = true) {value_paths : List ConfigPath}
    (hsame : (value_paths.map ConfigPath.as_str).Perm (rows.map PathRow.path)) :
    ∃ paths labels, derive_namespaces rows = some paths ∧
      namespace_labels value_paths = some labels ∧
      (∀ key, key ∈ paths ↔ (key = root_text ∧ rows ≠ []) ∨
        ∃ row ∈ rows, Encloses key row.lowercase_path) ∧
      (∀ key entry, paths[key]? = some entry →
        IsLeast {least | ∃ row ∈ rows, Encloses key row.lowercase_path ∧
          toLex (row.created_at, row.path.take key.length) = least} (toLex entry)) ∧
      (∀ rows' : List PathRow, rows'.Perm rows → ∃ paths',
        derive_namespaces rows' = some paths' ∧ paths'.toList = paths.toList) ∧
      (∀ key, key ∈ labels ↔ key = root_text ∨ key ∈ paths) ∧
      (∀ key label, labels[key]? = some label →
        ∃ q : ConfigPath, q.as_str = label ∧ q.fold = key) := by
  obtain ⟨paths, hpat, hlea⟩ := derive_namespaces_least hstored
  obtain ⟨labels, hlab, hkey, hfol⟩ := namespace_labels_spec value_paths
  have hmem : ∀ {key entry}, (key, entry) ∈ rows.flatMap offers ↔ ∃ row ∈ rows,
      Encloses key row.lowercase_path ∧
        entry = (row.created_at, row.path.take key.length) := by
    intro key entry
    rw [mem_flatMap]
    exact exists_congr fun row => and_congr_right fun hrow => mem_offers (hstored row hrow)
  have hnam : ∀ key, key ∈ paths ↔
      ∃ row ∈ rows, Encloses key row.lowercase_path := by
    intro key
    rw [hlea.mem_iff]
    constructor
    · rintro ⟨entry, hin⟩
      obtain ⟨row, hrow, habo, -⟩ := hmem.mp hin
      exact ⟨row, hrow, habo⟩
    · rintro ⟨row, hrow, habo⟩
      exact ⟨_, hmem.mpr ⟨row, hrow, habo, rfl⟩⟩
  have hval : ∀ key, (∃ p ∈ value_paths, p.path ≠ root_text ∧ Encloses key p.fold) ↔
      ∃ row ∈ rows, Encloses key row.lowercase_path := by
    intro key
    constructor
    · rintro ⟨p, hp, -, habo⟩
      obtain ⟨row, hrow, hpath⟩ := mem_map.mp (hsame.mem_iff.mp (mem_map_of_mem hp))
      refine ⟨row, hrow, ?_⟩
      rw [PathRow.lowercase_path, hpath]
      exact habo
    · rintro ⟨row, hrow, habo⟩
      obtain ⟨p, hp, hpath⟩ := mem_map.mp (hsame.mem_iff.mpr (mem_map_of_mem hrow))
      have hp_p : p.path = row.path := hpath
      refine ⟨p, hp, ?_, ?_⟩
      · rw [hp_p]
        exact operation_ne_root (hstored row hrow)
      · rw [ConfigPath.fold, hp_p]
        exact habo
  refine ⟨paths, labels, hpat, hlab, fun key => ?_, fun key entry hent => ?_,
    fun rows' hper => ?_, fun key => ?_, hfol⟩
  · rw [hnam]
    refine ⟨Or.inr, ?_⟩
    rintro (⟨rfl, hne⟩ | habo)
    · obtain ⟨row, rest, rfl⟩ := exists_cons_of_ne_nil hne
      exact ⟨row, mem_cons_self, Or.inl rfl⟩
    · exact habo
  · obtain ⟨row, hrow, habo, heq⟩ := hmem.mp (hlea.offered hent)
    refine ⟨⟨row, hrow, habo, congrArg toLex heq.symm⟩, ?_⟩
    rintro least ⟨row, hrow, habo, rfl⟩
    exact hlea.least hent (hmem.mpr ⟨row, hrow, habo, rfl⟩)
  · obtain ⟨paths', hpat', hlea'⟩ := derive_namespaces_least fun row hrow =>
      hstored row (hper.mem_iff.mp hrow)
    refine ⟨paths', hpat', hlea'.toList_eq toLex.injective hlea fun offer => ?_⟩
    exact (hper.flatMap_right offers).mem_iff
  · rw [hkey, hval, hnam]

def sample_path (path : Text) : PathRow := ⟨path, 1, 5, 5⟩

/-- Two rows that write their namespace differently. -/
theorem sample_namespaces_derived :
    ∃ paths labels,
      derive_namespaces [sample_path "/Aa/x".toList, sample_path "/aA/y".toList] = some paths ∧
      namespace_labels [display_path "/aA/y".toList, display_path "/Aa/x".toList] = some labels ∧
      (∀ key, key ∈ labels ↔ key = root_text ∨ key ∈ paths) := by
  have hsto : ∀ row ∈ [sample_path "/Aa/x".toList, sample_path "/aA/y".toList],
      operation_path row.path = true := by decide
  have hsam : ([display_path "/aA/y".toList, display_path "/Aa/x".toList].map
      ConfigPath.as_str).Perm
      ([sample_path "/Aa/x".toList, sample_path "/aA/y".toList].map PathRow.path) := by decide
  obtain ⟨paths, labels, hpat, hlab, -, -, -, hkey, -⟩ := namespaces_derived hsto hsam
  exact ⟨paths, labels, hpat, hlab, hkey⟩

end SovereignConfig.Web
