/-
`normalize` accepts exactly the valid subtrees. A path sorts after every path above it (`/a-b` is
between `/a` and `/a/b`), so walking up from each entry finds every nesting.
-/
import SovereignConfig.Confinement
import SovereignConfig.Lib.Checks
import SovereignConfig.Values.Subtree

namespace SovereignConfig.Values

open Lib Text List

/-! ## What is accepted -/

/-- An entry of the request that `normalize` lets through. -/
def Admissible (root : ConfigPath) (value : SubTreeEntry) : Prop :=
  content_ok value.content = true ∧ ∃ p, ConfigPath.parse_operation value.path = .ok p ∧
    root.segs <+: p.segs

def SubTreeEntry.folded (value : SubTreeEntry) : SubTreeEntry :=
  { value with path := to_ascii_lowercase value.path }

variable {root p : ConfigPath} {values folded values' : List SubTreeEntry} {accepted : List Text}
  {displays displays' : Displays} {n : NormalizedSubtree} {e : Status}

theorem fold_entries_accepts (h : ∀ value ∈ values, Admissible root value) (displays : Displays) :
    ∃ displays', fold_entries root values displays =
      .ok (values.map SubTreeEntry.folded, displays') := by
  induction values generalizing displays with
  | nil => exact ⟨displays, rfl⟩
  | cons value values ih =>
    obtain ⟨hcon, p, hpar, hbel⟩ := h value mem_cons_self
    obtain ⟨displays', hres⟩ := ih (fun v hv => h v (mem_cons_of_mem _ hv))
      (if p.fold ≠ p.as_str then displays.insert p.fold p.as_str else displays)
    refine ⟨displays', ?_⟩
    simp only [fold_entries, hpar, (is_at_or_below_iff p root).mpr hbel, hcon,
      Bool.not_true, Bool.false_eq_true, if_false, hres, bind, Except.bind]
    have hpat := (parse_operation_path hpar).1
    rw [map_cons, SubTreeEntry.folded, ConfigPath.fold, hpat]
    rfl

theorem accept_paths_accepts (hvalu : ∀ value ∈ values, NormalEntry root value)
    (hcle : ∀ value ∈ values, ∀ path ∈ accepted, ¬ segments path <+: segments value.path)
    (hfol : ∀ path ∈ accepted, ∃ value, NormalEntry root value ∧ value.path = path)
    (hapa : values.Pairwise fun first second => Apart first.path second.path) :
    accept_paths accepted values = .ok () := by
  induction values generalizing accepted with
  | nil => rfl
  | cons value values ih =>
    have hval := hvalu value mem_cons_self
    obtain ⟨hhea, htai⟩ := pairwise_cons.mp hapa
    have hnone : has_stored_ancestor accepted value.path.length value.path = false := by
      rw [← Bool.not_eq_true, stored_ancestor_iff hval]
      rintro ⟨ps, hne, hpre, _, hmem⟩
      refine hcle value mem_cons_self _ hmem ?_
      rwa [segments_path_text (hval.segments.1.initial hpre)]
    have hnew : value.path ∉ accepted :=
      fun hmem => hcle value mem_cons_self _ hmem prefix_rfl
    rw [accept_paths, hnone, if_neg (by simpa using hnew)]
    refine ih (fun v hv => hvalu v (mem_cons_of_mem _ hv)) ?_ ?_ htai
    · intro v hv path hpat
      rcases mem_cons.mp hpat with rfl | hpat
      · exact (hhea v hv).1
      · exact hcle v (mem_cons_of_mem _ hv) path hpat
    · intro path hpat
      rcases mem_cons.mp hpat with rfl | hpat
      · exact ⟨value, hval, rfl⟩
      · exact hfol path hpat

theorem normalize_accepts (h : ∀ value ∈ values, Admissible root value)
    (hapa : values.Pairwise fun first second => Apart first.folded.path second.folded.path) :
    ∃ n, normalize root values = .ok n ∧ n.values.Perm (values.map SubTreeEntry.folded) := by
  obtain ⟨displays, hfol⟩ := fold_entries_accepts h ∅
  have hemp : DisplaysOk ∅ := fun fold display hget => by simp at hget
  have hnor := (fold_entries_ok hemp hfol).1
  have hper := perm_insertionSort (fun first second : SubTreeEntry =>
    first.path ≤ second.path) (values.map SubTreeEntry.folded)
  have hsor : (insertionSort (fun first second : SubTreeEntry => first.path ≤ second.path)
      (values.map SubTreeEntry.folded)).Pairwise
      fun first second => Apart first.path second.path :=
    (hper.pairwise_iff fun hab => ⟨hab.2, hab.1⟩).mpr (pairwise_map.mpr hapa)
  have hacc : accept_paths [] (insertionSort (fun first second : SubTreeEntry =>
      first.path ≤ second.path) (values.map SubTreeEntry.folded)) = .ok () :=
    accept_paths_accepts (fun value hv => hnor value (hper.mem_iff.mp hv)) (by simp) (by simp)
      hsor
  refine ⟨⟨_, displays⟩, ?_, hper⟩
  simp only [normalize, hfol, hacc, bind, Except.bind]
  rfl

theorem fold_entries_admissible (h : fold_entries root values displays = .ok (folded, displays')) :
    ∀ value ∈ values, Admissible root value := by
  induction values generalizing displays folded with
  | nil => simp
  | cons value values ih =>
    obtain ⟨p, rest, hpar, hbel, hcon, hres, -⟩ := fold_entries_cons h
    rw [forall_mem_cons]
    exact ⟨⟨hcon, p, hpar, (is_at_or_below_iff p root).mp hbel⟩, ih hres⟩

theorem normalize_eq_ok (h : normalize root values = .ok n) :
    (∀ value ∈ values, Admissible root value) ∧
      fold_entries root values ∅ = .ok (values.map SubTreeEntry.folded, n.displays) ∧
      n.values = (values.map SubTreeEntry.folded).insertionSort
        (fun first second => first.path ≤ second.path) := by
  simp only [normalize, bind_eq_ok] at h
  obtain ⟨⟨folded, displays⟩, hfol, ⟨⟩, -, hn⟩ := h
  obtain rfl := Except.ok.inj hn
  have hadm := fold_entries_admissible hfol
  obtain ⟨displays', hfol'⟩ := fold_entries_accepts hadm ∅
  obtain ⟨rfl, rfl⟩ := Prod.mk.inj (Except.ok.inj (hfol.symm.trans hfol'))
  exact ⟨hadm, hfol, rfl⟩

theorem fold_entries_displays (h : fold_entries root values displays = .ok (folded, displays'))
    (hdis : values.Pairwise fun a b => a.folded.path ≠ b.folded.path)
    (hnew : ∀ value ∈ values, displays[value.folded.path]? = none) (fold display : Text) :
    displays'[fold]? = some display ↔ displays[fold]? = some display ∨
      ∃ value ∈ values, value.folded.path = fold ∧ value.path = display ∧ display ≠ fold := by
  induction values generalizing displays folded with
  | nil =>
    cases h
    simp
  | cons value values ih =>
    obtain ⟨p, rest, hpar, -, -, hres, -⟩ := fold_entries_cons h
    obtain ⟨hhea, htai⟩ := pairwise_cons.mp hdis
    have hpat : p.path = value.path := (parse_operation_path hpar).1
    have hfol : p.fold = value.folded.path := by rw [ConfigPath.fold, hpat]; rfl
    have hste : ∀ key, (if p.fold ≠ p.as_str then displays.insert p.fold p.as_str
        else displays)[key]? = if p.fold ≠ p.as_str ∧ p.fold = key then some p.as_str
          else displays[key]? := by
      intro key
      by_cases hcas : p.fold ≠ p.as_str
      · rw [if_pos hcas, Std.TreeMap.getElem?_insert]
        by_cases hkey : p.fold = key
        · rw [if_pos (Std.LawfulEqCmp.compare_eq_iff_eq.mpr hkey), if_pos ⟨hcas, hkey⟩]
        · rw [if_neg fun h => hkey (Std.LawfulEqCmp.compare_eq_iff_eq.mp h),
            if_neg fun h => hkey h.2]
      · rw [if_neg hcas, if_neg fun h => hcas h.1]
    rw [ih hres htai ?_]
    · rw [hste, exists_mem_cons_iff, ← hpat, ← hfol]
      by_cases hher : p.fold ≠ p.as_str ∧ p.fold = fold
      · obtain ⟨hcas, rfl⟩ := hher
        have hnone := hnew value mem_cons_self
        rw [← hfol] at hnone
        have hdisp : p.as_str = display ↔ p.path = display ∧ display ≠ p.fold :=
          ⟨fun heq => ⟨heq, heq ▸ Ne.symm hcas⟩, fun heq => heq.1⟩
        simp [hcas, hnone, hdisp]
      · rw [if_neg hher]
        have hnot : ¬ (p.fold = fold ∧ p.path = display ∧ display ≠ fold) := by
          rintro ⟨heq, rfl, hne⟩
          exact hher ⟨fun hsam => hne (hsam.symm.trans heq), heq⟩
        simp [hnot]
    · intro v hv
      rw [hste, if_neg fun hbot => hhea v hv (hfol.symm.trans hbot.2)]
      exact hnew v (mem_cons_of_mem _ hv)

/-! ## The specification -/

def Above (fold fold' : Text) : Prop := fold ++ ['/'] <+: fold'

/-- **A valid subtree,** by the texts of its entries: paths of the grammar at or below the root,
contents that can be stored, no fold twice and none above another. -/
structure ValidSubtree (root : ConfigPath) (values : List SubTreeEntry) : Prop where
  paths : ∀ value ∈ values, ∃ p : ConfigPath, p.path = value.path ∧ value.path ≠ root_text ∧
    AtOrBelow p root
  contents : ∀ value ∈ values, ∃ content, value.content = some content ∧
    ∀ text, content = .PlainValue text → '\x00' ∉ text
  distinct : values.Pairwise fun a b =>
    to_ascii_lowercase a.path ≠ to_ascii_lowercase b.path
  leaves : values.Pairwise fun a b =>
    ¬ Above (to_ascii_lowercase a.path) (to_ascii_lowercase b.path) ∧
      ¬ Above (to_ascii_lowercase b.path) (to_ascii_lowercase a.path)

theorem content_ok_iff {content : Option SubTreeEntryContent} :
    content_ok content = true ↔ ∃ c, content = some c ∧
      ∀ text, c = .PlainValue text → '\x00' ∉ text := by
  cases content with
  | none => simp [content_ok]
  | some c =>
    cases c with
    | PlainValue text =>
      simp only [content_ok, contains_char, Option.some.injEq, exists_eq_left',
        SubTreeEntryContent.PlainValue.injEq, forall_eq', Bool.not_eq_true', ← Bool.not_eq_true,
        any_eq_true, beq_iff_eq, exists_eq_right]
    | PreserveSecret => simp [content_ok]

theorem parse_operation_iff {value : Text} :
    ConfigPath.parse_operation value = .ok p ↔ p.path = value ∧ value ≠ root_text := by
  constructor
  · intro h
    obtain ⟨hpat, hop⟩ := parse_operation_path h
    exact ⟨hpat, operation_ne_root hop⟩
  · rintro ⟨rfl, hne⟩
    have hop : operation_path p.path = true := p.canonical.resolve_left hne
    rw [ConfigPath.parse_operation, dif_pos hop]

theorem admissible_iff {value : SubTreeEntry} :
    Admissible root value ↔
      (∃ p : ConfigPath, p.path = value.path ∧ value.path ≠ root_text ∧ AtOrBelow p root) ∧
      ∃ content, value.content = some content ∧
        ∀ text, content = .PlainValue text → '\x00' ∉ text := by
  rw [Admissible, content_ok_iff, and_comm]
  refine and_congr_left fun _ => exists_congr fun p => ?_
  rw [at_or_below_segs, ← and_assoc, parse_operation_iff]

theorem above_iff {q : ConfigPath} (hp : p.path ≠ root_text) (hq : q.path ≠ root_text) :
    Above p.fold q.fold ↔ p.segs <+: q.segs ∧ p.segs ≠ q.segs := by
  rw [Above, p.fold_eq, q.fold_eq, path_text_of_ne (mt p.segs_eq_nil.mp hp),
    path_text_of_ne (mt q.segs_eq_nil.mp hq)]
  exact render_delim_prefix_iff p.foldSegments_segs.free q.foldSegments_segs.free

theorem apart_iff {a b : SubTreeEntry} (ha : Admissible root a) (hb : Admissible root b) :
    Apart a.folded.path b.folded.path ↔
      to_ascii_lowercase a.path ≠ to_ascii_lowercase b.path ∧
      ¬ Above (to_ascii_lowercase a.path) (to_ascii_lowercase b.path) ∧
      ¬ Above (to_ascii_lowercase b.path) (to_ascii_lowercase a.path) := by
  obtain ⟨-, p, hp, -⟩ := ha
  obtain ⟨-, q, hq, -⟩ := hb
  obtain ⟨hp, hp_r⟩ := parse_operation_iff.mp hp
  obtain ⟨hq, hq_r⟩ := parse_operation_iff.mp hq
  have hfol : to_ascii_lowercase a.path = p.fold := by rw [← hp]; rfl
  have hfol' : to_ascii_lowercase b.path = q.fold := by rw [← hq]; rfl
  show (¬ segments (to_ascii_lowercase a.path) <+: segments (to_ascii_lowercase b.path) ∧
    ¬ segments (to_ascii_lowercase b.path) <+: segments (to_ascii_lowercase a.path)) ↔ _
  rw [hfol, hfol', above_iff (hp ▸ hp_r) (hq ▸ hq_r), above_iff (hq ▸ hq_r) (hp ▸ hp_r),
    Ne, ← ConfigPath.segs_inj]
  show (¬ p.segs <+: q.segs ∧ ¬ q.segs <+: p.segs) ↔ _
  constructor
  · rintro ⟨hdow, hup⟩
    exact ⟨fun heq => hdow (heq ▸ prefix_rfl), fun h => hdow h.1, fun h => hup h.1⟩
  · rintro ⟨hdis, hdow, hup⟩
    exact ⟨fun h => hdow ⟨h, hdis⟩, fun h => hup ⟨h, Ne.symm hdis⟩⟩

theorem normalize_ok_iff : (∃ n, normalize root values = .ok n) ↔ ValidSubtree root values := by
  have happ : (∀ value ∈ values, Admissible root value) →
      ((values.Pairwise fun a b => Apart a.folded.path b.folded.path) ↔
        values.Pairwise fun a b => to_ascii_lowercase a.path ≠ to_ascii_lowercase b.path ∧
          ¬ Above (to_ascii_lowercase a.path) (to_ascii_lowercase b.path) ∧
          ¬ Above (to_ascii_lowercase b.path) (to_ascii_lowercase a.path)) := fun hadm =>
    List.Pairwise.iff_of_mem fun ha hb => apart_iff (hadm _ ha) (hadm _ hb)
  constructor
  · rintro ⟨n, h⟩
    obtain ⟨hadm, -, hsor⟩ := normalize_eq_ok h
    have hpai := (normalize_ok h).apart
    rw [hsor, (perm_insertionSort _ _).pairwise_iff fun hab => ⟨hab.2, hab.1⟩,
      pairwise_map, happ hadm] at hpai
    exact ⟨fun v hv => (admissible_iff.mp (hadm v hv)).1,
      fun v hv => (admissible_iff.mp (hadm v hv)).2,
      hpai.imp fun h => h.1, hpai.imp fun h => h.2⟩
  · intro h
    have hadm : ∀ value ∈ values, Admissible root value := fun v hv =>
      admissible_iff.mpr ⟨h.paths v hv, h.contents v hv⟩
    obtain ⟨n, hn, -⟩ := normalize_accepts hadm
      ((happ hadm).mpr (h.distinct.and h.leaves))
    exact ⟨n, hn⟩

/-! ## The result -/

/-- What `normalize` returns: the folded entries in order, and the display of each that had its own.
-/
structure NormalizesTo (values : List SubTreeEntry) (n : NormalizedSubtree) : Prop where
  entries : n.values.Perm (values.map SubTreeEntry.folded)
  ascending : n.values.Pairwise fun first second => first.path < second.path
  displays : ∀ fold display, n.displays[fold]? = some display ↔
    ∃ value ∈ values, to_ascii_lowercase value.path = fold ∧ value.path = display ∧ display ≠ fold

theorem normalizes_to (h : normalize root values = .ok n) : NormalizesTo values n := by
  obtain ⟨-, hfol, hsor⟩ := normalize_eq_ok h
  have hval := normalize_ok_iff.mp ⟨n, h⟩
  have hper : n.values.Perm (values.map SubTreeEntry.folded) :=
    hsor ▸ perm_insertionSort _ _
  have hdis : n.values.Pairwise fun a b => a.path ≠ b.path :=
    (hper.pairwise_iff fun hab => Ne.symm hab).mpr (pairwise_map.mpr hval.distinct)
  refine ⟨hper, ?_, fun fold display => ?_⟩
  · have hle : n.values.Pairwise fun first second => first.path ≤ second.path :=
      hsor ▸ pairwise_insertionSort _ _
    exact (hle.and hdis).imp fun h => lt_of_le_of_ne h.1 h.2
  · rw [fold_entries_displays hfol hval.distinct (fun _ _ => by simp)]
    simp only [Std.TreeMap.getElem?_emptyc, reduceCtorEq, false_or]
    rfl

theorem fold_entries_error (h : fold_entries root values displays = .error e) :
    e = invalid_subtree := by
  induction values generalizing displays with
  | nil => cases h
  | cons value values ih =>
    rw [fold_entries] at h
    split at h
    · exact (Except.error.inj h).symm
    · split at h
      · exact (Except.error.inj h).symm
      · split at h
        · exact (Except.error.inj h).symm
        · rcases bind_eq_error h with h | ⟨rest, -, h⟩
          · exact ih h
          · cases h

theorem accept_paths_error (h : accept_paths accepted values = .error e) : e = invalid_subtree := by
  induction values generalizing accepted with
  | nil => cases h
  | cons value values ih =>
    rw [accept_paths] at h
    split at h
    · exact (Except.error.inj h).symm
    · exact ih h

theorem normalize_error (h : normalize root values = .error e) : e = invalid_subtree := by
  rcases bind_eq_error h with h | ⟨rest, -, h⟩
  · exact fold_entries_error h
  · rcases bind_eq_error h with h | ⟨u, -, h⟩
    · exact accept_paths_error h
    · cases h

/-- The same refusal, or the same entries and displays. -/
def SameResult : Except Status NormalizedSubtree → Except Status NormalizedSubtree → Prop
  | .ok n, .ok n' => n.values = n'.values ∧ ∀ fold : Text, n.displays[fold]? = n'.displays[fold]?
  | .error e, .error e' => e = e'
  | _, _ => False

theorem ValidSubtree.perm (h : ValidSubtree root values) (hper : values'.Perm values) :
    ValidSubtree root values' where
  paths v hv := h.paths v (hper.mem_iff.mp hv)
  contents v hv := h.contents v (hper.mem_iff.mp hv)
  distinct := (hper.pairwise_iff fun hab => Ne.symm hab).mpr h.distinct
  leaves := (hper.pairwise_iff fun hab => ⟨hab.2, hab.1⟩).mpr h.leaves

theorem normalize_perm (hper : values'.Perm values) :
    SameResult (normalize root values') (normalize root values) := by
  cases h : normalize root values with
  | error e =>
    cases h' : normalize root values' with
    | error e' => exact (normalize_error h').trans (normalize_error h).symm
    | ok n' =>
      have hval := (normalize_ok_iff.mp ⟨n', h'⟩).perm hper.symm
      obtain ⟨n, hn⟩ := normalize_ok_iff.mpr hval
      exact absurd (h.symm.trans hn) (by simp)
  | ok n =>
    obtain ⟨n', h'⟩ := normalize_ok_iff.mpr ((normalize_ok_iff.mp ⟨n, h⟩).perm hper)
    rw [h']
    have hto := normalizes_to h
    have hto' := normalizes_to h'
    refine ⟨?_, fun fold => ?_⟩
    · have hsam := hto'.entries.trans ((hper.map _).trans hto.entries.symm)
      exact hsam.eq_of_pairwise (fun a b _ _ hab hba => absurd hab hba.asymm) hto'.ascending
        hto.ascending
    · refine Option.ext fun display => ?_
      rw [hto'.displays, hto.displays]
      exact exists_congr fun v => and_congr_left fun _ => hper.mem_iff

/-- **`normalize` accepts exactly the valid subtrees,** whatever the order of their entries: it gives
the entries back with folded paths in ascending order, and the case of those that were not written
in their fold. -/
theorem normalize_accepts_exactly (root : ConfigPath) (values : List SubTreeEntry) :
    ((∃ n, normalize root values = .ok n) ↔ ValidSubtree root values) ∧
    (∀ n, normalize root values = .ok n → NormalizesTo values n) ∧
    ∀ values', values'.Perm values →
      SameResult (normalize root values') (normalize root values) :=
  ⟨normalize_ok_iff, fun _ h => normalizes_to h, fun _ h => normalize_perm h⟩

def sibling_entries : List SubTreeEntry :=
  [⟨"/A-b".toList, some .PreserveSecret⟩, ⟨"/a/b".toList, some (.PlainValue ['x'])⟩]

theorem siblings_ok : ∃ n, normalize ConfigPath.root sibling_entries = .ok n := by
  have hok : (normalize ConfigPath.root sibling_entries).isOk = true := by decide +kernel
  cases hn : normalize ConfigPath.root sibling_entries with
  | error e => exact absurd hok (by rw [hn]; exact Bool.false_ne_true)
  | ok n => exact ⟨n, rfl⟩

/-- Two siblings in either order. -/
theorem siblings_normalize :
    (∃ n, normalize ConfigPath.root sibling_entries = .ok n ∧ NormalizesTo sibling_entries n) ∧
    SameResult (normalize ConfigPath.root sibling_entries.reverse)
      (normalize ConfigPath.root sibling_entries) := by
  obtain ⟨-, hres, hper⟩ := normalize_accepts_exactly ConfigPath.root sibling_entries
  obtain ⟨n, hn⟩ := siblings_ok
  exact ⟨⟨n, hn, hres n hn⟩, hper _ (reverse_perm _)⟩

end SovereignConfig.Values
