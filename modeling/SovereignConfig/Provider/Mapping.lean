/-
The provider's tree (`mapping.rs`) beside the JSON of the client. Both loops are the assembling of
a trie.
-/
import SovereignConfig.Values.Export

namespace SovereignConfig.Provider

open Lib Text Values List

inductive ProviderError where
  | InvalidConversion
deriving DecidableEq

abbrev Tree := Trie Text Text

/-! ## Building a tree -/

def leaf_text (value : SubTreeValue) (revealed : List (ConfigPath × Text)) :
    Except ProviderError Text :=
  match value.value with
  | .Plain plain => .ok plain
  | .Secret => ok_or (FoldMap.find ConfigPath.fold value.path revealed) .InvalidConversion

def relative_segments (root path : ConfigPath) : Except ProviderError (List Text) :=
  if root.fold = root_text then
    .ok ((path.fold.dropWhile (· == '/')).splitOn '/')
  else do
    let relative ← ok_or
      ((strip_prefix_of path.fold root.fold).bind (strip_prefix_of · ['/'])) .InvalidConversion
    return relative.splitOn '/'

def insert (object : List (Text × Tree)) :
    List Text → Text → Except ProviderError (List (Text × Tree))
  | [], _ => .error .InvalidConversion
  | [segment], value =>
    if (FoldMap.find id segment object).isSome then .error .InvalidConversion
    else .ok (FoldMap.put id segment (.Leaf value) object)
  | segment :: next :: remaining, value =>
    match (FoldMap.find id segment object).getD (.Node []) with
    | .Leaf _ => .error .InvalidConversion
    | .Node child => do
      let child ← insert child (next :: remaining) value
      return FoldMap.put id segment (.Node child) object

def build_value (root : ConfigPath) (revealed : List (ConfigPath × Text))
    (state : List (Text × Tree) × Option Text) (value : SubTreeValue) :
    Except ProviderError (List (Text × Tree) × Option Text) :=
  if value.path.as_str = root_text ∨ value.path.is_at_or_below root = false then
    .error .InvalidConversion
  else do
    let text ← leaf_text value revealed
    if value.path.fold = root.fold then
      if state.2.isSome then .error .InvalidConversion else .ok (state.1, some text)
    else do
      let segments ← relative_segments root value.path
      let object ← insert state.1 segments text
      return (object, state.2)

def build_tree (root : ConfigPath) (values : List SubTreeValue)
    (revealed : List (ConfigPath × Text)) : Except ProviderError Tree := do
  let (object, exact) ← values.foldlM (build_value root revealed) ([], none)
  match exact with
  | some text => if object.isEmpty then .ok (.Leaf text) else .error .InvalidConversion
  | none => .ok (.Node object)

variable {root path : ConfigPath}

theorem relative_segments_ok (h : root.segs <+: path.segs) (hne : path.fold ≠ root.fold) :
    relative_segments root path = .ok (below root path) := by
  have hbel : below root path ≠ [] := fun hnil => hne ((below_eq_nil h).mp hnil)
  have hseg := segs_below h
  have hfol := path.foldSegments_segs
  have hnil : path.segs ≠ [] := by
    rw [hseg]
    simp [hbel]
  unfold relative_segments
  split
  · rename_i hroot
    have hroo : root.segs = [] := (ConfigPath.fold_eq_iff FoldSegments.nil).mp hroot
    have hpat : below root path = path.segs := by rw [below, hroo]; rfl
    have hnon : ∀ s ∈ path.segs, s ≠ [] := fun s hs => (hfol s hs).1
    rw [path.fold_eq, path_text_of_ne hnil, dropWhile_render hfol.free hnon,
      splitOn_render hfol.free hnil, hpat]
  · rename_i hroot
    have hroo : root.segs ≠ [] := fun h => hroot (by rw [root.fold_eq, h]; rfl)
    have hfold : path.fold = root.fold ++ render '/' (below root path) := by
      rw [path.fold_eq, path_text_of_ne hnil, root.fold_eq, path_text_of_ne hroo,
        ← render_append, ← hseg]
    obtain ⟨first, rest, hcon⟩ := exists_cons_of_ne_nil hbel
    have hsla : render '/' (below root path) = '/' :: (render '/' (below root path)).tail := by
      rw [hcon]
      rfl
    have hfre : Free '/' (below root path) :=
      fun s hs => hfol.free s (mem_of_mem_drop hs)
    rw [strip_prefix_eq_some.mpr hfold, Option.bind_some, strip_prefix_eq_some.mpr hsla]
    show Except.ok (splitOn '/' (render '/' (below root path)).tail) = _
    rw [splitOn_render hfre hbel]

/-! ## Both loops assemble a trie -/

theorem insert_toOption (object : List (Text × Tree)) (segments : List Text) (value : Text) :
    (insert object segments value).toOption = Trie.insert object segments value := by
  induction segments generalizing object with
  | nil => rfl
  | cons segment remaining ih =>
    cases remaining with
    | nil =>
      simp only [insert, Trie.insert]
      split <;> rfl
    | cons next remaining =>
      simp only [insert, Trie.insert]
      cases (FoldMap.find id segment object).getD (.Node []) with
      | Leaf old => rfl
      | Node child =>
        show ((insert child (next :: remaining) value).bind _).toOption =
          (Trie.insert child (next :: remaining) value).map _
        rw [← ih child]
        cases insert child (next :: remaining) value <;> rfl

variable {text : SubTreeValue → Text} {value : SubTreeValue} {tree : Tree}

theorem build_value_simulates {revealed : List (ConfigPath × Text)} (hins : Inside root value)
    (htex : leaf_text value revealed = .ok (text value))
    (state : List (Text × Tree) × Option Text) :
    (build_value root revealed state value).toOption =
      Trie.place state (placed root text value) := by
  have hpre := (is_at_or_below_iff _ _).mp hins.2
  have hgua : ¬ (value.path.as_str = root_text ∨ value.path.is_at_or_below root = false) := by
    simp [hins.1, hins.2]
  have hnil := below_eq_nil hpre
  simp only [build_value, if_neg hgua, htex, Trie.place, placed, hnil, bind, Except.bind]
  split
  · split <;> rfl
  · rename_i hne
    rw [relative_segments_ok hpre hne, ← insert_toOption]
    cases hinse : insert state.1 (below root value.path) (text value) <;> simp [hinse] <;> rfl

/-! ## What both accept -/

variable {values : List SubTreeValue} {revealed : List (ConfigPath × Text)}

theorem build_tree_toOption (hins : ∀ value ∈ values, Inside root value)
    (htex : ∀ value ∈ values, leaf_text value revealed = .ok (text value)) :
    (build_tree root values revealed).toOption =
      Trie.assemble (values.map (placed root text)) := by
  have hloo := foldlM_simulates (f := build_value root revealed) (g := id) (h := placed root text)
    (l := values) (fun state value hval => by
      rw [Option.map_id_fun]
      exact build_value_simulates (hins value hval) (htex value hval) state) ([], none)
  rw [Option.map_id_fun, id_eq, id_eq] at hloo
  rw [Trie.assemble, ← hloo]
  show ((values.foldlM (build_value root revealed) ([], none)).bind _).toOption = _
  cases values.foldlM (build_value root revealed) ([], none) with
  | error e => rfl
  | ok state =>
    obtain ⟨object, exact⟩ := state
    cases exact with
    | none => rfl
    | some value => cases object <;> rfl

theorem inside_of_build (h : build_tree root values revealed = .ok tree) :
    ∀ value ∈ values, Inside root value := by
  obtain ⟨state, hloo, -⟩ := bind_eq_ok.mp h
  refine foldlM_forall (fun s value s' hrou => ?_) hloo
  unfold build_value at hrou
  obtain ⟨hgua, -⟩ := unless_eq_ok.mp hrou
  simpa [Inside, not_or] using hgua

theorem isOk_iff {ε α : Type} {x : Except ε α} : x.isOk = true ↔ ∃ a, x = .ok a := by
  cases x with
  | error e => simp [Except.isOk, Except.toBool]
  | ok a => simp [Except.isOk, Except.toBool]

/-! ## The two agree -/

def real_text (revealed : List (ConfigPath × Text)) (value : SubTreeValue) : Text :=
  match value.value with
  | .Plain plain => plain
  | .Secret => (FoldMap.find ConfigPath.fold value.path revealed).getD []

def Revealed (values : List SubTreeValue) (revealed : List (ConfigPath × Text)) : Prop :=
  ∀ value ∈ values, value.value = .Secret →
    (FoldMap.find ConfigPath.fold value.path revealed).isSome = true

theorem Revealed.leaf_text (h : Revealed values revealed) :
    ∀ value ∈ values, leaf_text value revealed = .ok (real_text revealed value) := by
  intro value hval
  unfold Provider.leaf_text real_text
  cases hcon : value.value with
  | Plain plain => rfl
  | Secret =>
    obtain ⟨text, htex⟩ := Option.isSome_iff_exists.mp (h value hval hcon)
    simp only [htex]
    rfl

theorem build_tree_ok_iff (h : Revealed values revealed) :
    (∃ tree, build_tree root values revealed = .ok tree) ↔ Representable root values := by
  have hiff : ∀ hins : ∀ value ∈ values, Inside root value,
      (∃ tree, build_tree root values revealed = .ok tree) ↔ Representable root values := by
    intro hins
    rw [← toOption_isSome, build_tree_toOption hins h.leaf_text]
    exact representable_iff _ hins
  constructor
  · rintro ⟨tree, htre⟩
    exact (hiff (inside_of_build htre)).mp ⟨tree, htre⟩
  · exact fun hr => (hiff hr.inside).mpr hr

theorem shape_of_representable (h : Representable root values) :
    ∃ shape : Trie Text SubTreeValue,
      Trie.assemble (values.map fun value => (below root value.path, value)) = some shape ∧
      shape.Whole ∧ ∀ q value, shape.get q = some value ↔
        value ∈ values ∧ value.path.segs = root.segs ++ q := by
  obtain ⟨shape, hsha⟩ := Option.isSome_iff_exists.mp
    ((representable_iff (fun value => value) h.inside).mpr h)
  obtain ⟨hwho, hhel⟩ := Trie.assemble_spec hsha
  refine ⟨shape, hsha, hwho, fun q value => ?_⟩
  rw [hhel, mem_map]
  constructor
  · rintro ⟨value', hval', heq⟩
    obtain ⟨rfl, rfl⟩ := Prod.mk.inj heq
    exact ⟨hval', segs_below ((is_at_or_below_iff _ _).mp (h.inside _ hval').2)⟩
  · rintro ⟨hval, hseg⟩
    exact ⟨value, hval, by rw [below, hseg, drop_left]⟩

theorem assemble_placed (text : SubTreeValue → Text) :
    Trie.assemble (values.map (placed root text)) =
      (Trie.assemble (values.map fun value => (below root value.path, value))).map
        (Trie.map text) := by
  rw [← Trie.assemble_map, map_map]
  rfl

def join (path segment : Text) : Text :=
  if path = root_text then '/' :: segment else path ++ '/' :: segment

def flatten (root : ConfigPath) (tree : Tree) : List (Text × Text) :=
  tree.leaves.map fun leaf => (leaf.1.foldl join root.fold, leaf.2)

theorem foldl_join {ss q : List Text} (h : FoldSegments (ss ++ q)) :
    q.foldl join (path_text ss) = path_text (ss ++ q) := by
  induction q generalizing ss with
  | nil => simp
  | cons s q ih =>
    have hss : FoldSegments ss := h.initial (prefix_append _ _)
    have hjoi : join (path_text ss) s = path_text (ss ++ [s]) := by
      unfold join
      by_cases hnil : ss = []
      · subst hnil
        simp [render]
      · rw [path_text_of_ne hnil, if_neg (render_ne_root hss), path_text_of_ne (by simp)]
        simp [render]
    rw [foldl_cons, hjoi, ih (by simpa using h)]
    simp

theorem flatten_build (h : Revealed values revealed)
    (htre : build_tree root values revealed = .ok tree) :
    ((flatten root tree).map Prod.fst).Nodup ∧ ∀ fold text, (fold, text) ∈ flatten root tree ↔
      ∃ value ∈ values, value.path.fold = fold ∧ leaf_text value revealed = .ok text := by
  have hins := inside_of_build htre
  have hass := build_tree_toOption hins h.leaf_text
  rw [htre] at hass
  obtain ⟨hwho, hhel⟩ := Trie.assemble_spec hass.symm
  have hlea : ∀ q text, (q, text) ∈ tree.leaves ↔
      ∃ value ∈ values, below root value.path = q ∧ real_text revealed value = text := by
    intro q text
    rw [hwho.mem_leaves, hhel, mem_map]
    simp [placed]
  have hfol : ∀ value ∈ values,
      (below root value.path).foldl join root.fold = value.path.fold := by
    intro value hval
    have hseg := segs_below ((is_at_or_below_iff _ _).mp (hins value hval).2)
    rw [root.fold_eq, foldl_join (hseg ▸ value.path.foldSegments_segs), ← hseg, ← value.path.fold_eq]
  constructor
  · -- Paths below the root that join to one fold are one path.
    have hpat : (flatten root tree).map Prod.fst =
        (tree.leaves.map Prod.fst).map (·.foldl join root.fold) := by
      rw [flatten, map_map, map_map]
      rfl
    have hval : ∀ q ∈ tree.leaves.map Prod.fst, ∃ value ∈ values, below root value.path = q := by
      intro q hq
      obtain ⟨leaf, hmem, rfl⟩ := mem_map.mp hq
      obtain ⟨value, hval, heq, -⟩ := (hlea leaf.1 leaf.2).mp hmem
      exact ⟨value, hval, heq⟩
    rw [hpat]
    refine List.Nodup.map_on (fun q hq q' hq' heq => ?_) hwho.nodup_leaves
    obtain ⟨value, hmem, rfl⟩ := hval q hq
    obtain ⟨value', hmem', rfl⟩ := hval q' hq'
    have hseg : value.path.segs = value'.path.segs := by
      rw [ConfigPath.segs_inj, ← hfol value hmem, ← hfol value' hmem']
      exact heq
    rw [below, below, hseg]
  · intro fold text
    rw [flatten, mem_map]
    constructor
    · rintro ⟨⟨q, text'⟩, hmem, heq⟩
      obtain ⟨rfl, rfl⟩ := Prod.mk.inj heq
      obtain ⟨value, hval, rfl, rfl⟩ := (hlea q text').mp hmem
      exact ⟨value, hval, (hfol value hval).symm, h.leaf_text value hval⟩
    · rintro ⟨value, hval, rfl, htex⟩
      refine ⟨(below root value.path, text), (hlea _ _).mpr ⟨value, hval, rfl, ?_⟩, ?_⟩
      · exact Except.ok.inj ((h.leaf_text value hval).symm.trans htex)
      · rw [hfol value hval]

/-- **The provider's tree and the client's JSON agree.** -/
theorem tree_builders_agree (serde_json : SerdeJson) (root : ConfigPath)
    (values : List SubTreeValue) (revealed : List (ConfigPath × Text))
    (hrevealed : Revealed values revealed) :
    -- both accept the same
    ((∃ tree, build_tree root values revealed = .ok tree) ↔ Representable root values) ∧
    ((∃ json, render_subtree_json serde_json root values = .ok json) ↔
      Representable root values) ∧
    -- both are images of one tree, by the real texts and by those shown
    (∀ tree json, build_tree root values revealed = .ok tree →
      render_subtree_json serde_json root values = .ok json →
      ∃ (node : JsonNode) (shape : Trie Text SubTreeValue),
        json = serde_json.to_string_pretty node.serialize ++ ['\n'] ∧
        tree = shape.map (real_text revealed) ∧
        folded node = shape.map (fun value => value.value.display_text) ∧
        ∀ q value, shape.get q = some value ↔ value ∈ values ∧ value.path.segs = root.segs ++ q) ∧
    -- the order of the values does not matter
    (∀ values', values.Perm values' →
      (build_tree root values' revealed).toOption = (build_tree root values revealed).toOption ∧
      (render_subtree_json serde_json root values').isOk =
        (render_subtree_json serde_json root values).isOk) ∧
    -- flattening gives the values back
    ∀ tree, build_tree root values revealed = .ok tree →
      ((flatten root tree).map Prod.fst).Nodup ∧ ∀ fold text, (fold, text) ∈ flatten root tree ↔
        ∃ value ∈ values, value.path.fold = fold ∧ leaf_text value revealed = .ok text := by
  refine ⟨build_tree_ok_iff hrevealed, render_ok_iff serde_json, fun tree json htre hjso => ?_,
    fun values' hper => ?_, fun tree htre => flatten_build hrevealed htre⟩
  · have hins := inside_of_build htre
    obtain ⟨shape, hsha, -, hhel⟩ :=
      shape_of_representable ((build_tree_ok_iff hrevealed).mp ⟨tree, htre⟩)
    obtain ⟨node, hren, hnod⟩ := render_toOption serde_json hins
    rw [hjso] at hren
    obtain ⟨node, rfl, rfl⟩ := Option.map_eq_some_iff.mp hren.symm
    have htri := build_tree_toOption hins hrevealed.leaf_text
    rw [htre, assemble_placed, hsha] at htri
    rw [assemble_placed, hsha] at hnod
    exact ⟨node, shape, rfl, Option.some.inj htri, Option.some.inj hnod, hhel⟩
  · have hrevealed' : Revealed values' revealed :=
      fun value hval => hrevealed value (hper.mem_iff.mpr hval)
    have hsam : Representable root values ↔ Representable root values' := by
      constructor
      · exact fun h => ⟨fun v hv => h.inside v (hper.mem_iff.mpr hv),
          (hper.pairwise_iff fun h => h.symm).mp h.apart⟩
      · exact fun h => ⟨fun v hv => h.inside v (hper.mem_iff.mp hv),
          (hper.pairwise_iff fun h => h.symm).mpr h.apart⟩
    constructor
    · by_cases hr : Representable root values
      · rw [build_tree_toOption (hsam.mp hr).inside hrevealed'.leaf_text,
          build_tree_toOption hr.inside hrevealed.leaf_text, Trie.assemble_perm (hper.symm.map _)]
      · have hnone := (build_tree_ok_iff hrevealed).not.mpr hr
        have hnone' := (build_tree_ok_iff hrevealed').not.mpr fun hr' => hr (hsam.mpr hr')
        rw [← toOption_isSome, Option.not_isSome_iff_eq_none] at hnone hnone'
        rw [hnone, hnone']
    · rw [Bool.eq_iff_iff, isOk_iff, isOk_iff, render_ok_iff, render_ok_iff, hsam]

def sample_root : ConfigPath := ⟨['/', 'a'], Or.inr (by decide)⟩

def sample_plain : SubTreeValue :=
  ⟨⟨['/', 'A', '/', 'N', '/', 'x'], Or.inr (by decide)⟩, .Plain ['1']⟩

def sample_secret : SubTreeValue := ⟨⟨['/', 'a', '/', 'n', '/', 'y'], Or.inr (by decide)⟩, .Secret⟩

def sample_revealed : List (ConfigPath × Text) := [(sample_secret.path, ['s'])]

def sample_tree : Tree :=
  .Node [(['n'], .Node [(['x'], .Leaf ['1']), (['y'], .Leaf ['s'])])]

theorem sample_trees_agree :
    build_tree sample_root [sample_plain, sample_secret] sample_revealed = .ok sample_tree ∧
    ∃ (json : Text) (node : JsonNode) (shape : Trie Text SubTreeValue),
      render_subtree_json plain_serde sample_root [sample_plain, sample_secret] = .ok json ∧
      json = plain_serde.to_string_pretty node.serialize ++ ['\n'] ∧
      sample_tree = shape.map (real_text sample_revealed) ∧
      folded node = shape.map (fun value => value.value.display_text) := by
  have hrev : Revealed [sample_plain, sample_secret] sample_revealed := by
    intro value hval hsec
    rcases mem_pair.mp hval with rfl | rfl
    · exact absurd hsec (by decide)
    · decide
  have htre : build_tree sample_root [sample_plain, sample_secret] sample_revealed =
      .ok sample_tree := rfl
  obtain ⟨hbui, hren, hbot, -⟩ := tree_builders_agree plain_serde sample_root
    [sample_plain, sample_secret] sample_revealed hrev
  obtain ⟨json, hjso⟩ := hren.mpr (hbui.mp ⟨_, htre⟩)
  obtain ⟨node, shape, htex, hrea, hsho, -⟩ := hbot _ _ htre hjso
  exact ⟨htre, json, node, shape, hjso, htex, hrea, hsho⟩

end SovereignConfig.Provider
