/-
`sovereign-config-core/src/plain.rs`: a subtree as `PATH=VALUE` lines, in the order of a
depth-first reading of its JSON document.
-/
import SovereignConfig.Ancestors
import SovereignConfig.Values.Rendered

namespace SovereignConfig.Values

open Lib Text List

/-! ## Rendering -/

def fold_segments (path : ConfigPath) : List Text :=
  (path.fold.dropWhile (· == '/')).splitOn '/'

def escaped (character : Char) : Text :=
  match character with
  | '\\' => ['\\', '\\']
  | '\n' => ['\\', 'n']
  | '\r' => ['\\', 'r']
  | other => [other]

def escape_into (rendered value : Text) : Text :=
  value.foldl (fun rendered character => rendered ++ escaped character) rendered

def plain_entry (root : ConfigPath) (entries : List (List Text × SubTreeValue))
    (value : SubTreeValue) : Except ClientError (List (List Text × SubTreeValue)) :=
  if value.path.as_str = root_text ∨ value.path.is_at_or_below root = false then
    .error unrepresentable_subtree
  else .ok (entries ++ [(fold_segments value.path, value)])

def plain_line (rendered : Text) (entry : List Text × SubTreeValue) : Text :=
  escape_into (rendered ++ entry.2.path.as_str ++ ['=']) entry.2.value.display_text ++ ['\n']

def render_subtree_plain (root : ConfigPath) (values : List SubTreeValue) :
    Except ClientError Text := do
  let entries ← values.foldlM (plain_entry root) []
  return (order_by Prod.fst entries).foldl plain_line []

/-! ## Reading lines back -/

def unescape : Text → Option Text
  | [] => some []
  | '\\' :: '\\' :: rest => (unescape rest).map ('\\' :: ·)
  | '\\' :: 'n' :: rest => (unescape rest).map ('\n' :: ·)
  | '\\' :: 'r' :: rest => (unescape rest).map ('\r' :: ·)
  | '\\' :: _ => none
  | character :: rest => (unescape rest).map (character :: ·)

def decode_line (line : Text) : Option (Text × Text) := do
  let (path, value) ← split_once '=' line
  let value ← unescape value
  return (path, value)

theorem unescape_escaped (character : Char) (rest : Text) :
    unescape (escaped character ++ rest) = (unescape rest).map (character :: ·) := by
  unfold escaped
  split
  · rfl
  · rfl
  · rfl
  · rename_i hesc _ _
    rw [singleton_append]
    exact unescape.eq_6 _ _ (fun _ h _ => hesc h) (fun _ h _ => hesc h)
      (fun _ h _ => hesc h) hesc

theorem unescape_escape (value : Text) : unescape (value.flatMap escaped) = some value := by
  induction value with
  | nil => rfl
  | cons character value ih => rw [flatMap_cons, unescape_escaped, ih, Option.map_some]

theorem not_mem_escape (value : Text) : '\n' ∉ value.flatMap escaped := by
  rw [mem_flatMap]
  rintro ⟨character, -, hmem⟩
  unfold escaped at hmem
  split at hmem
  · exact absurd hmem (by decide)
  · exact absurd hmem (by decide)
  · exact absurd hmem (by decide)
  · rename_i hfee _
    exact hfee (mem_singleton.mp hmem).symm

theorem escape_into_eq (rendered value : Text) :
    escape_into rendered value = rendered ++ value.flatMap escaped := by
  induction value generalizing rendered with
  | nil => exact (append_nil rendered).symm
  | cons character value ih =>
    rw [flatMap_cons, ← append_assoc]
    exact ih _

def SubTreeValue.line (value : SubTreeValue) : Text :=
  value.path.as_str ++ '=' :: value.value.display_text.flatMap escaped

theorem not_mem_path (path : ConfigPath) {c : Char} (hlow : c.toLower = c)
    (hc : (c == '/' || segment_char c) = false) : c ∉ path.path := by
  intro hmem
  have hfol : c.toLower ∈ path.fold := mem_map_of_mem hmem
  rw [hlow] at hfol
  rw [Bool.or_eq_false_iff, beq_eq_false_iff_ne] at hc
  rcases path.fold_chars hfol with hsla | hseg
  · exact hc.1 hsla
  · exact absurd hseg (by simp [hc.2])

theorem decode_line_line (value : SubTreeValue) :
    decode_line value.line = some (value.path.as_str, value.value.display_text) := by
  have hfre : '=' ∉ value.path.as_str := not_mem_path value.path (by decide) (by decide)
  simp only [decode_line, SubTreeValue.line, split_once_append _ hfre, unescape_escape,
    Option.bind_eq_bind, Option.bind_some, Option.pure_def]

theorem not_mem_line (value : SubTreeValue) : '\n' ∉ value.line := by
  rw [SubTreeValue.line, mem_append, mem_cons]
  rintro (hpat | hequ | hval)
  · exact not_mem_path value.path (by decide) (by decide) hpat
  · exact absurd hequ (by decide)
  · exact not_mem_escape _ hval

theorem foldl_plain_line (entries : List (List Text × SubTreeValue)) (rendered : Text) :
    entries.foldl plain_line rendered =
      rendered ++ (entries.map fun entry => entry.2.line ++ ['\n']).flatten := by
  induction entries generalizing rendered with
  | nil => simp
  | cons entry entries ih =>
    rw [foldl_cons, ih, plain_line, escape_into_eq, map_cons, flatten_cons,
      SubTreeValue.line]
    simp

theorem splitOn_lines {lines : List Text} (h : Free '\n' lines) :
    (lines.map (· ++ ['\n'])).flatten.splitOn '\n' = lines ++ [[]] := by
  have hren : ∀ lines : List Text,
      render '\n' (lines ++ [[]]) = '\n' :: (lines.map (· ++ ['\n'])).flatten := by
    intro lines
    induction lines with
    | nil => rfl
    | cons line lines ih =>
      rw [cons_append, render, flatMap_cons, map_cons, flatten_cons,
        append_assoc, cons_append, singleton_append]
      exact congrArg (fun rest => '\n' :: (line ++ rest)) ih
  have hfre : Free '\n' (lines ++ [[]]) := by
    intro line hlin
    rcases mem_append.mp hlin with hlin | hlin
    · exact h line hlin
    · rw [mem_singleton.mp hlin]
      exact not_mem_nil
  have hspl := splitOn_render hfre (by simp)
  rwa [hren] at hspl

section Plain

variable {root : ConfigPath} {values : List SubTreeValue} {output : Text}

def Selected (root : ConfigPath) (value : SubTreeValue) : Prop :=
  ¬ (value.path.as_str = root_text ∨ value.path.is_at_or_below root = false)

theorem plain_entries {entries entries' : List (List Text × SubTreeValue)}
    (h : values.foldlM (plain_entry root) entries = .ok entries') :
    (∀ value ∈ values, Selected root value) ∧
      entries' = entries ++ values.map fun value => (fold_segments value.path, value) := by
  induction values generalizing entries with
  | nil =>
    obtain rfl := Except.ok.inj h
    simp
  | cons value values ih =>
    rw [foldlM_cons] at h
    obtain ⟨next, hnex, hres⟩ := bind_eq_ok.mp h
    unfold plain_entry at hnex
    split_ifs at hnex with hgua
    obtain rfl := Except.ok.inj hnex
    obtain ⟨hsel, rfl⟩ := ih hres
    exact ⟨forall_mem_cons.mpr ⟨hgua, hsel⟩, by simp⟩

theorem fold_segments_eq {path : ConfigPath} (h : path.path ≠ root_text) :
    fold_segments path = path.segs := by
  have hseg : path.segs ≠ [] := mt path.segs_eq_nil.mp h
  have hnon : ∀ s ∈ path.segs, s ≠ [] := fun s hs => (path.foldSegments_segs s hs).1
  rw [fold_segments, ConfigPath.fold_eq_render h,
    dropWhile_render path.foldSegments_segs.free hnon,
    splitOn_render path.foldSegments_segs.free hseg]

theorem render_subtree_plain_eq (h : render_subtree_plain root values = .ok output) :
    (∀ value ∈ values, Selected root value) ∧ ∃ ordered : List SubTreeValue, ordered.Perm values ∧
      output.splitOn '\n' = ordered.map SubTreeValue.line ++ [[]] ∧
      ((values.map fun value => value.path.fold).Nodup →
        ordered.Pairwise fun value later => value.path.segs < later.path.segs) := by
  obtain ⟨entries, hent, hout⟩ := bind_eq_ok.mp h
  obtain rfl := Except.ok.inj hout
  obtain ⟨hsel, rfl⟩ := plain_entries hent
  rw [nil_append]
  have hseg : ∀ value ∈ values, fold_segments value.path = value.path.segs :=
    fun value hval => fold_segments_eq fun hroo => hsel value hval (.inl hroo)
  refine ⟨hsel, (order_by Prod.fst (values.map fun value =>
    (fold_segments value.path, value))).map Prod.snd, ?_, ?_, ?_⟩
  · refine ((order_by_perm _).map Prod.snd).trans (List.Perm.of_eq ?_)
    rw [map_map]
    exact map_id values
  · rw [foldl_plain_line, nil_append]
    have hlin : ∀ entries : List (List Text × SubTreeValue),
        entries.map (fun entry => entry.2.line ++ ['\n']) =
          ((entries.map Prod.snd).map SubTreeValue.line).map (· ++ ['\n']) := by
      intro entries
      rw [map_map, map_map]
      rfl
    rw [hlin, splitOn_lines]
    intro line hline
    obtain ⟨value, -, rfl⟩ := mem_map.mp hline
    exact not_mem_line value
  · intro hfol
    have hkey : ((values.map fun value => (fold_segments value.path, value)).map
        Prod.fst).Nodup := by
      rw [map_map]
      refine List.Nodup.of_map path_text (l := values.map _) ?_
      rw [map_map]
      refine (map_congr_left fun value hval => ?_).symm ▸ hfol
      exact (congrArg path_text (hseg value hval)).trans value.path.fold_eq.symm
    rw [pairwise_map]
    refine (order_by_increasing hkey).imp_of_mem fun {entry later} hentr hlat hlt => ?_
    obtain ⟨value, hval, rfl⟩ := mem_map.mp (mem_order_by.mp hentr)
    obtain ⟨value', hval', rfl⟩ := mem_map.mp (mem_order_by.mp hlat)
    rw [← hseg value hval, ← hseg value' hval']
    exact hlt

end Plain

/-! ## The JSON document -/

mutual

def Json.leaves : Json → List (List Text × Text)
  | .string value => [([], value)]
  | .object members => member_leaves members
  | .other => []

def member_leaves : List (Text × Json) → List (List Text × Text)
  | [] => []
  | (key, value) :: members =>
    value.leaves.map (fun leaf => (key :: leaf.1, leaf.2)) ++ member_leaves members

end

def fold_leaf (leaf : List Text × Text) : List Text × Text :=
  (leaf.1.map to_ascii_lowercase, leaf.2)

mutual

theorem leaves_serialize : ∀ node : JsonNode,
    node.serialize.leaves.map fold_leaf = node.leaves
  | .String value => rfl
  | .Object object => by
    rw [JsonNode.serialize, Json.leaves, JsonNode.leaves]
    exact leaves_serialize_members object

theorem leaves_serialize_members : ∀ object : JsonObject,
    (member_leaves (serialize_members object)).map fold_leaf = object_leaves object
  | [] => rfl
  | (key, node) :: object => by
    rw [serialize_members, member_leaves, object_leaves, map_append,
      leaves_serialize_members object, ← leaves_serialize node, map_map, map_map]
    rfl

end

def Increasing (leaves : List (List Text × Text)) : Prop :=
  leaves.Pairwise fun leaf later => leaf.1 < later.1

variable {object : JsonObject}

theorem object_leaves_increasing (hord : FoldMap.Ordered to_ascii_lowercase object)
    (hnod : ∀ entry ∈ object, Increasing entry.2.leaves) : Increasing (object_leaves object) := by
  induction object with
  | nil => exact List.Pairwise.nil
  | cons entry object ih =>
    obtain ⟨key, node⟩ := entry
    obtain ⟨hhea, htai⟩ := pairwise_cons.mp hord
    rw [forall_mem_cons] at hnod
    refine pairwise_append.mpr ⟨?_, ih htai hnod.2, ?_⟩
    · -- Below one key, by what is below it.
      rw [pairwise_map]
      exact hnod.1.imp fun hlt => cons_lt_cons_iff.mpr (.inr ⟨rfl, hlt⟩)
    · -- Below two keys, by the keys.
      intro leaf hlea later hlat
      obtain ⟨below, -, rfl⟩ := mem_map.mp hlea
      obtain ⟨key', node', hmem, below', -, rfl⟩ := mem_object_leaves.mp hlat
      exact cons_lt_cons_iff.mpr (.inl (hhea (key', node') hmem))

theorem JsonNode.Keyed.increasing {node : JsonNode} {ok : Text → Prop} (h : node.Keyed ok) :
    Increasing node.leaves := by
  induction h with
  | string value => exact pairwise_singleton _ _
  | object hord _ _ ih => exact object_leaves_increasing hord ih

/-- **Plain rendering is decodable and ordered like JSON.** -/
theorem plain_decodes_in_json_order {root : ConfigPath} {values : List SubTreeValue} {output : Text}
    (hfolds : (values.map fun value => value.path.fold).Nodup)
    (h : render_subtree_plain root values = .ok output) :
    ∃ (lines : List Text) (ordered : List SubTreeValue),
      output.splitOn '\n' = lines ++ [[]] ∧ ordered.Perm values ∧
      lines.map decode_line =
        ordered.map (fun value => some (value.path.as_str, value.value.display_text)) ∧
      ∀ serde_json json, render_subtree_json serde_json root values = .ok json →
        ∃ document, serde_json.from_str json = some document ∧
          document.leaves.map (fun leaf => leaf_at root (fold_leaf leaf)) =
            ordered.map SubTreeValue.shown := by
  obtain ⟨-, ordered, hper, hlin, hord⟩ := render_subtree_plain_eq h
  refine ⟨ordered.map SubTreeValue.line, ordered, hlin, hper, ?_, ?_⟩
  · rw [map_map]
    exact map_congr_left fun value _ => decode_line_line value
  · intro serde_json json hjso
    obtain ⟨node, rfl, hgoo, hlea⟩ := render_subtree_json_spec hjso
    refine ⟨node.serialize, serde_json.parses_back _, ?_⟩
    have hread : node.serialize.leaves.map (fun leaf => leaf_at root (fold_leaf leaf)) =
        node.leaves.map (leaf_at root) := by
      rw [← leaves_serialize node, map_map]
      rfl
    rw [hread]
    -- Two lists of the same values, both increasing.
    have hdoc : (node.leaves.map (leaf_at root)).Pairwise fun a b => a.1 < b.1 := by
      rw [pairwise_map]
      exact hgoo.increasing.imp fun hlt => append_left_lt hlt
    have hsho : (ordered.map SubTreeValue.shown).Pairwise fun a b => a.1 < b.1 := by
      rw [pairwise_map]
      exact hord hfolds
    refine eq_of_increasing hdoc hsho fun shown => ?_
    rw [hlea.mem_iff, (hper.map SubTreeValue.shown).mem_iff]

def two_values : List SubTreeValue :=
  [⟨⟨"/a-c".toList, by decide⟩, .Plain "x=\n".toList⟩,
    ⟨⟨"/A/b".toList, by decide⟩, .Plain "\\".toList⟩]

theorem two_values_decode :
    ∃ (lines : List Text) (ordered : List SubTreeValue),
      "/A/b=\\\\\n/a-c=x=\\n\n".toList.splitOn '\n' = lines ++ [[]] ∧ ordered.Perm two_values ∧
      lines.map decode_line =
        ordered.map (fun value => some (value.path.as_str, value.value.display_text)) := by
  obtain ⟨lines, ordered, hlin, hper, hdec, -⟩ :=
    plain_decodes_in_json_order (by decide +kernel)
      (show render_subtree_plain .root two_values = .ok "/A/b=\\\\\n/a-c=x=\\n\n".toList by
        decide +kernel)
  exact ⟨lines, ordered, hlin, hper, hdec⟩

end SovereignConfig.Values
