/-
What the client parses, the server accepts, and what the server accepts can be written as a
document.
-/
import SovereignConfig.Values.Normalize
import SovereignConfig.Values.Rendered

namespace SovereignConfig.Values

open Lib Text List Function

def SubTreeMutationContent.wire : SubTreeMutationContent → SubTreeEntryContent
  | .Plain text => .PlainValue text
  | .PreserveSecret => .PreserveSecret

def SubTreeMutationValue.wire (value : SubTreeMutationValue) : SubTreeEntry :=
  ⟨value.path.as_str, some value.value.wire⟩

variable {node : JsonNode} {json : Text} {root : ConfigPath} {serde_json : SerdeJson}
  {entry : SubTreeEntry}

mutual

theorem deserialize_keyed : ∀ (value : Json) {node : JsonNode},
    value.deserialize = some node → node.Keyed fun _ => True
  | .string value, node, h => by
    rw [Json.deserialize] at h
    obtain rfl := Option.some.inj h
    exact .string value
  | .object members, node, h => by
    rw [Json.deserialize] at h
    obtain ⟨object, hobj, hnod⟩ := Option.bind_eq_some_iff.mp h
    obtain rfl := Option.some.inj hnod
    exact visit_map_keyed members keyed_nil hobj
  | .other, node, h => by
    rw [Json.deserialize] at h
    simp at h

theorem visit_map_keyed : ∀ (members : List (Text × Json)) {object object' : JsonObject},
    (JsonNode.Object object).Keyed (fun _ => True) → visit_map object members = some object' →
      (JsonNode.Object object').Keyed fun _ => True
  | [], object, object', hkey, h => by
    rw [visit_map] at h
    obtain rfl := Option.some.inj h
    exact hkey
  | (key, value) :: members, object, object', hkey, h => by
    rw [visit_map] at h
    obtain ⟨node, hnod, h⟩ := Option.bind_eq_some_iff.mp h
    split at h
    · simp at h
    · exact visit_map_keyed members (hkey.put trivial (deserialize_keyed value hnod)) h

end

theorem JsonNode.Keyed.leaves_unrelated {ok : Text → Prop} (h : node.Keyed ok) :
    node.leaves.Pairwise fun a b => Unrelated a.1 b.1 := by
  induction h with
  | string value => exact pairwise_singleton _ _
  | @object object hord hkey hent ih =>
    rw [JsonNode.leaves]
    induction object with
    | nil => exact List.Pairwise.nil
    | cons entry object ihobject =>
      obtain ⟨key, node⟩ := entry
      obtain ⟨hhea, htai⟩ := pairwise_cons.mp hord
      rw [object_leaves]
      refine pairwise_append.mpr ⟨?_, ?_, ?_⟩
      · refine pairwise_map.mpr ((ih (key, node) mem_cons_self).imp fun hab => ?_)
        exact unrelated_cons.mpr hab
      · exact ihobject htai (fun entry he => hkey entry (mem_cons_of_mem _ he))
          (fun entry he => hent entry (mem_cons_of_mem _ he))
          fun entry he => ih entry (mem_cons_of_mem _ he)
      · intro a ha b hb
        obtain ⟨leaf, -, rfl⟩ := mem_map.mp ha
        obtain ⟨key', node', hmem, below, -, rfl⟩ := mem_object_leaves.mp hb
        exact unrelated_cons_of_ne (hhea (key', node') hmem).ne _ _

theorem join_name_eq_ok {path joined : ConfigPath} {name : Text}
    (h : path.join_name name = .ok joined) :
    joined.segs = path.segs ++ [to_ascii_lowercase name] := by
  by_cases hnam : segment_ok name = true
  · obtain ⟨joined', hjoi, hseg⟩ := join_name_ok path hnam
    obtain rfl := Except.ok.inj (h.symm.trans hjoi)
    exact hseg
  · rw [ConfigPath.join_name, dif_neg hnam] at h
    simp at h

mutual

theorem flatten_json_node_eq_ok : ∀ (node : JsonNode) {path : ConfigPath}
    {values : List SubTreeMutationValue}, flatten_json_node path node = .ok values →
    values.map SubTreeMutationValue.at_segs = node.leaves.map (leaf_entry path) ∧
      ∀ leaf ∈ node.leaves, contains_char leaf.2 '\x00' = false
  | .String value, path, values, h => by
    rw [flatten_json_node] at h
    split at h
    · simp at h
    · rename_i hnul
      obtain rfl := Except.ok.inj h
      simp only [JsonNode.leaves, forall_mem_singleton]
      exact ⟨by simp [SubTreeMutationValue.at_segs, leaf_entry], Bool.eq_false_iff.mpr hnul⟩
  | .Object object, path, values, h => by
    rw [flatten_json_node] at h
    rw [JsonNode.leaves]
    exact flatten_json_object_eq_ok object h

theorem flatten_json_object_eq_ok : ∀ (object : JsonObject) {path : ConfigPath}
    {values : List SubTreeMutationValue}, flatten_json_object path object = .ok values →
    values.map SubTreeMutationValue.at_segs = (object_leaves object).map (leaf_entry path) ∧
      ∀ leaf ∈ object_leaves object, contains_char leaf.2 '\x00' = false
  | [], path, values, h => by
    rw [flatten_json_object] at h
    obtain rfl := Except.ok.inj h
    simp [object_leaves]
  | (key, node) :: object, path, values, h => by
    rw [flatten_json_object] at h
    obtain ⟨below, hjoi, h⟩ := bind_eq_ok.mp h
    obtain ⟨first, hfir, h⟩ := bind_eq_ok.mp h
    obtain ⟨rest, hres, h⟩ := bind_eq_ok.mp h
    obtain rfl := Except.ok.inj h
    have hseg := join_name_eq_ok (mapError_eq_ok.mp hjoi)
    obtain ⟨hmap, hnul⟩ := flatten_json_node_eq_ok node hfir
    obtain ⟨hmap', hnul'⟩ := flatten_json_object_eq_ok object hres
    rw [object_leaves]
    constructor
    · rw [map_append, hmap, hmap', map_append, map_map]
      refine congrArg (· ++ _) (map_congr_left fun leaf _ => ?_)
      simp [leaf_entry, hseg]
    · intro leaf hlea
      rcases mem_append.mp hlea with hlea | hlea
      · obtain ⟨inner, hinn, rfl⟩ := mem_map.mp hlea
        exact hnul inner hinn
      · exact hnul' leaf hlea

end

theorem parse_subtree_json_eq_ok {values : List SubTreeMutationValue}
    (h : parse_subtree_json serde_json root json = .ok values) :
    ∃ leaves : List (List Text × Text), leaves.Pairwise (fun a b => Unrelated a.1 b.1) ∧
      (∀ leaf ∈ leaves, contains_char leaf.2 '\x00' = false ∧ root.segs ++ leaf.1 ≠ []) ∧
      values.map SubTreeMutationValue.at_segs = leaves.map (leaf_entry root) := by
  unfold parse_subtree_json at h
  split at h
  · simp at h
  · rename_i node hnod
    obtain ⟨value, -, hval⟩ := Option.bind_eq_some_iff.mp hnod
    have hunr := (deserialize_keyed value hval).leaves_unrelated
    refine ⟨node.leaves, hunr, ?_⟩
    split at h
    · rename_i hroo
      split at h
      · rename_i object
        obtain ⟨hmap, hnul⟩ := flatten_json_object_eq_ok object h
        simp only [JsonNode.leaves]
        refine ⟨fun leaf hlea => ⟨hnul leaf hlea, ?_⟩, hmap⟩
        obtain ⟨key, node, -, below, -, rfl⟩ := mem_object_leaves.mp hlea
        simp
      · simp at h
    · rename_i hroo
      obtain ⟨hmap, hnul⟩ := flatten_json_node_eq_ok node h
      refine ⟨fun leaf hlea => ⟨hnul leaf hlea, fun hnil => ?_⟩, hmap⟩
      exact hroo (root.segs_eq_nil.mp (append_eq_nil_iff.mp hnil).1)

theorem plain_content {text plain : Text} (h : mutation_content text = .Plain plain) :
    text = plain := by
  unfold mutation_content at h
  split at h
  · simp at h
  · exact SubTreeMutationContent.Plain.inj h

theorem wire_normalizes {entries : List SubTreeMutationValue}
    (hent : ∀ entry ∈ entries, root.segs <+: entry.path.segs ∧ entry.path.segs ≠ [] ∧
      ∀ text, entry.value = .Plain text → contains_char text '\x00' = false)
    (hapa : entries.Pairwise fun a b => Unrelated a.path.segs b.path.segs) :
    ∃ n, normalize root (entries.map SubTreeMutationValue.wire) = .ok n ∧
      n.values.Perm (entries.map fun entry => entry.wire.folded) := by
  have hadm : ∀ value ∈ entries.map SubTreeMutationValue.wire, Admissible root value := by
    intro value hmem
    obtain ⟨entry, hin, rfl⟩ := mem_map.mp hmem
    obtain ⟨hbel, hne, hnul⟩ := hent entry hin
    refine ⟨?_, entry.path, ?_, hbel⟩
    · cases hval : entry.value with
      | Plain text =>
        simp [SubTreeMutationValue.wire, hval, SubTreeMutationContent.wire, content_ok,
          hnul text hval]
      | PreserveSecret =>
        simp [SubTreeMutationValue.wire, hval, SubTreeMutationContent.wire, content_ok]
    · exact parse_operation_iff.mpr ⟨rfl, mt entry.path.segs_eq_nil.mpr hne⟩
  obtain ⟨n, hn, hper⟩ := normalize_accepts hadm (pairwise_map.mpr hapa)
  exact ⟨n, hn, by simpa [map_map, comp_def] using hper⟩

theorem parsed_normalizes {entries : List SubTreeMutationValue}
    (h : parse_subtree_json serde_json root json = .ok entries) :
    ∃ n, normalize root (entries.map SubTreeMutationValue.wire) = .ok n := by
  obtain ⟨leaves, hunr, hleav, hmap⟩ := parse_subtree_json_eq_ok h
  have hent : ∀ entry ∈ entries, ∃ leaf ∈ leaves, entry.at_segs = leaf_entry root leaf := by
    intro entry hin
    obtain ⟨leaf, hlea, heq⟩ := mem_map.mp (hmap ▸ mem_map_of_mem hin)
    exact ⟨leaf, hlea, heq.symm⟩
  have hpai : (entries.map SubTreeMutationValue.at_segs).Pairwise
      fun a b => Unrelated a.1 b.1 := by
    rw [hmap, pairwise_map]
    refine hunr.imp fun hab => ?_
    simpa [Unrelated, leaf_entry, prefix_append_right_inj] using hab
  rw [pairwise_map] at hpai
  have hsen : ∀ entry ∈ entries, root.segs <+: entry.path.segs ∧ entry.path.segs ≠ [] ∧
      ∀ text, entry.value = .Plain text → contains_char text '\x00' = false := by
    intro entry hin
    obtain ⟨leaf, hlea, heq⟩ := hent entry hin
    obtain ⟨hseg, hval⟩ := Prod.mk.inj heq
    obtain ⟨hnul, hne⟩ := hleav leaf hlea
    refine ⟨hseg ▸ prefix_append _ _, hseg ▸ hne, fun text htex => ?_⟩
    rw [← plain_content (hval.symm.trans htex)]
    exact hnul
  obtain ⟨n, hn, -⟩ := wire_normalizes hsen hpai
  exact ⟨n, hn⟩

def SubTreeEntry.as_value (entry : SubTreeEntry) : SubTreeValue where
  path := (ConfigPath.parse_operation entry.path).toOption.getD .root
  value := match entry.content with
    | some (.PlainValue text) => .Plain text
    | _ => .Secret

theorem as_value_path (h : Admissible root entry) :
    entry.as_value.path.path = entry.path ∧ operation_path entry.as_value.path.path = true ∧
      root.segs <+: entry.as_value.path.segs := by
  obtain ⟨-, p, hpar, hbel⟩ := h
  have hpat : entry.as_value.path = p := by
    show (ConfigPath.parse_operation entry.path).toOption.getD .root = p
    rw [hpar]
    rfl
  rw [hpat]
  exact ⟨(parse_operation_path hpar).1, parse_operation_canonical hpar, hbel⟩

def sent (entry : List Text × SubTreeMutationContent) : SubTreeEntry :=
  ⟨path_text entry.1, some entry.2.wire⟩

theorem wire_folded (entry : SubTreeMutationValue) : entry.wire.folded = sent entry.at_segs := by
  rw [sent, SubTreeMutationValue.at_segs, ← entry.path.fold_eq]
  rfl

theorem sent_read_back (h : Admissible root entry)
    (hmas : entry.content ≠ some (.PlainValue MASKED_SECRET_TEXT)) :
    sent entry.as_value.read_back = entry.folded := by
  have hpat : path_text entry.as_value.path.segs = to_ascii_lowercase entry.path := by
    rw [← entry.as_value.path.fold_eq, ConfigPath.fold, (as_value_path h).1]
  have hcon : some (mutation_content entry.as_value.value.display_text).wire =
      entry.content := by
    have hok := h.1
    unfold SubTreeEntry.as_value
    cases hent : entry.content with
    | none => simp [hent, content_ok] at hok
    | some content =>
      cases content with
      | PlainValue text =>
        have hne : text ≠ MASKED_SECRET_TEXT := fun heq => hmas (heq ▸ hent)
        simp [ValueContent.display_text, mutation_content, hne, SubTreeMutationContent.wire]
      | PreserveSecret =>
        simp [ValueContent.display_text, mutation_content, SubTreeMutationContent.wire]
  rw [sent, SubTreeValue.read_back, hpat, hcon]
  rfl

theorem accepted_written (serde_json : SerdeJson) {values : List SubTreeEntry}
    {n : NormalizedSubtree} (h : normalize root values = .ok n)
    (hmas : ∀ value ∈ values, value.content ≠ some (.PlainValue MASKED_SECRET_TEXT)) :
    ∃ json entries, parse_subtree_json serde_json root json = .ok entries ∧
      (entries.map fun entry => entry.wire.folded).Perm n.values := by
  obtain ⟨hadm, -, -⟩ := normalize_eq_ok h
  have hper := (normalizes_to h).entries
  have hapa : (values.map SubTreeEntry.as_value).Pairwise SubTreeValue.Apart := by
    have hfol := (normalize_ok h).apart
    rw [hper.pairwise_iff fun hab => ⟨hab.2, hab.1⟩, pairwise_map] at hfol
    refine pairwise_map.mpr (hfol.imp_of_mem fun {a b} ha hb hab => ?_)
    have hpat := (as_value_path (hadm a ha)).1
    have hpat' := (as_value_path (hadm b hb)).1
    simpa only [SubTreeValue.Apart, Unrelated, Apart, SubTreeEntry.folded, ConfigPath.segs,
      ConfigPath.fold, hpat, hpat'] using hab
  have hvalu : ∀ value ∈ values.map SubTreeEntry.as_value,
      operation_path value.path.path = true ∧ root.segs <+: value.path.segs := by
    intro value hval
    obtain ⟨entry, hent, rfl⟩ := mem_map.mp hval
    exact (as_value_path (hadm entry hent)).2
  have hnul : ∀ value ∈ values.map SubTreeEntry.as_value,
      contains_char value.value.display_text '\x00' = false := by
    intro value hval
    obtain ⟨entry, hent, rfl⟩ := mem_map.mp hval
    have hok := (hadm entry hent).1
    unfold SubTreeEntry.as_value
    cases hcon : entry.content with
    | none => simp [hcon, content_ok] at hok
    | some content =>
      cases content with
      | PlainValue text => simpa [hcon, content_ok, ValueContent.display_text] using hok
      | PreserveSecret => exact (by decide : contains_char MASKED_SECRET_TEXT '\x00' = false)
  obtain ⟨json, entries, -, hpar, hbac⟩ :=
    parse_render_subtree_json serde_json hvalu hapa hnul
  refine ⟨json, entries, hpar, ?_⟩
  have hsen := hbac.map sent
  rw [map_map, map_map, map_map] at hsen
  have hfold : values.map ((sent ∘ SubTreeValue.read_back) ∘ SubTreeEntry.as_value) =
      values.map SubTreeEntry.folded :=
    map_congr_left fun entry hent =>
      sent_read_back (hadm entry hent) (hmas entry hent)
  rw [hfold] at hsen
  refine (List.Perm.of_eq ?_).trans (hsen.trans hper.symm)
  exact map_congr_left fun entry _ => wire_folded entry

/-- **The client's documents and the server's subtrees are the same,** up to the case of paths. -/
theorem documents_are_subtrees (serde_json : SerdeJson) (root : ConfigPath) :
    (∀ json entries, parse_subtree_json serde_json root json = .ok entries →
      ∃ n, normalize root (entries.map SubTreeMutationValue.wire) = .ok n) ∧
    ∀ values n, normalize root values = .ok n →
      (∀ value ∈ values, value.content ≠ some (.PlainValue MASKED_SECRET_TEXT)) →
      ∃ json entries, parse_subtree_json serde_json root json = .ok entries ∧
        (entries.map fun entry => entry.wire.folded).Perm n.values :=
  ⟨fun _ _ h => parsed_normalizes h, fun _ _ h hmasked => accepted_written serde_json h hmasked⟩

/-- A document for two siblings, one of them a secret, and its entries accepted again. -/
theorem siblings_written : ∃ json entries n,
    parse_subtree_json plain_serde ConfigPath.root json = .ok entries ∧
    normalize ConfigPath.root (entries.map SubTreeMutationValue.wire) = .ok n := by
  obtain ⟨hacc, hwri⟩ := documents_are_subtrees plain_serde ConfigPath.root
  obtain ⟨n, hn⟩ := siblings_ok
  obtain ⟨json, entries, hpar, -⟩ := hwri sibling_entries n hn (by decide)
  obtain ⟨n', hn'⟩ := hacc json entries hpar
  exact ⟨json, entries, n', hpar, hn'⟩

end SovereignConfig.Values
