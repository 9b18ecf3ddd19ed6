/-
`sovereign-config-core/src/json.rs`: a subtree as nested JSON, and back. Keys keep the case they
came in first. `serde_json` is assumed to read back what it has written.
-/
import SovereignConfig.Client
import SovereignConfig.Lib.Checks
import SovereignConfig.Lib.FoldMap
import SovereignConfig.Values.Reads

namespace SovereignConfig

open Text List

theorem operation_path_join {path name : Text} (hpat : path = root_text ∨ operation_path path = true)
    (hnam : segment_ok name = true) :
    operation_path (if path = root_text then '/' :: name else path ++ '/' :: name) = true := by
  rw [operation_path_iff]
  split
  · exact ⟨[name], by simp, by simpa using hnam, by simp [Lib.render]⟩
  · rename_i hroo
    obtain ⟨ss, hne, hok, rfl⟩ := (operation_path_iff path).mp (hpat.resolve_left hroo)
    refine ⟨ss ++ [name], by simp, ?_, by simp [Lib.render]⟩
    intro s hs
    rcases mem_append.mp hs with hs | hs
    · exact hok s hs
    · exact mem_singleton.mp hs ▸ hnam

/-- `ConfigPath::join_name`: the path one segment further down. -/
def ConfigPath.join_name (self : ConfigPath) (name : Text) : Except PathError ConfigPath :=
  if h : segment_ok name = true then
    .ok ⟨if self.path = root_text then '/' :: name else self.path ++ '/' :: name,
      Or.inr (operation_path_join self.canonical h)⟩
  else .error .NonCanonical

end SovereignConfig

namespace SovereignConfig.Values

open Lib Text List

/-! ## Nodes -/

inductive Json where
  | string (value : Text)
  | object (members : List (Text × Json))
  /-- Null, a boolean, a number or an array. -/
  | other

/-- `serde_json`: printing, and reading one value to the end of the text. -/
structure SerdeJson where
  to_string_pretty : Json → Text
  from_str : Text → Option Json
  /-- What was printed is read back, also with a line break after it. -/
  parses_back : ∀ value, from_str (to_string_pretty value ++ ['\n']) = some value

inductive JsonNode where
  | String (value : Text)
  | Object (object : List (Text × JsonNode))

abbrev JsonObject := List (Text × JsonNode)

mutual

/-- `Serialize for JsonNode`. -/
def JsonNode.serialize : JsonNode → Json
  | .String value => .string value
  | .Object object => .object (serialize_members object)

def serialize_members : JsonObject → List (Text × Json)
  | [] => []
  | (key, value) :: object => (key, value.serialize) :: serialize_members object

end

mutual

/-- `Deserialize for JsonNode`: an object with two keys of one fold is refused. -/
def Json.deserialize : Json → Option JsonNode
  | .string value => some (.String value)
  | .object members => do
    let object ← visit_map [] members
    return .Object object
  | .other => none

def visit_map (object : JsonObject) : List (Text × Json) → Option JsonObject
  | [] => some object
  | (key, value) :: members => do
    let value ← value.deserialize
    if (FoldMap.find to_ascii_lowercase key object).isSome then none
    else visit_map (FoldMap.put to_ascii_lowercase key value object) members

end

/-! ## Rendering -/

def invalid_json : ClientError := ⟨.InvalidRequest, "configuration JSON is invalid"⟩

/-- `invalid_subtree` of the client. -/
def unrepresentable_subtree : ClientError :=
  ⟨.InvalidRequest, "configuration subtree cannot be represented as JSON"⟩

def ValueContent.display_text : ValueContent → Text
  | .Plain value => value
  | .Secret => MASKED_SECRET_TEXT

/-- The segments of `path` below `root`, as written. -/
def json_segments (root path : ConfigPath) : Except ClientError (List Text) :=
  if root.as_str = root_text then
    .ok ((path.as_str.dropWhile (· == '/')).splitOn '/')
  else
    let prefix_len := root.as_str.length
    if prefix_len < path.as_str.length
        ∧ to_ascii_lowercase (path.as_str.take prefix_len) = to_ascii_lowercase root.as_str
        ∧ path.as_str[prefix_len]? = some '/' then
      .ok ((path.as_str.drop (prefix_len + 1)).splitOn '/')
    else .error unrepresentable_subtree

def insert_json_value (object : JsonObject) :
    List Text → Text → Except ClientError JsonObject
  | [], _ => .error unrepresentable_subtree
  | [segment], value =>
    if (FoldMap.find to_ascii_lowercase segment object).isSome then .error unrepresentable_subtree
    else .ok (FoldMap.put to_ascii_lowercase segment (.String value) object)
  | segment :: remaining, value =>
    match (FoldMap.find to_ascii_lowercase segment object).getD (.Object []) with
    | .String _ => .error unrepresentable_subtree
    | .Object child => do
      let child ← insert_json_value child remaining value
      return FoldMap.put to_ascii_lowercase segment (.Object child) object

def render_value (root : ConfigPath) (state : JsonObject × Option Text) (value : SubTreeValue) :
    Except ClientError (JsonObject × Option Text) :=
  if value.path.as_str = root_text ∨ value.path.is_at_or_below root = false then
    .error unrepresentable_subtree
  else if value.path.fold = root.fold then
    if state.2.isSome then .error unrepresentable_subtree
    else .ok (state.1, some value.value.display_text)
  else do
    let segments ← json_segments root value.path
    let object ← insert_json_value state.1 segments value.value.display_text
    return (object, state.2)

def render_subtree_json (serde_json : SerdeJson) (root : ConfigPath) (values : List SubTreeValue) :
    Except ClientError Text := do
  let (object, exact) ← values.foldlM (render_value root) ([], none)
  let node ← match exact with
    | some value =>
      if object.isEmpty then .ok (JsonNode.String value) else .error unrepresentable_subtree
    | none => .ok (JsonNode.Object object)
  return serde_json.to_string_pretty node.serialize ++ ['\n']

/-! ## Parsing -/

inductive SubTreeMutationContent where
  | Plain (value : Text)
  | PreserveSecret
deriving DecidableEq

structure SubTreeMutationValue where
  path : ConfigPath
  value : SubTreeMutationContent

def mutation_content (value : Text) : SubTreeMutationContent :=
  if value = MASKED_SECRET_TEXT then .PreserveSecret else .Plain value

mutual

def flatten_json_object (root : ConfigPath) :
    JsonObject → Except ClientError (List SubTreeMutationValue)
  | [] => .ok []
  | (key, node) :: object => do
    let path ← (root.join_name key).mapError fun _ => invalid_json
    let values ← flatten_json_node path node
    let rest ← flatten_json_object root object
    return values ++ rest

def flatten_json_node (path : ConfigPath) :
    JsonNode → Except ClientError (List SubTreeMutationValue)
  | .String value =>
    if contains_char value '\x00' then .error invalid_json
    else .ok [⟨path, mutation_content value⟩]
  | .Object object => flatten_json_object path object

end

def parse_subtree_json (serde_json : SerdeJson) (root : ConfigPath) (json : Text) :
    Except ClientError (List SubTreeMutationValue) :=
  match (serde_json.from_str json).bind Json.deserialize with
  | none => .error invalid_json
  | some node =>
    if root.as_str = root_text then
      match node with
      | .Object object => flatten_json_object root object
      | .String _ => .error invalid_json
    else flatten_json_node root node

/-! ## Leaves -/

mutual

def JsonNode.leaves : JsonNode → List (List Text × Text)
  | .String value => [([], value)]
  | .Object object => object_leaves object

def object_leaves : JsonObject → List (List Text × Text)
  | [] => []
  | (key, node) :: object =>
    node.leaves.map (fun leaf => (to_ascii_lowercase key :: leaf.1, leaf.2)) ++
      object_leaves object

end

theorem object_leaves_append (first second : JsonObject) :
    object_leaves (first ++ second) = object_leaves first ++ object_leaves second := by
  induction first with
  | nil => rfl
  | cons entry first ih => simp [object_leaves, ih]

variable {leaf : List Text × Text} {object : JsonObject} {segment : Text} {segments : List Text}
  {root : ConfigPath} {values : List SubTreeValue}

theorem mem_object_leaves :
    leaf ∈ object_leaves object ↔ ∃ key node, (key, node) ∈ object ∧
      ∃ below ∈ node.leaves, leaf = (to_ascii_lowercase key :: below.1, below.2) := by
  induction object with
  | nil => simp [object_leaves]
  | cons entry object ih =>
    obtain ⟨key, node⟩ := entry
    simp only [object_leaves, mem_append, mem_map, ih, mem_cons, Prod.mk.injEq]
    constructor
    · rintro (⟨below, hbel, rfl⟩ | ⟨key', node', hmem, hres⟩)
      · exact ⟨key, node, Or.inl ⟨rfl, rfl⟩, below, hbel, rfl⟩
      · exact ⟨key', node', Or.inr hmem, hres⟩
    · rintro ⟨key', node', ⟨rfl, rfl⟩ | hmem, below, hbel, rfl⟩
      · exact Or.inl ⟨below, hbel, rfl⟩
      · exact Or.inr ⟨key', node', hmem, below, hbel, rfl⟩

/-- The keys of every object satisfy `ok` and stand in the order of their folds. -/
inductive JsonNode.Keyed (ok : Text → Prop) : JsonNode → Prop
  | string (value : Text) : Keyed ok (.String value)
  | object {object : JsonObject} : FoldMap.Ordered to_ascii_lowercase object →
      (∀ entry ∈ object, ok entry.1) → (∀ entry ∈ object, Keyed ok entry.2) →
      Keyed ok (.Object object)

abbrev JsonNode.Good (node : JsonNode) : Prop := node.Keyed fun key => segment_ok key = true

variable {ok : Text → Prop} {node : JsonNode}

theorem keyed_object : (JsonNode.Object object).Keyed ok ↔
    FoldMap.Ordered to_ascii_lowercase object ∧
      ∀ entry ∈ object, ok entry.1 ∧ entry.2.Keyed ok := by
  constructor
  · rintro (_ | ⟨hord, hkey, hnod⟩)
    exact ⟨hord, fun entry he => ⟨hkey entry he, hnod entry he⟩⟩
  · exact fun h => .object h.1 (fun entry he => (h.2 entry he).1) fun entry he => (h.2 entry he).2

theorem keyed_nil : (JsonNode.Object []).Keyed ok :=
  keyed_object.mpr ⟨List.Pairwise.nil, by simp⟩

theorem JsonNode.Keyed.put (h : (JsonNode.Object object).Keyed ok) (hseg : ok segment)
    (hnod : node.Keyed ok) :
    (JsonNode.Object (FoldMap.put to_ascii_lowercase segment node object)).Keyed ok := by
  obtain ⟨hord, hent⟩ := keyed_object.mp h
  refine keyed_object.mpr ⟨FoldMap.ordered_put hord, fun entry hmem => ?_⟩
  rcases FoldMap.mem_put hmem with hold | ⟨hval, hkey⟩
  · exact hent entry hold
  · refine ⟨?_, hval ▸ hnod⟩
    rcases hkey with hkey | ⟨old, hold⟩
    · exact hkey ▸ hseg
    · exact (hent _ hold).1

theorem JsonNode.Keyed.find (h : (JsonNode.Object object).Keyed ok)
    (hfin : FoldMap.find to_ascii_lowercase segment object = some node) : node.Keyed ok := by
  obtain ⟨key, hmem, -⟩ := FoldMap.find_mem hfin
  exact ((keyed_object.mp h).2 (key, node) hmem).2

theorem object_leaves_put_absent (hfin : FoldMap.find to_ascii_lowercase segment object = none)
    (node : JsonNode) :
    (object_leaves (FoldMap.put to_ascii_lowercase segment node object)).Perm
      (node.leaves.map (fun leaf => (to_ascii_lowercase segment :: leaf.1, leaf.2)) ++
        object_leaves object) := by
  obtain ⟨before, after, rfl, hput, _⟩ := FoldMap.put_of_absent (v := node) hfin
  rw [hput, object_leaves_append, object_leaves_append, object_leaves]
  exact perm_append_comm_assoc ..

theorem object_leaves_put_present (hord : FoldMap.Ordered to_ascii_lowercase object)
    {old node : JsonNode} (hfin : FoldMap.find to_ascii_lowercase segment object = some old)
    (hlea : node.leaves.Perm (leaf :: old.leaves)) :
    (object_leaves (FoldMap.put to_ascii_lowercase segment node object)).Perm
      ((to_ascii_lowercase segment :: leaf.1, leaf.2) :: object_leaves object) := by
  obtain ⟨before, key, after, rfl, hkey, hput⟩ := FoldMap.put_of_present (v := node) hord hfin
  rw [hput, object_leaves_append, object_leaves_append, object_leaves, object_leaves, hkey]
  refine ((((hlea.map _).append_right _).append_left _).trans ?_)
  rw [map_cons, cons_append]
  exact perm_middle

theorem insert_json_value_spec {object' : JsonObject} {value : Text}
    (hgoo : (JsonNode.Object object).Good) (hok : ∀ segment ∈ segments, segment_ok segment = true)
    (h : insert_json_value object segments value = .ok object') :
    (JsonNode.Object object').Good ∧ (object_leaves object').Perm
      ((segments.map to_ascii_lowercase, value) :: object_leaves object) := by
  -- On the segments: all but the last lead through objects, made where there are none.
  induction segments generalizing object object' with
  | nil => exact absurd h (by simp [insert_json_value])
  | cons segment remaining ih =>
    have hseg := hok segment mem_cons_self
    cases remaining with
    | nil =>
      rw [insert_json_value] at h
      split_ifs at h with hsom
      obtain rfl := Except.ok.inj h
      have hnone : FoldMap.find to_ascii_lowercase segment object = none := by simpa using hsom
      refine ⟨hgoo.put hseg (.string value), ?_⟩
      simpa [JsonNode.leaves] using object_leaves_put_absent hnone (.String value)
    | cons next remaining =>
      have hbel : ∀ s ∈ next :: remaining, segment_ok s = true :=
        fun s hs => hok s (mem_cons_of_mem _ hs)
      rw [insert_json_value.eq_3 _ _ _ _ (cons_ne_nil _ _)] at h
      cases hfin : FoldMap.find to_ascii_lowercase segment object with
      | none =>
        rw [hfin] at h
        obtain ⟨child, hchi, h⟩ := bind_eq_ok.mp h
        obtain rfl := Except.ok.inj h
        obtain ⟨hgoo', hper⟩ := ih keyed_nil hbel hchi
        exact ⟨hgoo.put hseg hgoo',
          (object_leaves_put_absent hfin _).trans ((hper.map _).append_right _)⟩
      | some node =>
        rw [hfin] at h
        cases node with
        | String old => simp at h
        | Object child =>
          obtain ⟨child', hchi, h⟩ := bind_eq_ok.mp h
          obtain rfl := Except.ok.inj h
          obtain ⟨hgoo', hper⟩ := ih (hgoo.find hfin) hbel hchi
          have hlea : (JsonNode.Object child').leaves.Perm
              (((next :: remaining).map to_ascii_lowercase, value) ::
                (JsonNode.Object child).leaves) := by
            simpa only [JsonNode.leaves] using hper
          exact ⟨hgoo.put hseg hgoo',
            object_leaves_put_present (keyed_object.mp hgoo).1 hfin hlea⟩

theorem json_segments_ok {path : ConfigPath} (hop : operation_path path.path = true)
    (hbel : root.segs <+: path.segs) (hne : path.fold ≠ root.fold) :
    ∃ ss, json_segments root path = .ok ss ∧ ss ≠ [] ∧ (∀ s ∈ ss, segment_ok s = true) ∧
      path.segs = root.segs ++ ss.map to_ascii_lowercase := by
  obtain ⟨ds, hds, hok, hpat⟩ := (operation_path_iff _).mp hop
  have hseg := ConfigPath.segs_of_render hds hok hpat
  by_cases hroo : root.path = root_text
  · rw [json_segments, if_pos (show root.as_str = root_text from hroo), ConfigPath.as_str, hpat]
    refine ⟨ds, ?_, hds, hok, by rw [root.segs_eq_nil.mpr hroo, hseg, nil_append]⟩
    have hnon : ∀ d ∈ ds, d ≠ [] := fun d hd hnil => absurd (hnil ▸ hok d hd) (by decide)
    rw [dropWhile_render (free_of_segments_ok hok) hnon, splitOn_render
      (free_of_segments_ok hok) hds]
  · obtain ⟨rs, hrs, hrok, hrpa⟩ := (operation_path_iff _).mp (root.canonical.resolve_left hroo)
    rw [ConfigPath.segs_of_render hrs hrok hrpa, hseg] at hbel
    -- The root's segments, in the case of the path.
    have hlen : rs.length ≤ ds.length := by simpa using hbel.length_le
    have htak : (ds.take rs.length).map to_ascii_lowercase = rs.map to_ascii_lowercase := by
      have := prefix_iff_eq_take.mp hbel
      rw [this, length_map, map_take]
    have hspl : render '/' ds = render '/' (ds.take rs.length) ++ render '/' (ds.drop rs.length) := by
      rw [← render_append, take_append_drop]
    have hlow : to_ascii_lowercase (render '/' (ds.take rs.length)) =
        to_ascii_lowercase root.path := by
      rw [hrpa, lower_render, lower_render, htak]
    have hlength : (render '/' (ds.take rs.length)).length = root.path.length := by
      have := congrArg length hlow
      simpa [to_ascii_lowercase] using this
    have hdro : ds.drop rs.length ≠ [] := by
      intro hnil
      refine hne ?_
      rw [ConfigPath.fold, ConfigPath.fold, hpat, hspl, hnil, render_nil, append_nil, hlow]
    obtain ⟨d, rest, hcon⟩ := exists_cons_of_ne_nil hdro
    refine ⟨ds.drop rs.length, ?_, hdro, fun s hs => hok s (mem_of_mem_drop hs), ?_⟩
    · have hres : path.path = render '/' (ds.take rs.length) ++ render '/' (ds.drop rs.length) :=
        hpat.trans hspl
      have hcond : root.as_str.length < path.as_str.length ∧
          to_ascii_lowercase (path.as_str.take root.as_str.length) =
            to_ascii_lowercase root.as_str ∧ path.as_str[root.as_str.length]? = some '/' := by
        simp only [ConfigPath.as_str, hres, ← hlength, hcon]
        refine ⟨by simp, ?_, by simp⟩
        rw [take_left, hlow]
      rw [json_segments, if_neg (show root.as_str ≠ root_text from hroo)]
      simp only [if_pos hcond]
      have hbod : path.as_str.drop (root.as_str.length + 1) =
          (render '/' (ds.drop rs.length)).tail := by
        rw [ConfigPath.as_str, ConfigPath.as_str, hres, ← hlength, ← drop_drop, drop_left,
          drop_one]
      rw [hbod, splitOn_render (free_of_segments_ok fun s hs => hok s (mem_of_mem_drop hs))
        hdro]
    · rw [ConfigPath.segs_of_render hrs hrok hrpa, hseg, ← htak, ← map_append,
        take_append_drop]

theorem JsonNode.Keyed.deserialize_serialize (h : node.Keyed ok) :
    node.serialize.deserialize = some node := by
  induction h with
  | string value => rfl
  | @object object hord _ _ ih =>
    -- Members come in the order of their folds, so each goes to the end of the object.
    have hloo : ∀ before after, object = before ++ after →
        visit_map before (serialize_members after) = some object := by
      intro before after hobj
      induction after generalizing before with
      | nil => rw [hobj, append_nil]; rfl
      | cons entry after ih' =>
        obtain ⟨key, node⟩ := entry
        have hnod := ih (key, node) (by simp [hobj])
        have habo : ∀ e ∈ before, to_ascii_lowercase e.1 < to_ascii_lowercase key := by
          intro e he
          rw [hobj] at hord
          exact (pairwise_append.mp hord).2.2 e he (key, node) mem_cons_self
        obtain ⟨hnone, hput⟩ := FoldMap.put_last (v := node) habo
        simp only [serialize_members, visit_map, hnod, Option.bind_eq_bind, Option.bind_some, hnone,
          Option.isSome_none, Bool.false_eq_true, if_false, hput]
        exact ih' (before ++ [(key, node)]) (by simp [hobj])
    simp only [serialize, Json.deserialize, hloo [] object rfl, Option.bind_eq_bind,
      Option.bind_some]
    rfl

theorem join_name_ok (path : ConfigPath) {name : Text} (h : segment_ok name = true) :
    ∃ joined, path.join_name name = .ok joined ∧
      joined.segs = path.segs ++ [to_ascii_lowercase name] := by
  refine ⟨_, dif_pos h, ?_⟩
  by_cases hroo : path.path = root_text
  · rw [path.segs_eq_nil.mpr hroo]
    have hname : ∀ s ∈ [name], segment_ok s = true := by simpa using h
    exact ConfigPath.segs_of_render (cons_ne_nil _ _) hname ((if_pos hroo).trans (by simp))
  · obtain ⟨ss, hne, hok, hpat⟩ := (operation_path_iff _).mp (path.canonical.resolve_left hroo)
    have hnam : ∀ s ∈ ss ++ [name], segment_ok s = true := by
      intro s hs
      rcases mem_append.mp hs with hs | hs
      · exact hok s hs
      · exact mem_singleton.mp hs ▸ h
    rw [ConfigPath.segs_of_render hne hok hpat, ← map_singleton, ← map_append]
    refine ConfigPath.segs_of_render (by simp) hnam ((if_neg hroo).trans ?_)
    rw [hpat]
    simp

def leaf_entry (root : ConfigPath) (leaf : List Text × Text) : List Text × SubTreeMutationContent :=
  (root.segs ++ leaf.1, mutation_content leaf.2)

def SubTreeMutationValue.at_segs (value : SubTreeMutationValue) :
    List Text × SubTreeMutationContent := (value.path.segs, value.value)

theorem flatten_json_object_ok {path : ConfigPath}
    (hkey : ∀ entry ∈ object, segment_ok entry.1 = true)
    (hnod : ∀ entry ∈ object, ∀ below, ∃ values, flatten_json_node below entry.2 = .ok values ∧
      values.map SubTreeMutationValue.at_segs = entry.2.leaves.map (leaf_entry below)) :
    ∃ values, flatten_json_object path object = .ok values ∧
      values.map SubTreeMutationValue.at_segs = (object_leaves object).map (leaf_entry path) := by
  induction object with
  | nil => exact ⟨[], by rw [flatten_json_object], by simp [object_leaves]⟩
  | cons entry object ih =>
    obtain ⟨key, node⟩ := entry
    obtain ⟨below, hjoi, hseg⟩ := join_name_ok path (hkey (key, node) mem_cons_self)
    obtain ⟨values, hval, hmap⟩ := hnod (key, node) mem_cons_self below
    obtain ⟨rest, hres, hmap'⟩ := ih (fun e he => hkey e (mem_cons_of_mem _ he))
      fun e he => hnod e (mem_cons_of_mem _ he)
    refine ⟨values ++ rest, ?_, ?_⟩
    · simp only [flatten_json_object, hjoi, Except.mapError, hval, hres, bind, Except.bind]
      rfl
    · rw [map_append, hmap, hmap', object_leaves, map_append, map_map]
      refine congrArg (· ++ _) (map_congr_left fun leaf _ => ?_)
      simp [leaf_entry, hseg]

theorem flatten_json_node_ok (h : node.Good)
    (hnul : ∀ leaf ∈ node.leaves, contains_char leaf.2 '\x00' = false) (path : ConfigPath) :
    ∃ values, flatten_json_node path node = .ok values ∧
      values.map SubTreeMutationValue.at_segs = node.leaves.map (leaf_entry path) := by
  induction h generalizing path with
  | string value =>
    have hval : contains_char value '\x00' = false := hnul ([], value) (by simp [JsonNode.leaves])
    refine ⟨_, by rw [flatten_json_node, hval]; rfl, ?_⟩
    simp [JsonNode.leaves, leaf_entry, SubTreeMutationValue.at_segs]
  | @object object _ hkey _ ih =>
    rw [flatten_json_node, JsonNode.leaves]
    refine flatten_json_object_ok hkey fun entry hent below => ih entry hent ?_ below
    intro leaf hlea
    exact hnul (to_ascii_lowercase entry.1 :: leaf.1, leaf.2)
      (mem_object_leaves.mpr ⟨entry.1, entry.2, hent, leaf, hlea, rfl⟩)

theorem parse_serialized (serde_json : SerdeJson)
    (h : node.serialize.deserialize = some node)
    (hroo : root.path = root_text → ∃ object, node = .Object object) :
    parse_subtree_json serde_json root (serde_json.to_string_pretty node.serialize ++ ['\n']) =
      flatten_json_node root node := by
  rw [parse_subtree_json, serde_json.parses_back, Option.bind_some, h]
  by_cases hr : root.path = root_text
  · obtain ⟨object, rfl⟩ := hroo hr
    simp only [if_pos (show root.as_str = root_text from hr), flatten_json_node]
  · simp only [if_neg (show root.as_str ≠ root_text from hr)]

/-! ## What the crate prints -/

def hex_digit (n : ℕ) : Char := if n < 10 then Char.ofNat (48 + n) else Char.ofNat (87 + n)

/-- How `serde_json` writes a character of a string. -/
def Json.escape (c : Char) : Text :=
  if c = '"' ∨ c = '\\' then ['\\', c]
  else if c = '\x08' then ['\\', 'b']
  else if c = '\t' then ['\\', 't']
  else if c = '\n' then ['\\', 'n']
  else if c = '\x0c' then ['\\', 'f']
  else if c = '\r' then ['\\', 'r']
  else if c.toNat < 32 then
    ['\\', 'u', '0', '0', hex_digit (c.toNat / 16), hex_digit (c.toNat % 16)]
  else [c]

def Json.unescape : Text → Option (Char × Text)
  | '\\' :: 'b' :: rest => some ('\x08', rest)
  | '\\' :: 't' :: rest => some ('\t', rest)
  | '\\' :: 'n' :: rest => some ('\n', rest)
  | '\\' :: 'f' :: rest => some ('\x0c', rest)
  | '\\' :: 'r' :: rest => some ('\r', rest)
  | '\\' :: 'u' :: _ :: _ :: high :: low :: rest =>
    some (((range 32).map Char.ofNat).find? (fun c =>
      hex_digit (c.toNat / 16) = high ∧ hex_digit (c.toNat % 16) = low) |>.getD ' ', rest)
  | '\\' :: c :: rest => some (c, rest)
  | '"' :: _ => none
  | c :: rest => some (c, rest)
  | [] => none

theorem Json.unescape_escape (c : Char) (rest : Text) :
    Json.unescape (Json.escape c ++ rest) = some (c, rest) := by
  unfold Json.escape
  split_ifs with hquo hb ht hn hf hr hcon
  · rcases hquo with rfl | rfl <;> rfl
  · rw [hb]; rfl
  · rw [ht]; rfl
  · rw [hn]; rfl
  · rw [hf]; rfl
  · rw [hr]; rfl
  · obtain ⟨n, hlt, rfl⟩ : ∃ n < 32, c = Char.ofNat n := ⟨c.toNat, hcon, (Char.ofNat_toNat c).symm⟩
    interval_cases n <;> rfl
  · rw [not_or] at hquo
    simp only [cons_append, nil_append]
    unfold Json.unescape
    split <;> simp_all

/-- The rest of a string after its opening quote. -/
def print_text (text : Text) : Text := text.flatMap Json.escape ++ ['"']

def indent (depth : ℕ) : Text := replicate (2 * depth) ' '

mutual

/-- `serde_json::to_string_pretty`, inside `depth` objects. -/
def Json.print (depth : ℕ) : Json → Text
  | .string value => '"' :: print_text value
  | .object members => '\x7b' :: print_members depth true members
  | .other => "null".toList

def print_members (depth : ℕ) (first : Bool) : List (Text × Json) → Text
  | [] => (if first then [] else '\n' :: indent depth) ++ ['\x7d']
  | (key, value) :: members =>
    (if first then [] else [',']) ++ ('\n' :: indent (depth + 1) ++ ('"' :: print_text key ++
      (": ".toList ++ (Json.print (depth + 1) value ++ print_members depth false members))))

end

theorem print_text_inj {text other x y : Text}
    (h : print_text text ++ x = print_text other ++ y) : text = other ∧ x = y := by
  simp only [print_text, append_assoc, singleton_append] at h
  induction text generalizing other with
  | nil =>
    cases other with
    | nil => exact ⟨rfl, (cons.inj h).2⟩
    | cons d other =>
      rw [flatMap_cons, append_assoc] at h
      exact absurd (congrArg Json.unescape h) (by rw [Json.unescape_escape]; exact nofun)
  | cons c text ih =>
    rw [flatMap_cons, append_assoc] at h
    have hred := congrArg Json.unescape h
    rw [Json.unescape_escape] at hred
    cases other with
    | nil => exact nomatch hred
    | cons d other =>
      rw [flatMap_cons, append_assoc, Json.unescape_escape, Option.some.injEq,
        Prod.mk.injEq] at hred
      obtain ⟨rfl, hxy⟩ := ih hred.2
      exact ⟨by rw [hred.1], hxy⟩

mutual

theorem Json.print_inj (depth : ℕ) : ∀ (value value' : Json) (x y : Text),
    Json.print depth value ++ x = Json.print depth value' ++ y → value = value' ∧ x = y
  | .string text, .string text', x, y, h => by
    simp only [Json.print, cons_append, cons.injEq, true_and] at h
    obtain ⟨rfl, hxy⟩ := print_text_inj h
    exact ⟨rfl, hxy⟩
  | .object members, .object others, x, y, h => by
    simp only [Json.print, cons_append, cons.injEq, true_and] at h
    obtain ⟨rfl, hxy⟩ := print_members_inj depth true members others x y h
    exact ⟨rfl, hxy⟩
  | .other, .other, x, y, h => ⟨rfl, by simpa [Json.print] using h⟩
  | .string _, .object _, _, _, h | .string _, .other, _, _, h | .object _, .string _, _, _, h
  | .object _, .other, _, _, h | .other, .string _, _, _, h | .other, .object _, _, _, h => by
    simp [Json.print] at h

theorem print_members_inj (depth : ℕ) (first : Bool) : ∀ (members others : List (Text × Json))
    (x y : Text), print_members depth first members ++ x = print_members depth first others ++ y →
      members = others ∧ x = y
  | [], [], x, y, h => ⟨rfl, append_cancel_left h⟩
  | [], _ :: _, _, _, h | _ :: _, [], _, _, h => by cases first <;> simp [print_members] at h
  | (key, value) :: members, (key', value') :: others, x, y, h => by
    simp only [print_members, append_assoc, cons_append, append_cancel_left_eq,
      cons.injEq, true_and] at h
    obtain ⟨rfl, hval⟩ := print_text_inj h
    obtain ⟨rfl, hmem⟩ := Json.print_inj (depth + 1) value value' _ _ (append_cancel_left hval)
    obtain ⟨rfl, hxy⟩ := print_members_inj depth false members others x y hmem
    exact ⟨rfl, hxy⟩

end

/-- The crate's printer, with a reader for what it prints. -/
noncomputable def plain_serde : SerdeJson where
  to_string_pretty := Json.print 0
  from_str := Function.partialInv fun value => Json.print 0 value ++ ['\n']
  parses_back := Function.partialInv_left fun value value' h =>
    (Json.print_inj 0 value value' _ _ h).1

end SovereignConfig.Values
