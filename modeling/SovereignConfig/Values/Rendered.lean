/-
What `render_subtree_json` accepts and what it prints, and that `parse_subtree_json` reads it back.

The loop that builds the document folds a list of values into nested objects. Up to the case of
the keys this is the assembling of a trie, so what it accepts is what a trie accepts: paths at or
below the root, none of them another or above it. What it has built then has the values, and
nothing else, for its leaves.
-/
import SovereignConfig.Lib.Trie
import SovereignConfig.Values.Json

set_option autoImplicit false

namespace SovereignConfig.Values

open Lib Text List

/-! ## What is printed -/

def leaf_at (root : ConfigPath) (leaf : List Text × Text) : List Text × Text :=
  (root.segs ++ leaf.1, leaf.2)

def SubTreeValue.shown (value : SubTreeValue) : List Text × Text :=
  (value.path.segs, value.value.display_text)

def SubTreeValue.Apart (value other : SubTreeValue) : Prop :=
  Unrelated value.path.segs other.path.segs

variable {root path : ConfigPath} {object object' : JsonObject} {exact exact' : Option Text}
  {value : SubTreeValue} {values : List SubTreeValue}

def rendered_leaves (root : ConfigPath) (object : JsonObject) (exact : Option Text) :
    List (List Text × Text) :=
  (object_leaves object).map (leaf_at root) ++ exact.toList.map fun text => (root.segs, text)

theorem render_value_spec (hgoo : (JsonNode.Object object).Good)
    (h : render_value root (object, exact) value = .ok (object', exact')) :
    (JsonNode.Object object').Good ∧ (rendered_leaves root object' exact').Perm
      (value.shown :: rendered_leaves root object exact) := by
  unfold render_value at h
  split_ifs at h with hgua hfol hsom
  · -- The value at the root itself.
    obtain ⟨rfl, rfl⟩ := Prod.mk.inj (Except.ok.inj h)
    obtain rfl : exact = none := by simpa using hsom
    have hsho : value.shown = (root.segs, value.value.display_text) := by
      rw [SubTreeValue.shown, ConfigPath.segs_inj.mpr hfol]
    refine ⟨hgoo, ?_⟩
    rw [hsho, rendered_leaves, rendered_leaves, Option.toList_none, map_nil,
      append_nil]
    exact perm_append_singleton _ _
  · rw [not_or, Bool.not_eq_false] at hgua
    have hop := value.path.canonical.resolve_left hgua.1
    have hbel := (is_at_or_below_iff _ _).mp hgua.2
    obtain ⟨ss, hss, -, hsso, hsegs⟩ := json_segments_ok hop hbel hfol
    obtain ⟨segments, hseg, h⟩ := bind_eq_ok.mp h
    obtain rfl := Except.ok.inj (hss.symm.trans hseg)
    obtain ⟨next, hins, h⟩ := bind_eq_ok.mp h
    obtain ⟨rfl, rfl⟩ := Prod.mk.inj (Except.ok.inj h)
    obtain ⟨hgoo', hper⟩ := insert_json_value_spec hgoo hsso hins
    refine ⟨hgoo', ((hper.map (leaf_at root)).append_right _).trans (List.Perm.of_eq ?_)⟩
    rw [map_cons, leaf_at, ← hsegs]
    rfl

theorem render_values_spec (hgoo : (JsonNode.Object object).Good)
    (h : values.foldlM (render_value root) (object, exact) = .ok (object', exact')) :
    (JsonNode.Object object').Good ∧ (rendered_leaves root object' exact').Perm
      (values.map SubTreeValue.shown ++ rendered_leaves root object exact) := by
  induction values generalizing object exact with
  | nil =>
    obtain ⟨rfl, rfl⟩ := Prod.mk.inj (Except.ok.inj h)
    exact ⟨hgoo, .refl _⟩
  | cons value values ih =>
    rw [foldlM_cons] at h
    obtain ⟨⟨next, exact₁⟩, hone, hres⟩ := bind_eq_ok.mp h
    obtain ⟨hgoo₁, hper₁⟩ := render_value_spec hgoo hone
    obtain ⟨hgoo', hper⟩ := ih hgoo₁ hres
    refine ⟨hgoo', hper.trans ((hper₁.append_left _).trans ?_)⟩
    rw [map_cons, cons_append]
    exact perm_middle

/-- What is printed is a well formed tree whose leaves are the values. -/
theorem render_subtree_json_spec {serde_json : SerdeJson} {json : Text}
    (h : render_subtree_json serde_json root values = .ok json) :
    ∃ node : JsonNode, json = serde_json.to_string_pretty node.serialize ++ ['\n'] ∧
      node.Good ∧ (node.leaves.map (leaf_at root)).Perm (values.map SubTreeValue.shown) := by
  obtain ⟨⟨object, exact⟩, hloo, h⟩ := bind_eq_ok.mp h
  obtain ⟨hgoo, hper⟩ := render_values_spec keyed_nil hloo
  have hnone : rendered_leaves root [] none = [] := rfl
  rw [hnone, append_nil] at hper
  cases exact with
  | none =>
    refine ⟨.Object object, (Except.ok.inj h).symm, hgoo, ?_⟩
    rwa [rendered_leaves, Option.toList_none, map_nil, append_nil] at hper
  | some text =>
    simp only at h
    split_ifs at h with hemp
    · obtain rfl := isEmpty_iff.mp hemp
      refine ⟨.String text, (Except.ok.inj h).symm, JsonNode.Keyed.string text, ?_⟩
      have hroo : ((JsonNode.String text).leaves).map (leaf_at root) =
          rendered_leaves root [] (some text) := by
        simp [JsonNode.leaves, rendered_leaves, object_leaves, leaf_at]
      rwa [hroo]
    · cases h

/-! ## What is accepted

Keys are compared by their folds, so the objects are tries over folded segments. -/

def below (root path : ConfigPath) : List Text := path.segs.drop root.segs.length

theorem segs_below (h : root.segs <+: path.segs) : path.segs = root.segs ++ below root path := by
  obtain ⟨rest, hres⟩ := h
  rw [below, ← hres, drop_left]

theorem below_eq_nil (h : root.segs <+: path.segs) :
    below root path = [] ↔ path.fold = root.fold := by
  rw [← ConfigPath.segs_inj]
  constructor
  · intro hnil
    rw [segs_below h, hnil, append_nil]
  · intro heq
    rw [below, heq, drop_length]

def placed (root : ConfigPath) (text : SubTreeValue → Text) (value : SubTreeValue) :
    List Text × Text := (below root value.path, text value)

def Inside (root : ConfigPath) (value : SubTreeValue) : Prop :=
  value.path.as_str ≠ root_text ∧ value.path.is_at_or_below root = true

mutual

def folded : JsonNode → Trie Text Text
  | .String value => .Leaf value
  | .Object object => .Node (folded_members object)

def folded_members : JsonObject → List (Text × Trie Text Text)
  | [] => []
  | (key, node) :: object => (to_ascii_lowercase key, folded node) :: folded_members object

end

theorem folded_members_eq (object : JsonObject) :
    folded_members object = object.map (Prod.map to_ascii_lowercase folded) := by
  induction object with
  | nil => rfl
  | cons entry object ih => rw [folded_members, ih, map_cons]; rfl

theorem find_folded (object : JsonObject) (segment : Text) :
    FoldMap.find id (to_ascii_lowercase segment) (folded_members object) =
      (FoldMap.find to_ascii_lowercase segment object).map folded := by
  rw [folded_members_eq]
  exact FoldMap.find_map (g := to_ascii_lowercase) fun _ => rfl

theorem put_folded (object : JsonObject) (segment : Text) (node : JsonNode) :
    FoldMap.put id (to_ascii_lowercase segment) (folded node) (folded_members object) =
      folded_members (FoldMap.put to_ascii_lowercase segment node object) := by
  rw [folded_members_eq, folded_members_eq]
  exact FoldMap.put_map (g := to_ascii_lowercase) fun _ => rfl

theorem insert_json_folded (object : JsonObject) (segments : List Text) (value : Text) :
    (insert_json_value object segments value).toOption.map folded_members =
      Trie.insert (folded_members object) (segments.map to_ascii_lowercase) value := by
  induction segments generalizing object with
  | nil => rfl
  | cons segment remaining ih =>
    cases remaining with
    | nil =>
      simp only [insert_json_value, Trie.insert, map_cons, map_nil, find_folded,
        Option.isSome_map]
      split
      · rfl
      · rw [show (Trie.Leaf value : Trie Text Text) = folded (.String value) from rfl, put_folded]
        rfl
    | cons next remaining =>
      simp only [insert_json_value, Trie.insert, map_cons, find_folded]
      have hchi : ∀ child : JsonObject,
          ((insert_json_value child (next :: remaining) value).bind fun child =>
            .ok (FoldMap.put to_ascii_lowercase segment (.Object child) object)).toOption.map
              folded_members =
          (Trie.insert (folded_members child)
              (to_ascii_lowercase next :: remaining.map to_ascii_lowercase) value).map fun child =>
            FoldMap.put id (to_ascii_lowercase segment) (.Node child) (folded_members object) := by
        intro child
        rw [← map_cons, ← ih child]
        cases insert_json_value child (next :: remaining) value with
        | error e => rfl
        | ok child' => exact congrArg some (put_folded object segment (.Object child')).symm
      cases hfin : FoldMap.find to_ascii_lowercase segment object with
      | none => exact hchi []
      | some node =>
        cases node with
        | String old => rfl
        | Object child => exact hchi child

theorem render_value_simulates (hins : Inside root value) (state : JsonObject × Option Text) :
    (render_value root state value).toOption.map (fun s => (folded_members s.1, s.2)) =
      Trie.place (folded_members state.1, state.2)
        (placed root (fun value => value.value.display_text) value) := by
  have hpre := (is_at_or_below_iff _ _).mp hins.2
  have hgua : ¬ (value.path.as_str = root_text ∨ value.path.is_at_or_below root = false) := by
    simp [hins.1, hins.2]
  have hnil := below_eq_nil hpre
  simp only [render_value, if_neg hgua, Trie.place, placed, hnil]
  split
  · split <;> rfl
  · rename_i hne
    have hop : operation_path value.path.path = true := value.path.canonical.resolve_left hins.1
    obtain ⟨ss, hss, -, -, hseg⟩ := json_segments_ok hop hpre hne
    have hbel : below root value.path = ss.map to_ascii_lowercase := by
      rw [below, hseg, drop_left]
    rw [hss, hbel, ← insert_json_folded]
    show ((insert_json_value state.1 ss value.value.display_text).bind fun object =>
      .ok (object, state.2)).toOption.map _ = _
    cases insert_json_value state.1 ss value.value.display_text <;> rfl

/-- Every path is at or below the root and not `/`, and no path is another or above it. -/
structure Representable (root : ConfigPath) (values : List SubTreeValue) : Prop where
  inside : ∀ value ∈ values, Inside root value
  apart : values.Pairwise fun value other =>
    value.path.is_at_or_below other.path = false ∧ other.path.is_at_or_below value.path = false

theorem unrelated_below {other : SubTreeValue} (h : Inside root value) (h' : Inside root other) :
    Unrelated (below root value.path) (below root other.path) ↔
      value.path.is_at_or_below other.path = false ∧
        other.path.is_at_or_below value.path = false := by
  have hseg := segs_below ((is_at_or_below_iff _ _).mp h.2)
  have hseg' := segs_below ((is_at_or_below_iff _ _).mp h'.2)
  rw [Unrelated, ← Bool.not_eq_true, ← Bool.not_eq_true, is_at_or_below_iff, is_at_or_below_iff,
    hseg, hseg', prefix_append_right_inj, prefix_append_right_inj]
  exact and_comm

theorem representable_iff {β : Type} (text : SubTreeValue → β)
    (hins : ∀ value ∈ values, Inside root value) :
    (Trie.assemble (values.map fun value => (below root value.path, text value))).isSome = true ↔
      Representable root values := by
  rw [Trie.assemble_isSome_iff, pairwise_map]
  constructor
  · exact fun h => ⟨hins, h.imp_of_mem fun hv ho hpai =>
      (unrelated_below (hins _ hv) (hins _ ho)).mp hpai⟩
  · exact fun h => h.apart.imp_of_mem fun hv ho hpai =>
      (unrelated_below (hins _ hv) (hins _ ho)).mpr hpai

theorem render_toOption (serde_json : SerdeJson) (hins : ∀ value ∈ values, Inside root value) :
    ∃ node : Option JsonNode,
      (render_subtree_json serde_json root values).toOption =
        node.map (fun node => serde_json.to_string_pretty node.serialize ++ ['\n']) ∧
      node.map folded = Trie.assemble
        (values.map (placed root fun value => value.value.display_text)) := by
  have hloo := foldlM_simulates (f := render_value root) (l := values)
    (g := fun s : JsonObject × Option Text => (folded_members s.1, s.2))
    (fun state value hval => render_value_simulates (hins value hval) state) ([], none)
  rw [Trie.assemble, show (([] : List (Text × Trie Text Text)), (none : Option Text)) =
    (folded_members [], none) from rfl, ← hloo]
  unfold render_subtree_json
  cases values.foldlM (render_value root) ([], none) with
  | error e => exact ⟨none, rfl, rfl⟩
  | ok state =>
    obtain ⟨object, exact⟩ := state
    cases exact with
    | none => exact ⟨some (.Object object), rfl, rfl⟩
    | some value =>
      cases object with
      | nil => exact ⟨some (.String value), rfl, rfl⟩
      | cons entry object => exact ⟨none, rfl, rfl⟩

theorem inside_of_render {serde_json : SerdeJson} {json : Text}
    (h : render_subtree_json serde_json root values = .ok json) :
    ∀ value ∈ values, Inside root value := by
  obtain ⟨state, hloo, -⟩ := bind_eq_ok.mp h
  refine foldlM_forall (fun s value s' hrou => ?_) hloo
  unfold render_value at hrou
  obtain ⟨hgua, -⟩ := unless_eq_ok.mp hrou
  simpa [Inside, not_or] using hgua

theorem toOption_isSome {ε α : Type} {x : Except ε α} :
    x.toOption.isSome = true ↔ ∃ a, x = .ok a := by
  cases x with
  | error e => simp [Except.toOption]
  | ok a => simp [Except.toOption]

theorem render_ok_iff (serde_json : SerdeJson) :
    (∃ json, render_subtree_json serde_json root values = .ok json) ↔
      Representable root values := by
  have hiff : ∀ hins : ∀ value ∈ values, Inside root value,
      (∃ json, render_subtree_json serde_json root values = .ok json) ↔
        Representable root values := by
    intro hins
    obtain ⟨node, hren, hnod⟩ := render_toOption serde_json hins
    rw [← toOption_isSome, hren, Option.isSome_map, ← Option.isSome_map (f := folded), hnod]
    exact representable_iff _ hins
  constructor
  · rintro ⟨json, hjso⟩
    exact (hiff (inside_of_render hjso)).mp ⟨json, hjso⟩
  · exact fun hr => (hiff hr.inside).mpr hr

/-! ## There and back -/

def SubTreeValue.read_back (value : SubTreeValue) : List Text × SubTreeMutationContent :=
  (value.path.segs, mutation_content value.value.display_text)

/-- **Rendering and parsing**, for values at or below the root and apart from each other: every
value comes back as an entry at its path, up to case. -/
theorem parse_render_subtree_json (serde_json : SerdeJson)
    (hval : ∀ value ∈ values, operation_path value.path.path = true ∧
      root.segs <+: value.path.segs) (hapa : values.Pairwise SubTreeValue.Apart)
    (hnul : ∀ value ∈ values, contains_char value.value.display_text '\x00' = false) :
    ∃ json entries, render_subtree_json serde_json root values = .ok json ∧
      parse_subtree_json serde_json root json = .ok entries ∧
      (entries.map SubTreeMutationValue.at_segs).Perm (values.map SubTreeValue.read_back) := by
  have hrep : Representable root values := by
    refine ⟨fun value hv => ⟨operation_ne_root (hval value hv).1, ?_⟩, hapa.imp fun hab => ?_⟩
    · exact (is_at_or_below_iff _ _).mpr (hval value hv).2
    · rw [← Bool.not_eq_true, ← Bool.not_eq_true, is_at_or_below_iff, is_at_or_below_iff]
      exact hab.symm
  obtain ⟨json, hren⟩ := (render_ok_iff serde_json).mpr hrep
  obtain ⟨node, rfl, hgoo, hper⟩ := render_subtree_json_spec hren
  have hfro : ∀ leaf ∈ node.leaves, ∃ value ∈ values, value.shown = leaf_at root leaf :=
    fun leaf hlea => mem_map.mp (hper.mem_iff.mp (mem_map_of_mem hlea))
  have hcle : ∀ leaf ∈ node.leaves, contains_char leaf.2 '\x00' = false := by
    intro leaf hlea
    obtain ⟨value, hv, heq⟩ := hfro leaf hlea
    rw [← show value.value.display_text = leaf.2 from congrArg Prod.snd heq]
    exact hnul value hv
  obtain ⟨entries, hfla, hent⟩ := flatten_json_node_ok hgoo hcle root
  refine ⟨_, entries, hren,
    (parse_serialized serde_json hgoo.deserialize_serialize fun hroo => ?_).trans hfla, ?_⟩
  · cases node with
    | Object object => exact ⟨object, rfl⟩
    | String text =>
      -- A string would be a value at the root itself, and `/` is no path of a value.
      obtain ⟨value, hv, heq⟩ := hfro ([], text) (by simp [JsonNode.leaves])
      have hseg : value.path.segs = [] :=
        (congrArg Prod.fst heq).trans (by simp [leaf_at, root.segs_eq_nil.mpr hroo])
      exact absurd (value.path.segs_eq_nil.mp hseg) (operation_ne_root (hval value hv).1)
  · rw [hent]
    have hmap := hper.map fun shown => (shown.1, mutation_content shown.2)
    rw [map_map, map_map] at hmap
    exact hmap

end SovereignConfig.Values
