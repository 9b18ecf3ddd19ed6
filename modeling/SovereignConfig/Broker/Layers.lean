/-
The configuration layers of the secrets broker (`layers.rs`, the request of `model.rs`). No value
is changed on its way into a path, but two placeholders in one segment may share its text in more
than one way.
-/
import SovereignConfig.Confinement
import SovereignConfig.Lib.Decimal
import SovereignConfig.Lib.Template

namespace SovereignConfig.Broker

open Lib Text List

structure Repo where
  owner : Text
  name : Text
  full_name : Text
  forge_id : Option ℤ
deriving DecidableEq

structure Pipeline where
  branch : Text
  event : Text
deriving DecidableEq

structure SecretsRequest where
  repo : Repo
  pipeline : Pipeline
deriving DecidableEq

/-! ## Placeholders -/

inductive Field where
  | RepoOwner
  | RepoName
  | RepoFullName
  | RepoForgeId
  | PipelineBranch
  | PipelineEvent
deriving DecidableEq

def Field.parse (name : Text) : Option Field :=
  if name = "repo.owner".toList then some .RepoOwner
  else if name = "repo.name".toList then some .RepoName
  else if name = "repo.full_name".toList then some .RepoFullName
  else if name = "repo.forge_id".toList then some .RepoForgeId
  else if name = "pipeline.branch".toList then some .PipelineBranch
  else if name = "pipeline.event".toList then some .PipelineEvent
  else none

inductive Substitution where
  | Absent
  | Unrepresentable
  | Value (value : Text)
deriving DecidableEq

def Substitution.of (value : Text) : Substitution :=
  if value.isEmpty then .Absent
  else if value.all fun c => c.isLower || c.isDigit || c == '-' || c == '_' then .Value value
  else .Unrepresentable

/-- `repo.full_name` is the one field that may span two segments, and each side is
validated on its own. -/
def Field.render (self : Field) (request : SecretsRequest) : Substitution :=
  match self with
  | .RepoOwner => .of request.repo.owner
  | .RepoName => .of request.repo.name
  | .RepoFullName =>
    match split_once '/' request.repo.full_name with
    | some (owner, name) =>
      match Substitution.of owner, Substitution.of name with
      | .Value owner, .Value name => .Value (owner ++ '/' :: name)
      | .Absent, _ => .Absent
      | _, .Absent => .Absent
      | _, _ => .Unrepresentable
    | none => .of request.repo.full_name
  | .RepoForgeId =>
    match request.repo.forge_id with
    | none => .Absent
    | some id => .Value (format_int id)
  | .PipelineBranch => .of request.pipeline.branch
  | .PipelineEvent => .of request.pipeline.event

/-! ## Templates -/

inductive Segment where
  | Literal (literal : Text)
  | Field (field : Field)
deriving DecidableEq

inductive LayerError where
  | Empty
  | UnbalancedBrace (layer : Text)
  | UnknownPlaceholder (layer placeholder : Text)
  | NotAbsolute (layer : Text)
  | InvalidLiteral (layer : Text)
deriving DecidableEq

structure LayerTemplates where
  layers : List (List Segment)
  /-- The original spec strings, in declared order. -/
  specs : List Text
deriving DecidableEq

def push_literal (segments : List Segment) (literal : Text) : List Segment :=
  if literal.isEmpty then segments else segments ++ [.Literal literal]

theorem split_once_length {c : Char} {t a b : Text} (h : split_once c t = some (a, b)) :
    b.length < t.length := by
  rw [(split_once_eq_some h).1, length_append, length_cons]
  omega

/-- The scan of `parse_layer`: one placeholder, and the literal before it, a round. -/
def scan (raw rest : Text) (segments : List Segment) : Except LayerError (List Segment) :=
  match _hopen : split_once '{' rest with
  | some (literal, after) =>
    match _hclose : split_once '}' after with
    | none => .error (.UnbalancedBrace raw)
    | some (placeholder, rest) =>
      match Field.parse placeholder with
      | none => .error (.UnknownPlaceholder raw placeholder)
      | some field => scan raw rest (push_literal segments literal ++ [.Field field])
  | none =>
    if rest.contains_char '}' then .error (.UnbalancedBrace raw)
    else .ok (push_literal segments rest)
termination_by rest.length
decreasing_by exact (split_once_length _hclose).trans (split_once_length _hopen)

def FIELD_PROBE : Text := ['x']

def probe (segments : List Segment) : Text :=
  segments.flatMap fun segment =>
    match segment with
    | .Literal literal => literal
    | .Field _ => FIELD_PROBE

def parse_layer (raw : Text) : Except LayerError (List Segment) := do
  if !raw.starts_with ['/'] || (raw.splitOn '/').any (fun part => part == ['.'] || part == ['.', '.'])
  then throw (.NotAbsolute raw)
  let segments ← scan raw raw []
  match ConfigPath.parse_operation (probe segments) with
  | .error _ => throw (.InvalidLiteral raw)
  | .ok _ => return segments

/-- `str::split` at any of the characters. -/
def split_any (at_char : Char → Bool) (spec : Text) : List Text := spec.splitOnP at_char

def LayerTemplates.parse (spec : Text) : Except LayerError LayerTemplates := do
  let raws := ((split_any (fun c => c == ',' || c == '\n' || c == '\r') spec).map trim).filter
    fun raw => !raw.isEmpty
  let layers ← raws.mapM parse_layer
  if layers.isEmpty then throw .Empty
  return ⟨layers, raws⟩

def build (request : SecretsRequest) (built : Text) : List Segment → Option Text
  | [] => some built
  | .Literal literal :: layer => build request (built ++ literal) layer
  | .Field field :: layer =>
    match field.render request with
    | .Value value => build request (built ++ value) layer
    | .Absent => none
    | .Unrepresentable => none

def render_layer (request : SecretsRequest) (layer : List Segment) : Option ConfigPath :=
  match build request [] layer with
  | none => none
  | some built => (ConfigPath.parse_operation built).toOption

def LayerTemplates.render (self : LayerTemplates) (request : SecretsRequest) : List ConfigPath :=
  self.layers.filterMap (render_layer request)

def layer_at (spec : Text) (k : ℕ) : Option (List Segment) :=
  (LayerTemplates.parse spec).toOption.bind fun templates => templates.layers[k]?

def rendered_at (spec : Text) (k : ℕ) (request : SecretsRequest) : Option ConfigPath :=
  (layer_at spec k).bind (render_layer request)

variable {path : ConfigPath} {request : SecretsRequest} {v : Text} {field : Broker.Field}
  {layer : List Segment}

theorem mem_render {spec : Text} {templates : LayerTemplates}
    (hpar : LayerTemplates.parse spec = .ok templates) :
    path ∈ templates.render request ↔ ∃ k, rendered_at spec k request = some path := by
  have hlay : ∀ k, layer_at spec k = templates.layers[k]? := fun k => by
    rw [layer_at, hpar]
    rfl
  simp only [LayerTemplates.render, mem_filterMap, rendered_at, hlay,
    Option.bind_eq_some_iff]
  constructor
  · rintro ⟨layer, hmem, hpat⟩
    obtain ⟨k, hk⟩ := mem_iff_getElem?.mp hmem
    exact ⟨k, layer, hk, hpat⟩
  · rintro ⟨k, layer, hk, hpat⟩
    exact ⟨layer, mem_of_getElem? hk, hpat⟩

/-! ## What a placeholder stands for -/

def Field.value (self : Field) (request : SecretsRequest) : Text :=
  match self with
  | .RepoOwner => request.repo.owner
  | .RepoName => request.repo.name
  | .RepoFullName => request.repo.full_name
  | .RepoForgeId => (request.repo.forge_id.map format_int).getD []
  | .PipelineBranch => request.pipeline.branch
  | .PipelineEvent => request.pipeline.event

def Field.Agree (self : Field) (first second : SecretsRequest) : Prop :=
  match self with
  | .RepoOwner => first.repo.owner = second.repo.owner
  | .RepoName => first.repo.name = second.repo.name
  | .RepoFullName => first.repo.full_name = second.repo.full_name
  | .RepoForgeId => first.repo.forge_id = second.repo.forge_id
  | .PipelineBranch => first.pipeline.branch = second.pipeline.branch
  | .PipelineEvent => first.pipeline.event = second.pipeline.event

theorem of_eq_value {value : Text} (h : Substitution.of value = .Value v) :
    v = value ∧ fold_segment_ok value = true := by
  unfold Substitution.of at h
  split_ifs at h with hemp hcha
  · obtain rfl := Substitution.Value.inj h
    refine ⟨rfl, ?_⟩
    rw [fold_segment_ok, hcha, Bool.and_true, Bool.not_eq_true']
    exact Bool.not_eq_true _ ▸ hemp

theorem render_full_name (h : Field.RepoFullName.render request = .Value v) :
    v = request.repo.full_name ∧ to_ascii_lowercase v = v := by
  simp only [Field.render] at h
  split at h
  · rename_i owner name hspl
    split at h
    · rename_i o n hown hnam
      obtain rfl := Substitution.Value.inj h
      obtain ⟨rfl, hok⟩ := of_eq_value hown
      obtain ⟨rfl, hok'⟩ := of_eq_value hnam
      refine ⟨(split_once_eq_some hspl).1.symm, ?_⟩
      have hlow := lower_fold_segment hok
      have hlow' := lower_fold_segment hok'
      unfold to_ascii_lowercase at hlow hlow' ⊢
      rw [map_append, map_cons, hlow, hlow']
      rfl
    all_goals simp at h
  · obtain ⟨rfl, hok⟩ := of_eq_value h
    exact ⟨rfl, lower_fold_segment hok⟩

theorem lower_format_int (n : ℤ) : to_ascii_lowercase (format_int n) = format_int n := by
  refine (map_congr_left fun c hc => fold_char_lower ?_).trans (map_id _)
  rcases mem_format_int hc with rfl | hdig
  · decide
  · rw [hdig, Bool.or_true, Bool.true_or, Bool.true_or]

theorem render_eq_value (h : field.render request = .Value v) :
    v = field.value request ∧ to_ascii_lowercase v = v := by
  have hseg : ∀ {value : Text}, Substitution.of value = .Value v →
      v = value ∧ to_ascii_lowercase v = v := by
    intro value hof
    obtain ⟨rfl, hok⟩ := of_eq_value hof
    exact ⟨rfl, lower_fold_segment hok⟩
  cases field with
  | RepoOwner => exact hseg h
  | RepoName => exact hseg h
  | RepoFullName => exact render_full_name h
  | RepoForgeId =>
    simp only [Field.render] at h
    split at h
    · simp at h
    · rename_i id hid
      obtain rfl := Substitution.Value.inj h
      refine ⟨?_, lower_format_int id⟩
      rw [Field.value, hid]
      rfl
  | PipelineBranch => exact hseg h
  | PipelineEvent => exact hseg h

theorem slash_not_mem_value (h : field.render request = .Value v) (hfie : field ≠ .RepoFullName) :
    '/' ∉ field.value request := by
  have hseg : ∀ {value : Text}, Substitution.of value = .Value v → '/' ∉ value := by
    intro value hof hsla
    obtain ⟨-, hok⟩ := of_eq_value hof
    simp only [fold_segment_ok, Bool.and_eq_true, all_eq_true] at hok
    exact absurd (hok.2 _ hsla) (by decide)
  cases field with
  | RepoOwner => exact hseg h
  | RepoName => exact hseg h
  | RepoFullName => exact absurd rfl hfie
  | RepoForgeId =>
    rw [← (render_eq_value h).1]
    simp only [Field.render] at h
    split at h
    · simp at h
    · obtain rfl := Substitution.Value.inj h
      intro hsla
      rcases mem_format_int hsla with hdas | hdig
      · exact absurd hdas (by decide)
      · exact absurd hdig (by decide)
  | PipelineBranch => exact hseg h
  | PipelineEvent => exact hseg h

theorem agree_iff {first second : SecretsRequest} {w : Text}
    (hfir : field.render first = .Value v) (hsec : field.render second = .Value w) :
    field.Agree first second ↔ field.value first = field.value second := by
  cases field with
  | RepoForgeId =>
    simp only [Field.render] at hfir hsec
    simp only [Field.Agree, Field.value]
    split at hfir
    · simp at hfir
    · split at hsec
      · simp at hsec
      · rename_i id hid _ id' hid'
        rw [hid, hid', Option.map_some, Option.map_some, Option.getD_some, Option.getD_some]
        refine ⟨fun h => by rw [Option.some.inj h], fun h => ?_⟩
        rw [← parse_format_int id, h, parse_format_int]
  | _ => exact Iff.rfl

def Segment.piece : Segment → Piece Char Broker.Field
  | .Literal literal => .literal (to_ascii_lowercase literal)
  | .Field field => .hole field

def pieces (layer : List Segment) : List (Piece Char Field) := layer.map Segment.piece

def placeholders_apart (layer : List Segment) : Bool := apart '/' (pieces layer)

/-- The holes are the fields, however the literals are written. -/
theorem hole_mem {piece : Segment → Piece Char Field}
    (hlit : ∀ literal field, piece (.Literal literal) ≠ .hole field)
    (hfie : ∀ field, piece (.Field field) = .hole field) :
    .hole field ∈ layer.map piece ↔ .Field field ∈ layer := by
  rw [mem_map]
  constructor
  · rintro ⟨segment, hseg, hpie⟩
    cases segment with
    | Literal literal => exact absurd hpie (hlit literal field)
    | Field field' =>
      obtain rfl := Piece.hole.inj ((hfie field').symm.trans hpie)
      exact hseg
  · exact fun h => ⟨_, h, hfie field⟩

theorem hole_mem_pieces :
    .hole field ∈ pieces layer ↔ .Field field ∈ layer := hole_mem nofun fun _ => rfl

theorem build_eq_some {built text : Text} (h : build request built layer = some text) :
    to_ascii_lowercase text
        = to_ascii_lowercase built ++ fill (·.value request) (pieces layer) ∧
      ∀ field, .Field field ∈ layer → ∃ v, field.render request = .Value v := by
  induction layer generalizing built with
  | nil =>
    obtain rfl := Option.some.inj h
    exact ⟨(append_nil _).symm, fun field hfie => absurd hfie not_mem_nil⟩
  | cons segment layer ih =>
    cases segment with
    | Literal literal =>
      obtain ⟨htex, hval⟩ := ih h
      refine ⟨?_, fun field hfie => hval field (by simpa using hfie)⟩
      rw [htex, to_ascii_lowercase, map_append, append_assoc]
      rfl
    | Field field =>
      rw [build] at h
      split at h
      · rename_i v hv
        obtain ⟨htex, hval⟩ := ih h
        obtain ⟨rfl, hlow⟩ := render_eq_value hv
        constructor
        · unfold to_ascii_lowercase at hlow htex ⊢
          rw [htex, map_append, append_assoc, hlow]
          rfl
        · intro field' hfie'
          rcases mem_cons.mp hfie' with heq | htai
          · obtain rfl := Segment.Field.inj heq
            exact ⟨_, hv⟩
          · exact hval field' htai
      · simp at h
      · simp at h

theorem fold_render_layer (h : render_layer request layer = some path) :
    path.fold = fill (·.value request) (pieces layer) ∧
      ∀ field, .Field field ∈ layer → ∃ v, field.render request = .Value v := by
  unfold render_layer at h
  split at h
  · simp at h
  · rename_i built hbui
    have hpat : path.path = built := by
      unfold ConfigPath.parse_operation at h
      split at h
      · obtain rfl := Option.some.inj h
        rfl
      · exact absurd h (by simp [Except.toOption])
    obtain ⟨htex, hval⟩ := build_eq_some hbui
    exact ⟨by rw [ConfigPath.fold, hpat, htex]; rfl, hval⟩

/-! ## Reading the values back -/

/-- **A path gives a layer's values back exactly when they have equal lengths.** -/
theorem placeholders_read_back_iff {spec : Text} {k : ℕ} {layer : List Segment}
    (hlayer : layer_at spec k = some layer) {first second : SecretsRequest}
    {path path' : ConfigPath} (hfirst : rendered_at spec k first = some path)
    (hsecond : rendered_at spec k second = some path') (hpath : path.fold = path'.fold) :
    ((∀ field, .Field field ∈ layer → field.Agree first second) ↔
      ∀ field, .Field field ∈ layer →
        (field.value first).length = (field.value second).length) ∧
    (placeholders_apart layer = true →
      ∀ field, .Field field ∈ layer → field.Agree first second) := by
  rw [rendered_at, hlayer, Option.bind_some] at hfirst hsecond
  obtain ⟨hfol, hval⟩ := fold_render_layer hfirst
  obtain ⟨hfol', hval'⟩ := fold_render_layer hsecond
  have hfil := (hfol.symm.trans hpath).trans hfol'
  -- Agreement is equality of the texts, since both requests have a value everywhere.
  have hagr : ∀ field, .Field field ∈ layer →
      (field.Agree first second ↔ field.value first = field.value second) := by
    intro field hfie
    obtain ⟨v, hv⟩ := hval field hfie
    obtain ⟨w, hw⟩ := hval' field hfie
    exact agree_iff hv hw
  have hfre : ∀ {request : SecretsRequest},
      (∀ field, .Field field ∈ layer → ∃ v, field.render request = .Value v) →
      ∀ field, .hole field ∈ pieces layer → field ≠ .RepoFullName → '/' ∉ field.value request := by
    intro request hrendered field hfie hne
    obtain ⟨v, hv⟩ := hrendered field (hole_mem_pieces.mp hfie)
    exact slash_not_mem_value hv hne
  refine ⟨⟨fun h field hfie => ?_, fun hlength field hfie => ?_⟩,
    fun hapa field hfie => ?_⟩
  · rw [(hagr field hfie).mp (h field hfie)]
  · refine (hagr field hfie).mpr (fill_inj_of_length ?_ hfil field (hole_mem_pieces.mpr hfie))
    exact fun name hnam => hlength name (hole_mem_pieces.mp hnam)
  · refine (hagr field hfie).mpr
      (fill_inj_of_apart hapa ?_ hfil field (hole_mem_pieces.mpr hfie))
    exact fun name hnam => count_eq_of_fill (hfre hval) (hfre hval') hfil hnam

def push_to (owner name : Text) : SecretsRequest :=
  ⟨⟨owner, name, owner ++ '/' :: name, none⟩, ⟨"main".toList, "push".toList⟩⟩

def two_segments : Text := "/w/\x7brepo.owner\x7d/\x7brepo.name\x7d".toList

def two_segments_layer : List Segment :=
  [.Literal "/w/".toList, .Field .RepoOwner, .Literal "/".toList, .Field .RepoName]

def one_segment : Text := "/w/\x7brepo.owner\x7d-\x7brepo.name\x7d".toList

def one_segment_layer : List Segment :=
  [.Literal "/w/".toList, .Field .RepoOwner, .Literal "-".toList, .Field .RepoName]

/-- Whoever reads `/w/a/b` through the layer of two segments is the repository `b` of `a`. -/
theorem placeholders_read_back_in_two_segments :
    layer_at two_segments 0 = some two_segments_layer ∧
      (rendered_at two_segments 0 (push_to ['a'] ['b'])).isSome = true ∧
      placeholders_apart two_segments_layer = true ∧
      ∀ second path, rendered_at two_segments 0 second = some path →
        path.fold = "/w/a/b".toList → second.repo.owner = ['a'] ∧ second.repo.name = ['b'] := by
  have hlay : layer_at two_segments 0 = some two_segments_layer := by decide +kernel
  have hapa : placeholders_apart two_segments_layer = true := by decide
  have hrendered : ∃ path, rendered_at two_segments 0 (push_to ['a'] ['b']) = some path ∧
      path.fold = "/w/a/b".toList := by
    refine ⟨⟨"/w/a/b".toList, Or.inr (by decide)⟩, ?_, ?_⟩
    · decide +kernel
    · decide
  obtain ⟨path, hpat, hfol⟩ := hrendered
  refine ⟨hlay, by rw [hpat, Option.isSome_some], hapa, fun second path' hsec hfol' => ?_⟩
  have hbac := (placeholders_read_back_iff hlay hpat hsec (hfol.trans hfol'.symm)).2 hapa
  exact ⟨(hbac .RepoOwner (by decide)).symm, (hbac .RepoName (by decide)).symm⟩

/-- **Two repositories, one path**: `a-b/c` and `a/b-c` both read `/w/a-b-c`. -/
theorem two_repositories_share_a_path :
    layer_at one_segment 0 = some one_segment_layer ∧
      .Field .RepoOwner ∈ one_segment_layer ∧ .Field .RepoName ∈ one_segment_layer ∧
      (rendered_at one_segment 0 (push_to "a-b".toList "c".toList)).map ConfigPath.as_str
        = some "/w/a-b-c".toList ∧
      rendered_at one_segment 0 (push_to "a-b".toList "c".toList)
        = rendered_at one_segment 0 (push_to "a".toList "b-c".toList) ∧
      ¬ Field.RepoOwner.Agree (push_to "a-b".toList "c".toList) (push_to "a".toList "b-c".toList) ∧
      ¬ Field.RepoName.Agree (push_to "a-b".toList "c".toList) (push_to "a".toList "b-c".toList) := by
  refine ⟨by decide +kernel, by decide, by decide, by decide +kernel, by decide +kernel, ?_, ?_⟩
  · show ¬ ("a-b".toList = "a".toList)
    decide
  · show ¬ ("c".toList = "b-c".toList)
    decide

end SovereignConfig.Broker
