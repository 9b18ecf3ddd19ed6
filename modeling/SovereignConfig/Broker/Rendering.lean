/-
Which layers are skipped, and where a rendered path lies. `parse_layer` checks a layer with one
character for each placeholder, which is enough: the grammar is a scanner of four states.
-/
import SovereignConfig.Ancestors
import SovereignConfig.Broker.Layers
import SovereignConfig.Lib.Checks

namespace SovereignConfig.Broker

open Lib Text List ConfigPath

/-! ## The path grammar as a scanner -/

/-- Where the scan of an operation path stands: before its first slash, behind a slash,
inside a segment, or behind a character that no path has there. -/
inductive Scan where
  | start
  | opened
  | inside
  | refused
deriving DecidableEq

def Scan.step : Scan → Char → Scan
  | .start, c => if c = '/' then .opened else .refused
  | .opened, c => if segment_char c then .inside else .refused
  | .inside, c => if segment_char c then .inside else if c = '/' then .opened else .refused
  | .refused, _ => .refused

theorem scan_refused (t : Text) : t.foldl Scan.step .refused = .refused := by
  induction t with
  | nil => rfl
  | cons c t ih => exact ih

def segments_ok (begun : Bool) : List Text → Bool
  | [] => false
  | s :: ss => (begun || !s.isEmpty) && s.all segment_char && ss.all segment_ok

theorem segments_ok_false {ss : List Text} (hne : ss ≠ []) :
    segments_ok false ss = ss.all segment_ok := by
  cases ss with
  | nil => exact absurd rfl hne
  | cons s ss => rfl

theorem scan_splitOn (t : Text) (begun : Bool) :
    segments_ok begun (t.splitOn '/')
      = (t.foldl Scan.step (if begun then .inside else .opened) == .inside) := by
  induction t generalizing begun with
  | nil => cases begun <;> decide
  | cons c t ih =>
    rw [splitOn_cons_eq_if_modifyHead, foldl_cons]
    split
    · -- A slash ends the segment that has begun, and no other.
      rename_i hc
      obtain rfl := eq_of_beq hc
      rw [segments_ok, ← segments_ok_false (splitOn_ne_nil _ _), ih false]
      cases begun with
      | true => rfl
      | false =>
        have hste : Scan.step .opened '/' = .refused := rfl
        rw [if_neg Bool.false_ne_true, hste, scan_refused]
        rfl
    · rename_i hc
      have hsla : c ≠ '/' := fun h => hc (by rw [h]; rfl)
      have hste : Scan.step (if begun then .inside else .opened) c
          = if segment_char c then .inside else .refused := by
        cases begun with
        | true => simp only [↓reduceIte, Scan.step, if_neg hsla]
        | false => rfl
      have hbeg := ih true
      rw [hste]
      cases hcut : t.splitOn '/' with
      | nil => exact absurd hcut (splitOn_ne_nil _ _)
      | cons s ss =>
        rw [hcut] at hbeg
        simp only [segments_ok, modifyHead_cons, isEmpty_cons, Bool.not_false,
          Bool.or_true, Bool.true_or, Bool.true_and, all_cons, Bool.and_assoc] at hbeg ⊢
        cases segment_char c with
        | true => exact hbeg
        | false =>
          rw [if_neg Bool.false_ne_true, scan_refused]
          rfl

theorem operation_path_iff_scan (t : Text) :
    operation_path t = true ↔ t.foldl Scan.step .start = .inside := by
  cases t with
  | nil => decide
  | cons c relative =>
    rw [foldl_cons]
    by_cases hc : c = '/'
    · subst hc
      have hsca := scan_splitOn relative false
      rw [segments_ok_false (splitOn_ne_nil _ _), if_neg Bool.false_ne_true] at hsca
      have hpat : operation_path ('/' :: relative) = (relative.splitOn '/').all segment_ok := by
        cases relative with
        | nil => decide
        | cons c relative => rfl
      have hste : Scan.step .start '/' = .opened := rfl
      rw [hste, hpat, hsca, beq_iff_eq]
    · have hste : Scan.step .start c = .refused := if_neg hc
      rw [hste, scan_refused]
      refine iff_of_false (fun h => ?_) (by decide)
      unfold operation_path at h
      split at h
      · rename_i heq
        exact hc (List.cons.inj heq).1
      · exact absurd h (by decide)

theorem step_segment_char {c : Char} (hc : segment_char c = true) (s : Scan) :
    s.step c = s.step 'x' := by
  have hsla : c ≠ '/' := by
    rintro rfl
    exact absurd hc (by decide)
  cases s with
  | start => exact (if_neg hsla).trans (by decide)
  | opened => exact (if_pos hc).trans (by decide)
  | inside => exact (if_pos hc).trans (by decide)
  | refused => rfl

theorem step_probe_idem (s : Scan) : (s.step 'x').step 'x' = s.step 'x' := by
  cases s <;> decide

variable {v raw : Text} {field : Broker.Field} {request : SecretsRequest} {layer : List Segment}

theorem scan_segment (hok : segment_ok v = true) (s : Scan) : v.foldl Scan.step s = s.step 'x' := by
  simp only [segment_ok, Bool.and_eq_true, all_eq_true, Bool.not_eq_true',
    isEmpty_eq_false_iff] at hok
  obtain ⟨hne, hcha⟩ := hok
  obtain ⟨c, v, rfl⟩ := exists_cons_of_ne_nil hne
  rw [foldl_cons, step_segment_char (hcha c mem_cons_self)]
  -- Behind its first character a segment leaves the scanner where it is.
  refine foldlRecOn (motive := (· = s.step 'x')) v Scan.step rfl fun state hstate d hd => ?_
  rw [hstate, step_segment_char (hcha d (mem_cons_of_mem c hd)), step_probe_idem]

theorem segment_ok_format_int (n : ℤ) : segment_ok (format_int n) = true := by
  simp only [segment_ok, Bool.and_eq_true, all_eq_true, Bool.not_eq_true',
    isEmpty_eq_false_iff]
  constructor
  · intro hnil
    have hpar := parse_format_int n
    have hnone : parse_int [] = none := by decide
    rw [hnil, hnone] at hpar
    simp at hpar
  · intro c hc
    rcases mem_format_int hc with rfl | hdig
    · decide
    · simp [segment_char, hdig]

theorem value_segments (h : field.render request = .Value v) :
    segment_ok v = true ∨ field = .RepoFullName ∧ ∃ owner name : Text,
      v = owner ++ '/' :: name ∧ segment_ok owner = true ∧ segment_ok name = true := by
  have hseg : ∀ {value v : Text}, Substitution.of value = .Value v → segment_ok v = true := by
    intro value v hof
    obtain ⟨rfl, hok⟩ := of_eq_value hof
    exact segment_ok_of_fold hok
  cases field with
  | RepoOwner => exact Or.inl (hseg h)
  | RepoName => exact Or.inl (hseg h)
  | RepoFullName =>
    simp only [Field.render] at h
    split at h
    · split at h
      · rename_i owner name hown hnam
        obtain rfl := Substitution.Value.inj h
        exact Or.inr ⟨rfl, owner, name, rfl, hseg hown, hseg hnam⟩
      all_goals simp at h
    · exact Or.inl (hseg h)
  | RepoForgeId =>
    simp only [Field.render] at h
    split at h
    · simp at h
    · rename_i id hid
      obtain rfl := Substitution.Value.inj h
      refine Or.inl (segment_ok_format_int id)
  | PipelineBranch => exact Or.inl (hseg h)
  | PipelineEvent => exact Or.inl (hseg h)

theorem scan_value (h : field.render request = .Value v) (s : Scan) :
    (field.value request).foldl Scan.step s = FIELD_PROBE.foldl Scan.step s := by
  rw [← (render_eq_value h).1]
  rcases value_segments h with hok | ⟨-, owner, name, rfl, hown, hnam⟩
  · exact scan_segment hok s
  · rw [foldl_append, foldl_cons, scan_segment hown, scan_segment hnam]
    cases s <;> decide

theorem count_slash_full_name (h : Field.RepoFullName.render request = .Value v) :
    request.repo.full_name.count '/' = if '/' ∈ request.repo.full_name then 1 else 0 := by
  have hfre : ∀ {s : Text}, segment_ok s = true → s.count '/' = 0 := by
    intro s hok
    have hone : Free '/' [s] := free_of_segments_ok fun t ht => mem_singleton.mp ht ▸ hok
    exact count_eq_zero_of_not_mem hone.head
  obtain ⟨hval, -⟩ := render_full_name h
  rw [← hval]
  rcases value_segments h with hok | ⟨-, owner, name, rfl, hown, hnam⟩
  · rw [hfre hok, if_neg (count_eq_zero.mp (hfre hok))]
  · rw [count_append, count_cons_self, hfre hown, hfre hnam, if_pos (by simp)]

/-! ## The layer as it is written -/

def Field.name : Field → Text
  | .RepoOwner => "repo.owner".toList
  | .RepoName => "repo.name".toList
  | .RepoFullName => "repo.full_name".toList
  | .RepoForgeId => "repo.forge_id".toList
  | .PipelineBranch => "pipeline.branch".toList
  | .PipelineEvent => "pipeline.event".toList

def Field.placeholder (self : Field) : Text := '{' :: (self.name ++ ['}'])

def Segment.written : Segment → Piece Char Broker.Field
  | .Literal literal => .literal literal
  | .Field field => .hole field

def template (layer : List Segment) : List (Piece Char Field) := layer.map Segment.written

def unparse (layer : List Segment) : Text := fill Field.placeholder (template layer)

def declared (spec : Text) : List Text :=
  ((split_any (fun c => c == ',' || c == '\n' || c == '\r') spec).map trim).filter
    fun raw => !raw.isEmpty

theorem hole_mem_template :
    .hole field ∈ template layer ↔ .Field field ∈ layer := hole_mem nofun fun _ => rfl

theorem count_hole_template (layer : List Segment) (field : Field) :
    (template layer).count (.hole field) = layer.count (.Field field) := by
  have hinj : Function.Injective Segment.written := by
    intro a b h
    cases a <;> cases b <;> simp_all [Segment.written]
  exact count_map_of_injective layer Segment.written hinj (.Field field)

theorem fill_template_append (value : Field → Text) (layer rest : List Segment) :
    fill value (template (layer ++ rest))
      = fill value (template layer) ++ fill value (template rest) := by
  rw [fill, fill, fill, template, template, template, map_append, flatMap_append]

theorem probe_eq (layer : List Segment) :
    probe layer = fill (fun _ => FIELD_PROBE) (template layer) := by
  rw [probe, fill, template, flatMap_map]
  refine flatMap_congr fun segment _ => ?_
  cases segment <;> rfl

theorem name_of_parse {name : Text} (h : Field.parse name = some field) : field.name = name := by
  unfold Field.parse at h
  split_ifs at h with h₁ h₂ h₃ h₄ h₅ h₆
  all_goals
    obtain rfl := Option.some.inj h
    exact Eq.symm (by assumption)

theorem unparse_push_literal (segments : List Segment) (literal : Text) :
    unparse (push_literal segments literal) = unparse segments ++ literal := by
  unfold push_literal
  split_ifs with hemp
  · rw [isEmpty_iff.mp hemp, append_nil]
  · rw [unparse, fill_template_append]
    exact congrArg (unparse segments ++ ·) (append_nil literal)

theorem unparse_scan {rest : Text} {segments : List Segment}
    (h : scan raw rest segments = .ok layer) : unparse layer = unparse segments ++ rest := by
  fun_induction scan raw rest segments with
  | case1 => simp at h
  | case2 => simp at h
  | case3 rest segments literal after hope placeholder rest' hclo field hfie ih =>
    rw [ih h, (split_once_eq_some hope).1, (split_once_eq_some hclo).1, unparse,
      fill_template_append]
    have hpus := unparse_push_literal segments literal
    rw [unparse] at hpus
    have hhol : fill Field.placeholder (template [.Field field])
        = '{' :: (placeholder ++ ['}']) := by
      rw [← name_of_parse hfie]
      exact append_nil _
    rw [hpus, hhol, unparse]
    simp only [append_assoc, cons_append, nil_append]
  | case4 => simp at h
  | case5 rest segments hope hbra =>
    obtain rfl := Except.ok.inj h
    exact unparse_push_literal segments rest

theorem parse_layer_spec (h : parse_layer raw = .ok layer) :
    unparse layer = raw ∧ operation_path (probe layer) = true := by
  unfold parse_layer at h
  split_ifs at h
  · exact absurd h (by simp [throw, throwThe, MonadExceptOf.throw, bind, Except.bind])
  · obtain ⟨-, -, h⟩ := bind_eq_ok.mp h
    obtain ⟨segments, hsca, h⟩ := bind_eq_ok.mp h
    split at h
    · exact absurd h (by simp [throw, throwThe, MonadExceptOf.throw])
    · rename_i path hpat
      obtain rfl := Except.ok.inj h
      refine ⟨unparse_scan hsca, ?_⟩
      unfold ConfigPath.parse_operation at hpat
      split at hpat
      · assumption
      · simp at hpat

theorem layers_spec {raws : List Text} {layers : List (List Segment)}
    (h : List.Forall₂ (fun raw layer => parse_layer raw = .ok layer) raws layers) :
    layers.map unparse = raws ∧ ∀ layer ∈ layers, operation_path (probe layer) = true := by
  induction h with
  | nil => exact ⟨rfl, fun layer hlay => absurd hlay not_mem_nil⟩
  | cons hlay _ ih =>
    obtain ⟨hunp, hprobe⟩ := parse_layer_spec hlay
    rw [map_cons, hunp, ih.1]
    exact ⟨rfl, forall_mem_cons.mpr ⟨hprobe, ih.2⟩⟩

theorem parse_spec {spec : Text} {templates : LayerTemplates}
    (h : LayerTemplates.parse spec = .ok templates) :
    templates.layers.map unparse = declared spec ∧
      ∀ layer ∈ templates.layers, operation_path (probe layer) = true := by
  unfold LayerTemplates.parse at h
  obtain ⟨layers, hlay, h⟩ := bind_eq_ok.mp h
  split_ifs at h
  · exact absurd h (by simp [throw, throwThe, MonadExceptOf.throw, bind, Except.bind])
  · obtain rfl := Except.ok.inj h
    exact layers_spec (forall₂_of_mapM hlay)

/-! ## Which layers are skipped -/

def Substitution.has_value : Substitution → Bool
  | .Value _ => true
  | .Absent => false
  | .Unrepresentable => false

def usable (request : SecretsRequest) (layer : List Segment) : Bool :=
  layer.all fun segment =>
    match segment with
    | .Literal _ => true
    | .Field field => (field.render request).has_value

theorem usable_field :
    usable request (.Field field :: layer)
      = ((field.render request).has_value && usable request layer) := rfl

theorem has_value_iff {substitution : Substitution} :
    substitution.has_value = true ↔ ∃ v, substitution = .Value v := by
  cases substitution with
  | Value v => exact iff_of_true rfl ⟨v, rfl⟩
  | Absent => exact iff_of_false Bool.false_ne_true fun ⟨_, h⟩ => nomatch h
  | Unrepresentable => exact iff_of_false Bool.false_ne_true fun ⟨_, h⟩ => nomatch h

theorem usable_iff :
    usable request layer = true ↔
      ∀ field, .Field field ∈ layer → ∃ v, field.render request = .Value v := by
  rw [usable, all_eq_true]
  constructor
  · exact fun h field hfie => has_value_iff.mp (h _ hfie)
  · intro h segment hseg
    cases segment with
    | Literal literal => rfl
    | Field field => exact has_value_iff.mpr (h field hseg)

theorem not_usable_iff :
    usable request layer = false ↔ ∃ field, .Field field ∈ layer ∧
      (field.render request = .Absent ∨ field.render request = .Unrepresentable) := by
  rw [← Bool.not_eq_true, usable_iff]
  simp only [not_forall, exists_prop]
  refine exists_congr fun field => and_congr_right fun _ => ?_
  cases field.render request with
  | Value v => simp
  | Absent => simp
  | Unrepresentable => simp

theorem build_eq (request : SecretsRequest) (built : Text) (layer : List Segment) :
    build request built layer =
      if usable request layer then some (built ++ fill (·.value request) (template layer))
      else none := by
  induction layer generalizing built with
  | nil => exact congrArg some (append_nil built).symm
  | cons segment layer ih =>
    cases segment with
    | Literal literal => rw [build, ih, append_assoc]; rfl
    | Field field =>
      rw [build, usable_field]
      cases hren : field.render request with
      | Value v =>
        obtain ⟨rfl, -⟩ := render_eq_value hren
        simp only [ih, append_assoc, Substitution.has_value, Bool.true_and]
        rfl
      | Absent => rfl
      | Unrepresentable => rfl

theorem operation_path_fill (hprobe : operation_path (probe layer) = true)
    (husa : usable request layer = true) :
    operation_path (fill (·.value request) (template layer)) = true := by
  rw [operation_path_iff_scan] at hprobe ⊢
  rw [probe_eq] at hprobe
  rw [← hprobe]
  refine foldl_fill_congr (fun field hfie s => ?_) Scan.start
  obtain ⟨v, hv⟩ := usable_iff.mp husa field (hole_mem_template.mp hfie)
  exact scan_value hv s

/-- **A layer that was accepted is skipped for its placeholders only**: with a value in each
of them it is a path. -/
theorem render_layer_eq (hprobe : operation_path (probe layer) = true) :
    (render_layer request layer).map ConfigPath.as_str =
      if usable request layer then some (fill (·.value request) (template layer)) else none := by
  rw [render_layer, build_eq]
  split_ifs with husa
  · simp only [nil_append, ConfigPath.parse_operation,
      dif_pos (operation_path_fill hprobe husa)]
    rfl
  · rfl

theorem render_layer_some {path : ConfigPath} (hprobe : operation_path (probe layer) = true)
    (h : render_layer request layer = some path) :
    usable request layer = true ∧ path.path = fill (·.value request) (template layer) := by
  have hmap : (render_layer request layer).map ConfigPath.as_str = _ := render_layer_eq hprobe
  rw [h, Option.map_some] at hmap
  split_ifs at hmap with husa
  exact ⟨husa, Option.some.inj hmap⟩

/-! ## Where a rendered path lies -/

def template_segments (layer : List Segment) : List (List (Char ⊕ Field)) :=
  (parts '/' (template layer)).tail

def literal_segments (layer : List Segment) : List Text :=
  ((template_segments layer).takeWhile fun s => s.all Sum.isLeft).map (write fun _ => [])

theorem parts_template (hprobe : operation_path (probe layer) = true) :
    parts '/' (template layer) = [] :: template_segments layer := by
  have hfre : ∀ _ : Field, '/' ∉ FIELD_PROBE := fun _ => by decide
  have hspl : (probe layer).splitOn '/' = _ := (congrArg _ (probe_eq layer)).trans
    (splitOn_fill_of_free hfre)
  obtain ⟨relative, hrel⟩ : ∃ relative, probe layer = '/' :: relative := by
    unfold operation_path at hprobe
    split at hprobe
    · exact ⟨_, by assumption⟩
    · exact absurd hprobe (by decide)
  rw [hrel, splitOn_cons_eq_if_modifyHead, if_pos (beq_self_eq_true _)] at hspl
  cases hpar : parts '/' (template layer) with
  | nil => rw [hpar] at hspl; exact absurd hspl (cons_ne_nil _ _)
  | cons first rest =>
    rw [hpar, map_cons] at hspl
    have hfir := (write_eq_nil fun _ => cons_ne_nil _ _).mp (List.cons.inj hspl).1.symm
    rw [hfir, template_segments, hpar, tail_cons]

section Placed

variable {request : SecretsRequest} {layer : List Segment} {path : ConfigPath}
variable (hprobe : operation_path (probe layer) = true)
variable (hrendered : render_layer request layer = some path)

include hprobe hrendered

theorem splitOn_path : path.path.splitOn '/' = [] :: path.named := by
  obtain ⟨husa, hpat⟩ := render_layer_some hprobe hrendered
  have hroo : path.path ≠ root_text := by
    intro hroo
    have hop := operation_path_fill hprobe husa
    rw [← hpat, hroo] at hop
    exact absurd hop (by decide)
  have hren := path_eq_render hroo
  have hfre := free_of_segments_ok path.named_spec.2.1
  have hspl := splitOn_render hfre (named_ne_nil hroo)
  rw [← hren] at hspl
  obtain ⟨s, ss, hnam⟩ := exists_cons_of_ne_nil (named_ne_nil hroo)
  rw [hnam, render_cons] at hren
  rw [hren, tail_cons] at hspl
  rw [hren, splitOn_cons_eq_if_modifyHead, if_pos (beq_self_eq_true _), hspl]

theorem named_eq : path.named =
    (template_segments layer).flatMap fun part => (write (·.value request) part).splitOn '/' := by
  have hspl := splitOn_path hprobe hrendered
  rw [(render_layer_some hprobe hrendered).2, splitOn_fill, parts_template hprobe,
    flatMap_cons] at hspl
  exact (List.cons.inj hspl).2.symm

theorem path_in_place :
    path.path = render '/' ((template_segments layer).map (write (·.value request))) := by
  have hspl := splitOn_path hprobe hrendered
  have hpat : '/' :: path.path = render '/' ([] :: path.named) := by
    rw [← hspl, render_splitOn]
  rw [render_cons, nil_append] at hpat
  rw [(List.cons.inj hpat).2, named_eq hprobe hrendered, render, flatMap_assoc, render,
    flatMap_map]
  exact flatMap_congr fun part _ => render_splitOn _

theorem length_named_eq : path.named.length = (template_segments layer).length +
    if '/' ∈ request.repo.full_name then layer.count (.Field .RepoFullName) else 0 := by
  obtain ⟨husa, hpat⟩ := render_layer_some hprobe hrendered
  have hlength : path.named.length = path.path.count '/' := by
    have hspl := length_splitOn (d := '/') path.path
    rw [splitOn_path hprobe hrendered, length_cons] at hspl
    omega
  have hemp : (template_segments layer).length
      = (fill (fun _ : Field => []) (template layer)).count '/' := by
    have hspl := length_splitOn (d := '/') (fill (fun _ : Field => []) (template layer))
    rw [splitOn_fill_of_free (fun _ => not_mem_nil), length_map, parts_template hprobe,
      length_cons] at hspl
    omega
  have hoth : ∀ field, .hole field ∈ template layer → field ≠ .RepoFullName →
      '/' ∉ field.value request := by
    intro field hfie hne
    obtain ⟨v, hv⟩ := usable_iff.mp husa field (hole_mem_template.mp hfie)
    exact slash_not_mem_value hv hne
  rw [hlength, hpat, count_fill hoth, hemp, count_hole_template]
  refine congrArg (Nat.add _) ?_
  by_cases hful : .Field .RepoFullName ∈ layer
  · obtain ⟨v, hv⟩ := usable_iff.mp husa _ hful
    have hcou : (Field.RepoFullName.value request).count '/' = _ := count_slash_full_name hv
    rw [hcou]
    split_ifs
    · exact Nat.mul_one _
    · exact Nat.mul_zero _
  · rw [count_eq_zero_of_not_mem hful, Nat.zero_mul, ite_self]

theorem literal_segments_prefix : literal_segments layer <+: path.named := by
  rw [named_eq hprobe hrendered]
  refine literal_parts_prefix fun part hpar => ?_
  exact not_mem_part (parts_template hprobe ▸ mem_cons_of_mem _ hpar)

end Placed

/-- **Rendering is all or nothing, in the declared order and in place.** -/
theorem layers_rendered_in_place {spec : Text} {templates : LayerTemplates}
    (hparse : LayerTemplates.parse spec = .ok templates) (request : SecretsRequest) :
    templates.layers.map unparse = declared spec ∧
    (templates.render request).map ConfigPath.as_str =
      (templates.layers.filter (usable request)).map
        (fun layer => fill (·.value request) (template layer)) ∧
    ∀ layer ∈ templates.layers,
      (render_layer request layer = none ↔ ∃ field, .Field field ∈ layer ∧
        (field.render request = .Absent ∨ field.render request = .Unrepresentable)) ∧
      ∀ path, render_layer request layer = some path →
        path.path = render '/' ((template_segments layer).map (write (·.value request))) ∧
        path.named.length = (template_segments layer).length +
          (if '/' ∈ request.repo.full_name then layer.count (.Field .RepoFullName) else 0) ∧
        literal_segments layer <+: path.named := by
  obtain ⟨hunp, hprobe⟩ := parse_spec hparse
  refine ⟨hunp, ?_, fun layer hlay => ⟨?_, fun path hpat => ?_⟩⟩
  · rw [LayerTemplates.render, map_filterMap, ← filterMap_eq_map, filterMap_filter]
    refine filterMap_congr fun layer hlay => ?_
    exact render_layer_eq (hprobe layer hlay)
  · rw [← not_usable_iff, ← Option.map_eq_none_iff, render_layer_eq (hprobe layer hlay)]
    cases usable request layer <;> simp
  · exact ⟨path_in_place (hprobe layer hlay) hpat, length_named_eq (hprobe layer hlay) hpat,
      literal_segments_prefix (hprobe layer hlay) hpat⟩

def by_name_and_id : Text := "/w/\x7brepo.full_name\x7d,/w/\x7brepo.forge_id\x7d".toList

def by_name_and_id_parsed : LayerTemplates :=
  ⟨[[.Literal "/w/".toList, .Field .RepoFullName], [.Literal "/w/".toList, .Field .RepoForgeId]],
    ["/w/\x7brepo.full_name\x7d".toList, "/w/\x7brepo.forge_id\x7d".toList]⟩

/-- A repository without a forge id reads `/w/a/b` only, one segment deeper than its layer. -/
theorem full_name_rendered_in_place :
    LayerTemplates.parse by_name_and_id = .ok by_name_and_id_parsed ∧
      (by_name_and_id_parsed.render (push_to ['a'] ['b'])).map ConfigPath.as_str
        = ["/w/a/b".toList] ∧
      ∀ path, render_layer (push_to ['a'] ['b']) [.Literal "/w/".toList, .Field .RepoFullName]
        = some path → path.named.length = 2 + 1 ∧ [['w']] <+: path.named := by
  have hpar : LayerTemplates.parse by_name_and_id = .ok by_name_and_id_parsed := by
    decide +kernel
  obtain ⟨-, hren, hlay⟩ := layers_rendered_in_place hpar (push_to ['a'] ['b'])
  refine ⟨hpar, hren.trans (by decide +kernel), fun path hpat => ?_⟩
  obtain ⟨-, hlength, hlit⟩ := (hlay _ mem_cons_self).2 path hpat
  exact ⟨hlength.trans (by decide +kernel), hlit⟩

end SovereignConfig.Broker
