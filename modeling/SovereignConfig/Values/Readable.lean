/-
What a principal's reads can depend on: each read is a function of the `views` a store holds for
the principal.
-/
import SovereignConfig.Lib.Checks
import SovereignConfig.Values.Reads

namespace SovereignConfig.Values

open Lib Text List Function Call Tables

/-! ## Readable rows -/

def readable (principal : AuthenticatedPrincipal) (fold : Text) : Bool :=
  match ConfigPath.parse fold with
  | .ok path => principal.allows path .Read
  | .error _ => false

def ContentRow.masked (self : ContentRow) : ValueContent :=
  match self.classification with
  | .PLAIN => .Plain self.value
  | .SECRET => .Secret

theorem masked_content_eq (c : ContentRow) :
    masked_content c.value c.classification = some c.masked := by
  unfold ContentRow.masked
  cases c.classification with
  | PLAIN => rfl
  | SECRET => rfl

variable {t t' : Tables} {principal : AuthenticatedPrincipal}

variable {row p : PathRow} {c : ContentRow}

theorem parse_stored (h : row ∈ t.paths) :
    ∃ path, ConfigPath.parse row.lowercase_path = .ok path ∧ path.fold = row.lowercase_path := by
  have hpar := parse_of_fold (t.config_path h)
  exact ⟨_, hpar, parse_fold hpar⟩

def readable_rows (principal : AuthenticatedPrincipal) (t : Tables) :
    List (PathRow × ContentRow) :=
  t.ordered.filter fun pc => readable principal pc.1.lowercase_path

theorem joined_paths (t : Tables) : t.joined.map Prod.fst = t.paths := by
  have hall : ∀ rows : List PathRow, (∀ row ∈ rows, row ∈ t.paths) →
      (rows.filterMap fun p => (t.content_row p.content_id).map fun c => (p, c)).map Prod.fst
        = rows := by
    intro rows
    induction rows with
    | nil => exact fun _ => rfl
    | cons row rows ih =>
      intro hrow
      obtain ⟨c, hc⟩ := content_row_of_path (hrow row mem_cons_self)
      rw [filterMap_cons_some (by rw [hc]; rfl), map_cons,
        ih fun r hr => hrow r (mem_cons_of_mem _ hr)]
  exact hall t.paths fun _ h => h

theorem nodup_joined_folds (t : Tables) : (t.joined.map fun pc => pc.1.lowercase_path).Nodup := by
  have hfol : (t.joined.map fun pc => pc.1.lowercase_path)
      = (t.joined.map Prod.fst).map PathRow.lowercase_path := by
    rw [map_map]
    rfl
  rw [hfol, joined_paths]
  exact t.unique_path

theorem mem_ordered : (p, c) ∈ t.ordered ↔ p ∈ t.paths ∧ c ∈ t.contents ∧ c.id = p.content_id := by
  rw [Tables.ordered, mem_order_by, mem_joined]

theorem ordered_increasing (t : Tables) :
    t.ordered.Pairwise fun a b => a.1.lowercase_path < b.1.lowercase_path :=
  order_by_increasing (nodup_joined_folds t)

theorem ordered_paths (t : Tables) :
    t.ordered.map Prod.fst = order_by PathRow.lowercase_path t.paths := by
  have hlef : (t.ordered.map Prod.fst).Pairwise fun a b => a.lowercase_path < b.lowercase_path :=
    pairwise_map.mpr (ordered_increasing t)
  refine eq_of_increasing hlef (order_by_increasing t.unique_path) fun row => ?_
  rw [mem_order_by, mem_map]
  constructor
  · rintro ⟨pc, hpc, rfl⟩
    exact (mem_ordered.mp hpc).1
  · intro hrow
    obtain ⟨c, hc, hid⟩ := t.content_exists row hrow
    exact ⟨(row, c), mem_ordered.mpr ⟨hrow, hc, hid⟩, rfl⟩

/-! ## Views -/

structure View where
  path : Text
  created_at : OffsetDateTime
  value : ValueContent
  content_created_at : OffsetDateTime
  content_updated_at : OffsetDateTime
  /-- Every readable path of the content, this one included. -/
  paths : List Text
deriving DecidableEq

def View.lowercase_path (self : View) : Text := to_ascii_lowercase self.path

def view (rows : List (PathRow × ContentRow)) (pc : PathRow × ContentRow) : View :=
  ⟨pc.1.path, pc.1.created_at, pc.2.masked, pc.2.created_at, pc.2.updated_at,
    (rows.filter fun other => other.1.content_id == pc.1.content_id).map fun other => other.1.path⟩

def views (principal : AuthenticatedPrincipal) (t : Tables) : List View :=
  (readable_rows principal t).map (view (readable_rows principal t))

def display_path (path : Text) : ConfigPath :=
  if h : operation_path path = true then ⟨path, canonical_of_operation h⟩ else .root

theorem stored_path_eq (h : row ∈ t.paths) :
    stored_path row.path = .ok (display_path row.path) := by
  have hop := t.path_grammar row h
  rw [stored_path, ConfigPath.parse_operation, dif_pos hop, display_path, dif_pos hop]
  rfl

def View.listed (self : View) : ListedValue :=
  ⟨display_path self.path, self.value, to_timestamp self.content_created_at,
    to_timestamp self.content_updated_at,
    (self.paths.filter fun path => to_ascii_lowercase path ≠ self.lowercase_path).map display_path⟩

def namespaces (vs : List View) : Namespaces :=
  vs.foldl (fun paths v => add_parent_paths paths v.lowercase_path v.path v.created_at) ∅

def listing (selected : ConfigPath) (vs : List View) : Except Status ValueListing := do
  let paths ← ((namespaces vs).toList.map fun entry => entry.2.2).mapM namespace_path
  return ⟨(vs.filter fun v => parent_path v.lowercase_path = selected.fold).map View.listed, paths⟩

def View.sub_tree_value (self : View) : SubTreeValue := ⟨display_path self.path, self.value⟩

section Candidates

variable {selected : ConfigPath}

def candidate (row : PathRow) : PathContentRow :=
  ⟨row.path, row.lowercase_path, row.content_id, row.created_at⟩

structure Gathered (principal : AuthenticatedPrincipal) (selected : ConfigPath)
    (rows : List PathRow) (g : Candidates) : Prop where
  content_paths : ∀ id, (g.content_paths[id]?).getD []
    = ((rows.filter fun row => readable principal row.lowercase_path).filter fun row =>
        row.content_id == id).map fun row => (row.lowercase_path, row.path)
  paths : g.paths = (rows.filter fun row => readable principal row.lowercase_path).foldl
    (fun paths row => add_parent_paths paths row.lowercase_path row.path row.created_at) ∅
  direct : g.direct = ((rows.filter fun row => readable principal row.lowercase_path).filter
    fun row => parent_path row.lowercase_path = selected.fold).map PathRow.lowercase_path

theorem gathered_empty : Gathered principal selected [] .empty :=
  ⟨fun id => by simp [Candidates.empty], rfl, rfl⟩

variable {rows : List PathRow}

theorem Gathered.add {g : Candidates} (h : Gathered principal selected rows g) {row : PathRow}
    (hrow : row ∈ t.paths) :
    ∃ g', g.add principal selected (candidate row) = .ok g' ∧
      Gathered principal selected (rows ++ [row]) g' := by
  obtain ⟨path, hpars, -⟩ := parse_stored hrow
  have hread : readable principal row.lowercase_path = principal.allows path .Read := by
    rw [readable, hpars]
  unfold Candidates.add
  simp only [candidate, hpars]
  by_cases hall : principal.allows path .Read = true
  · rw [if_neg (by simp [hall])]
    rw [hall] at hread
    refine ⟨_, rfl, fun id => ?_, ?_, ?_⟩
    · simp only [filter_append, map_append, ← h.content_paths id,
        Std.TreeMap.getElem?_insert]
      by_cases hid : row.content_id = id
      · subst hid
        simp [hread]
      · have hcmp : compare row.content_id id ≠ .eq := fun heq => hid (Nat.compare_eq_eq.mp heq)
        simp [hread, hid, hcmp]
    · simp only [filter_append, foldl_append, ← h.paths]
      simp [hread]
    · simp only [filter_append, map_append, ← h.direct]
      by_cases hpar : parent_path row.lowercase_path = selected.fold
      · simp [hread, hpar]
      · simp [hread, hpar]
  · rw [Bool.not_eq_true] at hall
    rw [hall] at hread
    rw [if_pos (by simp [hall])]
    have hsam : (rows ++ [row]).filter (fun row => readable principal row.lowercase_path)
        = rows.filter fun row => readable principal row.lowercase_path := by
      simp [hread]
    exact ⟨g, rfl, fun id => hsam ▸ h.content_paths id, hsam ▸ h.paths, hsam ▸ h.direct⟩

variable (principal selected) in
theorem gathered_all (hrow : ∀ row ∈ rows, row ∈ t.paths) :
    ∃ g, (rows.map candidate).foldlM (Candidates.add principal selected) .empty = .ok g ∧
      Gathered principal selected rows g := by
  induction rows using reverseRecOn with
  | nil => exact ⟨_, rfl, gathered_empty⟩
  | append_singleton rows row ih =>
    obtain ⟨g, hg, hgat⟩ := ih fun r hr => hrow r (mem_append_left _ hr)
    obtain ⟨g', hg', hgat'⟩ := hgat.add (hrow row (by simp))
    refine ⟨g', ?_, hgat'⟩
    rw [map_append, foldlM_append, hg]
    exact (congrArg (· >>= pure) hg').trans rfl

end Candidates

/-! ## Running a read -/

section Run

variable {env : ReadEnv} {context : CallContext} {α : Type}

theorem run_recorded (actor : Actor) (event : AuditEvent) (a : α) (t : Tables) :
    (((record_best_effort actor event).bind fun _ => .done (.ok a)).run (serve_read env) t).1
      = .ok a := by
  rw [run_bind]
  rfl

theorem readable_paths (principal : AuthenticatedPrincipal) (t : Tables) :
    (order_by PathRow.lowercase_path t.paths).filter
        (fun row => readable principal row.lowercase_path)
      = (readable_rows principal t).map Prod.fst := by
  rw [← ordered_paths, filter_map]
  rfl

theorem actor_of_principal (hp : context.principal = .ok principal) :
    ∃ actor, context.actor = .ok actor := by
  rw [CallContext.actor, hp]
  exact ⟨_, rfl⟩

variable {g : Candidates} {selected root : ConfigPath} {fold : Text}

theorem listed_value_eq
    (hg : Gathered principal selected (order_by PathRow.lowercase_path t.paths) g)
    {pc : PathRow × ContentRow} (hpc : pc ∈ t.ordered) :
    listed_value g.content_paths ⟨pc.1.path, pc.1.lowercase_path, pc.1.content_id, pc.2.value,
        pc.2.classification, pc.2.created_at, pc.2.updated_at⟩
      = .ok (view (readable_rows principal t) pc).listed := by
  have hpat := hg.content_paths pc.1.content_id
  rw [readable_paths, filter_map, map_map] at hpat
  have hali : ∀ rows : List (PathRow × ContentRow), (∀ row ∈ rows, row.1 ∈ t.paths) →
      ((rows.map fun row => (row.1.lowercase_path, row.1.path)).filter fun pair =>
          pair.1 ≠ pc.1.lowercase_path).mapM (fun pair => stored_path pair.2)
        = .ok (((rows.map fun row => row.1.path).filter fun path =>
            to_ascii_lowercase path ≠ pc.1.lowercase_path).map display_path) := by
    intro rows hrows
    rw [filter_map, filter_map, mapM_map, map_map]
    exact mapM_eq_ok fun row hrow => stored_path_eq (hrows row (mem_of_mem_filter hrow))
  have hrows : ∀ row ∈ (readable_rows principal t).filter fun other =>
      other.1.content_id == pc.1.content_id, row.1 ∈ t.paths := by
    intro row hrow
    exact (mem_ordered.mp (mem_of_mem_filter (mem_of_mem_filter hrow))).1
  have hsel := stored_path_eq (mem_ordered.mp hpc).1
  rw [listed_value, masked_content_eq, hpat]
  refine bind_eq_ok.mpr ⟨_, rfl, bind_eq_ok.mpr ⟨_, hali _ hrows, bind_eq_ok.mpr ⟨_, hsel, ?_⟩⟩⟩
  rfl

theorem direct_rows (hg : Gathered principal selected (order_by PathRow.lowercase_path t.paths) g) :
    t.ordered.filter (fun pc => g.direct.contains pc.1.lowercase_path)
      = (readable_rows principal t).filter fun pc =>
          parent_path pc.1.lowercase_path = selected.fold := by
  rw [readable_rows, filter_filter]
  refine filter_congr fun pc hpc => ?_
  rw [Bool.eq_iff_iff, contains_iff_mem, hg.direct, readable_paths, filter_map,
    mem_map, Bool.and_eq_true, decide_eq_true_iff]
  constructor
  · rintro ⟨row, hrow, hfol⟩
    obtain ⟨pc', hpc', rfl⟩ := mem_map.mp hrow
    obtain ⟨hread, hpar⟩ := mem_filter.mp hpc'
    rw [← hfol]
    exact ⟨by simpa using hpar, (mem_filter.mp hread).2⟩
  · rintro ⟨hpar, hread⟩
    exact ⟨pc.1, mem_map_of_mem (mem_filter.mpr
      ⟨mem_filter.mpr ⟨hpc, hread⟩, by simpa using hpar⟩), rfl⟩

theorem namespaces_views (principal : AuthenticatedPrincipal) (t : Tables) :
    namespaces (views principal t) = ((readable_rows principal t).map Prod.fst).foldl
      (fun paths row => add_parent_paths paths row.lowercase_path row.path row.created_at) ∅ := by
  rw [namespaces, views, foldl_map, foldl_map]
  rfl

theorem run_direct_values
    (hg : Gathered principal selected (order_by PathRow.lowercase_path t.paths) g) :
    (direct_values g).run (serve_read env) t
      = (.ok (((views principal t).filter fun v =>
          parent_path v.lowercase_path = selected.fold).map View.listed), t) := by
  have hval : (t.listed_values g.direct).mapM (listed_value g.content_paths)
      = .ok (((views principal t).filter fun v =>
          parent_path v.lowercase_path = selected.fold).map View.listed) := by
    rw [Tables.listed_values, direct_rows hg, mapM_map, views, filter_map, map_map]
    exact mapM_eq_ok fun pc hpc =>
      listed_value_eq hg (mem_of_mem_filter (mem_of_mem_filter hpc))
  unfold direct_values
  split_ifs with hemp
  · have hnone : ((readable_rows principal t).filter fun pc =>
        parent_path pc.1.lowercase_path = selected.fold) = [] := by
      rw [← direct_rows hg, isEmpty_iff.mp hemp]
      simp
    rw [views, filter_map, comp_def]
    show (Except.ok [], t) = _
    rw [show (readable_rows principal t).filter (fun pc =>
      decide (parent_path (view (readable_rows principal t) pc).lowercase_path = selected.fold)) = []
      from hnone]
    rfl
  · show ((t.listed_values g.direct).mapM (listed_value g.content_paths), t) = _
    rw [hval]

theorem list_values_eq (hp : context.principal = .ok principal) (path : Text) :
    ((list_values context path).run (serve_read env) t).1
      = ((ConfigPath.parse_selection path).mapError fun _ =>
            Status.invalid_argument "configuration path is invalid") >>= fun selected =>
          listing selected (views principal t) := by
  obtain ⟨actor, hact⟩ := actor_of_principal hp
  unfold list_values
  cases hpar : (ConfigPath.parse_selection path).mapError fun _ =>
      Status.invalid_argument "configuration path is invalid" with
  | error e => rfl
  | ok selected =>
    obtain ⟨g, hfol, hg⟩ := gathered_all principal selected
      fun row (hrow : row ∈ order_by PathRow.lowercase_path t.paths) => mem_order_by.mp hrow
    have hcan : t.path_candidates.foldlM (Candidates.add principal selected) .empty = .ok g :=
      hfol
    have hpat : g.paths = namespaces (views principal t) := by
      rw [hg.paths, readable_paths, namespaces_views]
    rw [hp, hact]
    simp only [bind_eq, lift_eq, done_ok_bind]
    rw [run_bind]
    show (Call.run (serve_read env) ((done (t.path_candidates.foldlM
      (Candidates.add principal selected) .empty)).bind _) t).1 = _
    rw [hcan, done_ok_bind, run_bind, run_direct_values hg]
    simp only [hpat]
    rw [show (Except.ok selected >>= fun selected => listing selected (views principal t))
      = listing selected (views principal t) from rfl, listing]
    cases ((namespaces (views principal t)).toList.map fun entry => entry.2.2).mapM namespace_path with
    | error e => rfl
    | ok paths =>
      rw [done_ok_bind]
      exact run_recorded _ _ _ _

theorem readable_below (hroo : principal.allows root .Read = true) {row : PathRow}
    (hrow : row ∈ t.paths) (hbel : at_or_below row.lowercase_path root.fold = true) :
    readable principal row.lowercase_path = true := by
  obtain ⟨path, hpar, hfol⟩ := parse_stored hrow
  rw [readable, hpar]
  obtain ⟨grant, hgra, hper, hcov⟩ := (allows_iff _ _ _).mp hroo
  refine (allows_iff _ _ _).mpr ⟨grant, hgra, hper, ?_⟩
  rw [← hfol] at hbel
  exact at_or_below_trans hbel hcov

theorem sub_tree_readable (hroo : principal.allows root .Read = true) :
    t.ordered.filter (fun pc => at_or_below pc.1.lowercase_path root.fold)
      = (readable_rows principal t).filter fun pc =>
          at_or_below pc.1.lowercase_path root.fold := by
  rw [readable_rows, filter_filter]
  refine filter_congr fun pc hpc => ?_
  rw [Bool.eq_iff_iff, Bool.and_eq_true]
  exact ⟨fun hbel => ⟨hbel, readable_below hroo (mem_ordered.mp hpc).1 hbel⟩, fun h => h.1⟩

theorem get_sub_tree_eq (hp : context.principal = .ok principal) (path : Text) :
    ((get_sub_tree context path).run (serve_read env) t).1
      = (authorize context path [.Read] true) >>= fun root =>
          .ok (((views principal t).filter fun v =>
            at_or_below v.lowercase_path root.fold).map View.sub_tree_value) := by
  obtain ⟨actor, hact⟩ := actor_of_principal hp
  unfold get_sub_tree
  cases haut : authorize context path [.Read] true with
  | error e => rfl
  | ok root =>
    have hroo : principal.allows root .Read = true :=
      authorize_allows haut hp .Read (by simp)
    have hval : (t.sub_tree_rows root.fold).mapM sub_tree_value
        = .ok (((views principal t).filter fun v =>
            at_or_below v.lowercase_path root.fold).map View.sub_tree_value) := by
      rw [Tables.sub_tree_rows, sub_tree_readable hroo, mapM_map, views, filter_map,
        map_map]
      refine mapM_eq_ok fun pc hpc => ?_
      have hsel := stored_path_eq
        (mem_ordered.mp (mem_of_mem_filter (mem_of_mem_filter hpc))).1
      rw [comp_apply, sub_tree_value, masked_content_eq]
      exact bind_eq_ok.mpr ⟨_, rfl, bind_eq_ok.mpr ⟨_, hsel, rfl⟩⟩
    rw [hact]
    simp only [bind_eq, lift_eq, done_ok_bind]
    rw [run_bind]
    show (Call.run (serve_read env) ((done ((t.sub_tree_rows root.fold).mapM
      sub_tree_value)).bind _) t).1 = _
    rw [hval, done_ok_bind]
    exact run_recorded _ _ _ _

theorem readable_path_loop {rows : List PathRow} (hrows : ∀ row ∈ rows, row ∈ t.paths)
    (paths : List ConfigPath) :
    (rows.map fun row => (⟨row.path, row.lowercase_path⟩ : PathWithFoldRow)).foldlM
        (readable_path principal) paths
      = .ok (paths ++ (rows.filter fun row => readable principal row.lowercase_path).map
          fun row => display_path row.path) := by
  induction rows generalizing paths with
  | nil => simp [pure, Except.pure]
  | cons row rows ih =>
    have hrow := hrows row mem_cons_self
    obtain ⟨path, hpar, -⟩ := parse_stored hrow
    have hste : readable_path principal paths ⟨row.path, row.lowercase_path⟩
        = .ok (if readable principal row.lowercase_path = true
            then paths ++ [display_path row.path] else paths) := by
      simp only [readable_path, readable, hpar, stored_path_eq hrow]
      show (if principal.allows path .Read = true then _ else _) = _
      split_ifs <;> rfl
    rw [map_cons, foldlM_cons, hste]
    show (rows.map _).foldlM (readable_path principal) _ = _
    rw [ih fun r hr => hrows r (mem_cons_of_mem _ hr)]
    by_cases hread : readable principal row.lowercase_path = true
    · simp [hread]
    · simp [hread]

theorem readable_rows_increasing (principal : AuthenticatedPrincipal) (t : Tables) :
    (readable_rows principal t).Pairwise fun a b => a.1.lowercase_path < b.1.lowercase_path :=
  (ordered_increasing t).sublist filter_sublist

theorem views_increasing (principal : AuthenticatedPrincipal) (t : Tables) :
    (views principal t).Pairwise fun v w => v.lowercase_path < w.lowercase_path :=
  pairwise_map.mpr (readable_rows_increasing principal t)

def view_at (vs : List View) (fold : Text) : Option View := row_at View.lowercase_path vs fold

theorem view_at_eq_some {v : View} :
    view_at (views principal t) fold = some v ↔ v ∈ views principal t ∧ v.lowercase_path = fold :=
  row_at_eq_some (pairwise_map.mpr ((views_increasing principal t).imp ne_of_lt))

theorem view_at_stored (hread : readable principal fold = true) :
    view_at (views principal t) fold = (t.path_row fold).bind fun row =>
      (t.content_row row.content_id).map fun c => view (readable_rows principal t) (row, c) := by
  cases hrow : t.path_row fold with
  | none =>
    refine row_at_eq_none.mpr fun v hv hfol => ?_
    obtain ⟨pc, hpc, rfl⟩ := mem_map.mp hv
    exact row_at_eq_none.mp hrow pc.1 (mem_ordered.mp (mem_of_mem_filter hpc)).1 hfol
  | some row =>
    obtain ⟨hmem, rfl⟩ := path_row_eq_some.mp hrow
    obtain ⟨c, hc⟩ := content_row_of_path hmem
    rw [Option.bind_some, hc, Option.map_some, view_at_eq_some]
    have hord := mem_ordered.mpr ⟨hmem, content_row_eq_some.mp hc⟩
    exact ⟨mem_map_of_mem (mem_filter.mpr ⟨hord, hread⟩), rfl⟩

theorem readable_fold (path : ConfigPath) :
    readable principal path.fold = principal.allows path .Read := by
  have hfol : path.folded.fold = path.fold := lower_lower path.path
  rw [readable, parse_of_fold]
  simp only [AuthenticatedPrincipal.allows, hfol]

theorem list_value_paths_eq (hp : context.principal = .ok principal) (path : Text) :
    ((list_value_paths context path).run (serve_read env) t).1
      = (authorize context path [.Read] false) >>= fun path =>
          match view_at (views principal t) path.fold with
          | none => .error (.not_found "configuration value not found")
          | some v => .ok (v.paths.map display_path) := by
  unfold list_value_paths
  cases haut : authorize context path [.Read] false with
  | error e => rfl
  | ok path =>
    have hread : readable principal path.fold = true :=
      (readable_fold path).trans (authorize_allows haut hp .Read (by simp))
    show _ = match view_at (views principal t) path.fold with
      | none => _
      | some v => _
    rw [hp, view_at_stored hread]
    simp only [bind_eq, lift_eq, done_ok_bind]
    rw [run_bind]
    simp only [fetch_rows, run_ask, serve_read, run_done]
    cases hrow : t.path_row path.fold with
    | none => rfl
    | some row =>
      obtain ⟨c, hc⟩ := content_row_of_path (path_row_eq_some.mp hrow).1
      have hrows : ∀ r ∈ (order_by PathRow.lowercase_path t.paths).filter fun p =>
          p.content_id == row.content_id, r ∈ t.paths :=
        fun r hr => mem_order_by.mp (mem_of_mem_filter hr)
      have hsam : ((order_by PathRow.lowercase_path t.paths).filter fun p =>
            p.content_id == row.content_id).filter
              (fun r => readable principal r.lowercase_path)
          = ((readable_rows principal t).filter fun other =>
              other.1.content_id == row.content_id).map Prod.fst := by
        rw [filter_comm, readable_paths, filter_map]
        rfl
      rw [Option.bind_some, hc, Option.map_some]
      show (t.paths_of_content row.content_id).foldlM (readable_path principal) [] = _
      rw [Tables.paths_of_content, readable_path_loop hrows, nil_append, hsam, map_map]
      show _ = Except.ok (((view (readable_rows principal t) (row, c)).paths).map display_path)
      rw [view, map_map]
      rfl

end Run

/-! ## Stores that agree -/

def Shows (principal : AuthenticatedPrincipal) (t : Tables) (path : Text)
    (created_at : OffsetDateTime) (value : ValueContent)
    (content_created_at content_updated_at : OffsetDateTime) : Prop :=
  ∃ p ∈ t.paths, ∃ c ∈ t.contents, c.id = p.content_id ∧
    readable principal p.lowercase_path = true ∧ p.path = path ∧ p.created_at = created_at ∧
    c.masked = value ∧ c.created_at = content_created_at ∧ c.updated_at = content_updated_at

def Together (principal : AuthenticatedPrincipal) (t : Tables) (path path' : Text) : Prop :=
  ∃ p ∈ t.paths, ∃ p' ∈ t.paths, readable principal p.lowercase_path = true ∧
    readable principal p'.lowercase_path = true ∧ p.path = path ∧ p'.path = path' ∧
    p.content_id = p'.content_id

/-- The tables agree on the rows that the principal can read and on which of them are aliases. -/
structure SameReadable (principal : AuthenticatedPrincipal) (t t' : Tables) : Prop where
  values : ∀ path created_at value content_created_at content_updated_at,
    Shows principal t path created_at value content_created_at content_updated_at ↔
      Shows principal t' path created_at value content_created_at content_updated_at
  aliases : ∀ path path', Together principal t path path' ↔ Together principal t' path path'

theorem mem_readable_rows :
    (p, c) ∈ readable_rows principal t ↔ (p ∈ t.paths ∧ c ∈ t.contents ∧ c.id = p.content_id) ∧
      readable principal p.lowercase_path = true := by
  rw [readable_rows, mem_filter, mem_ordered]

theorem mem_view_paths (h : (p, c) ∈ readable_rows principal t) {path' : Text} :
    path' ∈ (view (readable_rows principal t) (p, c)).paths ↔ Together principal t p.path path' := by
  obtain ⟨⟨hp, -, -⟩, hread⟩ := mem_readable_rows.mp h
  simp only [view, mem_map, mem_filter, beq_iff_eq, Prod.exists]
  constructor
  · rintro ⟨p', c', ⟨hmem, hid⟩, rfl⟩
    obtain ⟨⟨hp', -, -⟩, hread'⟩ := mem_readable_rows.mp hmem
    exact ⟨p, hp, p', hp', hread, hread', rfl, rfl, hid.symm⟩
  · rintro ⟨q, hq, p', hp', -, hread', hpat, rfl, hid⟩
    -- A display path is one row's only: the fold is the key.
    have hsam : q = p :=
      inj_on_of_nodup_map t.unique_path hq hp (congrArg to_ascii_lowercase hpat)
    obtain ⟨c', hc', hid'⟩ := t.content_exists p' hp'
    refine ⟨p', c', ⟨mem_readable_rows.mpr ⟨⟨hp', hc', hid'⟩, hread'⟩, ?_⟩, rfl⟩
    rw [← hid, hsam]

theorem view_paths_increasing (pc : PathRow × ContentRow) :
    (view (readable_rows principal t) pc).paths.Pairwise
      fun a b => to_ascii_lowercase a < to_ascii_lowercase b :=
  pairwise_map.mpr ((readable_rows_increasing principal t).sublist filter_sublist)

variable {v : View}

theorem mem_views :
    v ∈ views principal t ↔
      Shows principal t v.path v.created_at v.value v.content_created_at v.content_updated_at ∧
      v.paths.Pairwise (fun a b => to_ascii_lowercase a < to_ascii_lowercase b) ∧
      ∀ path', path' ∈ v.paths ↔ Together principal t v.path path' := by
  constructor
  · intro hv
    obtain ⟨⟨p, c⟩, hmem, rfl⟩ := mem_map.mp hv
    obtain ⟨⟨hp, hc, hid⟩, hread⟩ := mem_readable_rows.mp hmem
    exact ⟨⟨p, hp, c, hc, hid, hread, rfl, rfl, rfl, rfl, rfl⟩, view_paths_increasing _,
      fun path' => mem_view_paths hmem⟩
  · rintro ⟨⟨p, hp, c, hc, hid, hread, hpat, hcre, hval, hccr, hcup⟩, hsor, hmem⟩
    have hrow : (p, c) ∈ readable_rows principal t :=
      mem_readable_rows.mpr ⟨⟨hp, hc, hid⟩, hread⟩
    have hpath : (view (readable_rows principal t) (p, c)).paths = v.paths := by
      refine eq_of_increasing (view_paths_increasing _) hsor fun path' => ?_
      rw [mem_view_paths hrow, hmem, hpat]
    have heq : view (readable_rows principal t) (p, c) = v := by
      cases v
      subst hpat hcre hval hccr hcup hpath
      rfl
    rw [← heq]
    exact mem_map_of_mem hrow

theorem views_eq (h : SameReadable principal t t') : views principal t = views principal t' := by
  refine eq_of_increasing (views_increasing principal t) (views_increasing principal t') fun v => ?_
  rw [mem_views, mem_views, h.values]
  simp only [h.aliases]

/-! ## Only what is readable -/

theorem allows_display (hrow : row ∈ t.paths)
    (hread : readable principal row.lowercase_path = true) :
    principal.allows (display_path row.path) .Read = true := by
  have hfol : (display_path row.path).fold = row.lowercase_path := by
    rw [display_path, dif_pos (t.path_grammar row hrow)]
    rfl
  rw [← readable_fold, hfol]
  exact hread

theorem allows_view (hv : v ∈ views principal t) :
    principal.allows (display_path v.path) .Read = true ∧
      ∀ path ∈ v.paths, principal.allows (display_path path) .Read = true := by
  obtain ⟨⟨p, hp, -, -, -, hread, hpath, -⟩, -, hpat⟩ := mem_views.mp hv
  refine ⟨hpath ▸ allows_display hp hread, fun path hmem => ?_⟩
  obtain ⟨-, -, p', hp', -, hread', -, rfl, -⟩ := (hpat path).mp hmem
  exact allows_display hp' hread'

section Results

variable {context : CallContext} {env : ReadEnv}

variable {path : Text}

section Authenticated

variable (hp : context.principal = .ok principal)
include hp

theorem listed_allowed {found : ValueListing}
    (h : ((list_values context path).run (serve_read env) t).1 = .ok found) :
    ∀ v ∈ found.values, principal.allows v.path .Read = true ∧
      ∀ other ∈ v.alias_paths, principal.allows other .Read = true := by
  rw [list_values_eq hp] at h
  obtain ⟨selected, -, h⟩ := bind_eq_ok.mp h
  obtain ⟨paths, -, h⟩ := bind_eq_ok.mp h
  obtain rfl := Except.ok.inj h
  intro v hv
  obtain ⟨w, hw, rfl⟩ := mem_map.mp hv
  have hall := allows_view (mem_of_mem_filter hw)
  refine ⟨hall.1, fun other hoth => ?_⟩
  obtain ⟨path, hpat, rfl⟩ := mem_map.mp hoth
  exact hall.2 path (mem_of_mem_filter hpat)

theorem sub_tree_allowed {found : List SubTreeValue}
    (h : ((get_sub_tree context path).run (serve_read env) t).1 = .ok found) :
    ∀ v ∈ found, principal.allows v.path .Read = true := by
  rw [get_sub_tree_eq hp] at h
  obtain ⟨root, -, h⟩ := bind_eq_ok.mp h
  obtain rfl := Except.ok.inj h
  intro v hv
  obtain ⟨w, hw, rfl⟩ := mem_map.mp hv
  exact (allows_view (mem_of_mem_filter hw)).1

theorem value_paths_allowed {found : List ConfigPath}
    (h : ((list_value_paths context path).run (serve_read env) t).1 = .ok found) :
    ∀ other ∈ found, principal.allows other .Read = true := by
  rw [list_value_paths_eq hp] at h
  obtain ⟨path, -, h⟩ := bind_eq_ok.mp h
  cases hvie : view_at (views principal t) path.fold with
  | none => simp [hvie] at h
  | some v =>
    rw [hvie] at h
    obtain rfl := Except.ok.inj h
    intro other hoth
    obtain ⟨path, hpat, rfl⟩ := mem_map.mp hoth
    exact (allows_view (view_at_eq_some.mp hvie).1).2 path hpat

theorem sub_tree_complete {root : ConfigPath}
    (haut : authorize context path [.Read] true = .ok root) :
    ∃ found, ((get_sub_tree context path).run (serve_read env) t).1 = .ok found ∧
      ∀ p ∈ t.paths, ∀ c ∈ t.contents, c.id = p.content_id →
        at_or_below p.lowercase_path root.fold = true →
        ∃ v ∈ found, v.path.as_str = p.path ∧ v.value = c.masked := by
  rw [get_sub_tree_eq hp, haut]
  refine ⟨_, rfl, fun p hmem c hc hid hbel => ?_⟩
  have hread := readable_below (authorize_allows haut hp .Read (by simp)) hmem hbel
  have hrow : (p, c) ∈ readable_rows principal t :=
    mem_readable_rows.mpr ⟨⟨hmem, hc, hid⟩, hread⟩
  refine ⟨_, mem_map_of_mem (mem_filter.mpr ⟨mem_map_of_mem hrow, hbel⟩), ?_, rfl⟩
  show (display_path p.path).path = p.path
  rw [display_path, dif_pos (t.path_grammar p hmem)]

end Authenticated

end Results

/-- **Reads reveal only what the grants cover.** -/
theorem reads_reveal_only_readable (principal : AuthenticatedPrincipal) (context : CallContext)
    (hp : context.principal = .ok principal) :
    (∀ t t', SameReadable principal t t' → ∀ (env env' : ReadEnv) (path : Text),
      ((list_values context path).run (serve_read env) t).1
        = ((list_values context path).run (serve_read env') t').1 ∧
      ((get_sub_tree context path).run (serve_read env) t).1
        = ((get_sub_tree context path).run (serve_read env') t').1 ∧
      ((list_value_paths context path).run (serve_read env) t).1
        = ((list_value_paths context path).run (serve_read env') t').1) ∧
    ∀ (t : Tables) (env : ReadEnv) (path : Text),
      (∀ found, ((list_values context path).run (serve_read env) t).1 = .ok found →
        ∀ v ∈ found.values, principal.allows v.path .Read = true ∧
          ∀ other ∈ v.alias_paths, principal.allows other .Read = true) ∧
      (∀ found, ((get_sub_tree context path).run (serve_read env) t).1 = .ok found →
        ∀ v ∈ found, principal.allows v.path .Read = true) ∧
      (∀ found, ((list_value_paths context path).run (serve_read env) t).1 = .ok found →
        ∀ other ∈ found, principal.allows other .Read = true) ∧
      ∀ root, authorize context path [.Read] true = .ok root →
        ∃ found, ((get_sub_tree context path).run (serve_read env) t).1 = .ok found ∧
          ∀ p ∈ t.paths, ∀ c ∈ t.contents, c.id = p.content_id →
            at_or_below p.lowercase_path root.fold = true →
            ∃ v ∈ found, v.path.as_str = p.path ∧ v.value = c.masked := by
  refine ⟨fun t t' hsam env env' path => ?_, fun t env path => ?_⟩
  · have hvie := views_eq hsam
    refine ⟨?_, ?_, ?_⟩
    · rw [list_values_eq hp, list_values_eq hp, hvie]
    · rw [get_sub_tree_eq hp, get_sub_tree_eq hp, hvie]
    · rw [list_value_paths_eq hp, list_value_paths_eq hp, hvie]
  · exact ⟨fun _ h => listed_allowed hp h, fun _ h => sub_tree_allowed hp h,
      fun _ h => value_paths_allowed hp h, fun _ h => sub_tree_complete hp h⟩

theorem same_readable_of_rows (hcon : t.contents = t'.contents)
    (hpat : ∀ p : PathRow, readable principal p.lowercase_path = true →
      (p ∈ t.paths ↔ p ∈ t'.paths)) : SameReadable principal t t' := by
  constructor
  · intro path created_at value content_created_at content_updated_at
    unfold Shows
    rw [hcon]
    constructor
    · rintro ⟨p, hp, c, hc, hid, hread, hres⟩
      exact ⟨p, (hpat p hread).mp hp, c, hc, hid, hread, hres⟩
    · rintro ⟨p, hp, c, hc, hid, hread, hres⟩
      exact ⟨p, (hpat p hread).mpr hp, c, hc, hid, hread, hres⟩
  · intro path path'
    constructor
    · rintro ⟨p, hp, p', hp', hread, hread', hres⟩
      exact ⟨p, (hpat p hread).mp hp, p', (hpat p' hread').mp hp', hread, hread', hres⟩
    · rintro ⟨p, hp, p', hp', hread, hread', hres⟩
      exact ⟨p, (hpat p hread).mpr hp, p', (hpat p' hread').mpr hp', hread, hread', hres⟩

def reader_of_a : AuthenticatedPrincipal := ⟨"reader".toList, none, [⟨"/a".toList, [.Read]⟩]⟩

def value_at_a : Db :=
  (perform quiet_env (put_value operator "/a".toList (some (.Plain "x".toList))) .empty).2

def value_at_a_and_b : Db :=
  (perform quiet_env (add_value_path operator ⟨"/a".toList, "/x/b".toList⟩) value_at_a).2

/-- The reader of `/a` cannot tell that its value is also at `/x/b`. -/
theorem reads_hide_alias_of_a :
    let context : CallContext := ⟨some reader_of_a, none⟩
    let env : ReadEnv := ⟨0, fun _ _ _ => .error .NotEncrypted, true⟩
    SameReadable reader_of_a value_at_a.committed value_at_a_and_b.committed ∧
      ((list_values context root_text).run (serve_read env) value_at_a.committed).1
        = ((list_values context root_text).run (serve_read env) value_at_a_and_b.committed).1 := by
  intro context env
  have hsam : SameReadable reader_of_a value_at_a.committed value_at_a_and_b.committed := by
    refine same_readable_of_rows rfl fun p hread => ?_
    have hpat : value_at_a_and_b.committed.paths
        = value_at_a.committed.paths ++ [⟨"/x/b".toList, 1, 0, 0⟩] := rfl
    rw [hpat, mem_append, mem_singleton]
    refine (or_iff_left fun heq => ?_).symm
    rw [heq] at hread
    exact absurd hread (by decide)
  exact ⟨hsam, ((reads_reveal_only_readable reader_of_a context rfl).1 _ _ hsam env env _).1⟩

end SovereignConfig.Values
