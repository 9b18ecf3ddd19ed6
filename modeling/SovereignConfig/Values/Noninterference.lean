/-
Secret noninterference: each operation translates, request by request, to itself with the secrets
hidden.
-/
import SovereignConfig.Values.Hidden
import SovereignConfig.Values.Sealed

namespace SovereignConfig.Values

open Lib Text List Call

theorem hides_query (q : Request) :
    hides.Calls (fun a b => b = q.hide_row a) (query q) (query q.hidden) :=
  .ask trivial fun a => .done (agree_map a)

theorem hides_lift {α : Type} (r : Except Status α) :
    hides.Calls Eq (Call.lift r : Service α) (Call.lift r) := .done (agree_refl r)

theorem hides_silent {α : Type} {f : α → Service Unit} (l : List α)
    (h : ∀ a, hides.Calls (fun _ _ => True) (f a) (f a)) : hides.Calls Eq (l.forM f) (l.forM f) :=
  Translation.Calls.forM (fun a => (h a).mono fun _ _ _ => rfl) l

theorem hides_lock_mutation_path (path : ConfigPath) :
    hides.Calls Eq (lock_mutation_path path) (lock_mutation_path path) :=
  hides_silent (mutation_locks path) fun lock =>
    (hides_query (.lock_path lock.key lock.exclusive)).mono fun _ _ _ => trivial

theorem hides_prune_orphan_contents (ids : List ℕ) :
    hides.Calls Eq (prune_orphan_contents ids) (prune_orphan_contents ids) := by
  unfold prune_orphan_contents
  split
  · exact .done (agree_refl _)
  · refine .then_same (hides_silent ids fun id =>
      (hides_query (.lock_content id)).mono fun _ _ _ => trivial) fun _ => ?_
    exact (hides_query (.delete_orphan_contents ids)).mono fun _ _ _ => rfl

theorem hides_record_in {actor : Actor} {now : OffsetDateTime} {events events' : List AuditEvent}
    (h : events' = events) :
    hides.Calls Eq (record_in actor now events) (record_in actor now events') := by
  rw [h]
  exact (hides_query (.insert_events actor now events)).mono fun _ _ _ => rfl

theorem hides_commit {α : Type} (a : α) :
    hides.Calls Eq (store.commit.bind fun _ => (pure a : Service α))
      (store.commit.bind fun _ => pure a) :=
  (hides_query .commit).then_map fun _ => .done (agree_refl _)

/-! ## `put_value` -/

theorem recorded_hide (classification : Classification) (value : Text) :
    Recorded.of classification (hide classification value) = Recorded.of classification value := by
  cases classification <;> rfl

theorem hides_stored_representation (id : ℕ) (classification : Classification) (value : Text) :
    hides.Calls (fun a b => b = hide classification a)
      (stored_representation id classification value)
      (stored_representation id classification (hide classification value)) := by
  cases classification with
  | PLAIN => exact .done (.ok rfl)
  | SECRET => exact hides_query (.encrypt id .SECRET value)

theorem hides_overwrite_existing (existing : PathContentClassRow) (value : Text)
    (classification : Classification) (now : OffsetDateTime) :
    hides.Calls Eq (overwrite_existing existing value classification now)
      (overwrite_existing existing.hidden (hide classification value) classification now) := by
  unfold overwrite_existing
  have hcou : existing.hidden.path_count = existing.path_count := rfl
  have hcla : existing.hidden.classification = existing.classification := rfl
  have hid : existing.hidden.content_id = existing.content_id := rfl
  rw [hcou, hcla, hid]
  split
  · exact .done (agree_refl _)
  · refine (hides_stored_representation _ _ _).then_map fun stored => ?_
    exact (hides_query (.update_content existing.content_id stored classification now)).mono
      fun _ _ h => h.symm

theorem hides_create_value (path : ConfigPath) (value : Text) (classification : Classification)
    (now : OffsetDateTime) :
    hides.Calls Eq (create_value path value classification now)
      (create_value path (hide classification value) classification now) := by
  refine (hides_query (.path_collides path.fold)).then_map fun collides => ?_
  cases collides with
  | true => exact .done (.error _)
  | false =>
    refine (hides_query .reserve_content_id).then_map fun id => ?_
    refine (hides_stored_representation id classification value).then_map fun stored => ?_
    refine (hides_query (.insert_content id stored classification now)).then_map fun content => ?_
    refine (hides_query (.insert_path path.as_str content.id now)).then_map fun _ => ?_
    exact .done (agree_refl _)

theorem hides_write_value (path : ConfigPath) (existing : Option PathContentClassRow)
    (value : Text) (classification : Classification) (now : OffsetDateTime) :
    hides.Calls Eq (write_value path existing value classification now)
      (write_value path (existing.map PathContentClassRow.hidden) (hide classification value)
        classification now) := by
  cases existing with
  | some existing => exact hides_overwrite_existing existing value classification now
  | none => exact hides_create_value path value classification now

theorem put_event_hidden (actor : Actor) (path : ConfigPath)
    (existing : Option PathContentClassRow) (classification : Classification) (value : Text) :
    put_event actor path (existing.map PathContentClassRow.hidden)
        (.of classification (hide classification value)) =
      put_event actor path existing (.of classification value) := by
  rw [recorded_hide]
  cases existing with
  | none => rfl
  | some existing =>
    show AuditEvent.value_updated actor path.as_str
      (.of existing.classification (hide existing.classification existing.value)) _ = _
    rw [recorded_hide]
    rfl

def PutContent.hidden : PutContent → PutContent
  | Plain value => Plain value
  | Secret _ => Secret []

def PutContent.nul_free : PutContent → Prop
  | Plain _ => True
  | Secret value => contains_char value '\x00' = false

theorem hides_put_content (written : Option PutContent) (h : ∀ w ∈ written, w.nul_free) :
    hides.Calls (fun a b => b = (hide a.2 a.1, a.2) ∧
        contains_char (hide a.2 a.1) '\x00' = contains_char a.1 '\x00')
      (Call.lift (put_content written)) (Call.lift (put_content (written.map PutContent.hidden))) := by
  rcases written with _ | text | text
  · exact .done (.error _)
  · exact .done (.ok ⟨rfl, rfl⟩)
  · exact .done (.ok ⟨rfl, (h _ rfl).symm⟩)

theorem hides_put_value (context : CallContext) (path : Text) (written : Option PutContent)
    (h : ∀ w ∈ written, w.nul_free) :
    hides.Calls Eq (put_value context path written)
      (put_value context path (written.map PutContent.hidden)) := by
  refine (hides_lift _).then_same fun p => ?_
  refine (hides_put_content written h).bind fun content _ hcon => ?_
  obtain ⟨value, classification⟩ := content
  obtain ⟨rfl, hnul⟩ := hcon
  simp only [hnul]
  split
  · exact .done (.error _)
  · refine (hides_lift _).then_same fun actor => ?_
    refine (hides_query .begin).then_map fun _ => ?_
    refine (hides_lock_mutation_path p).then_same fun _ => ?_
    refine (hides_query .system_time).then_map fun now => ?_
    refine (hides_query (.path_content_class p.fold)).then_map fun existing => ?_
    refine (hides_write_value p existing value classification now).then_same fun row => ?_
    refine (hides_record_in (congrArg (fun event => [event])
      (put_event_hidden actor p existing classification value))).then_same fun _ => ?_
    exact hides_commit _

/-! ## `delete_values` and `add_value_path` -/

theorem content_ids_hidden (rows : List DeletedPathRow) :
    content_ids (rows.map DeletedPathRow.hidden) = content_ids rows := by
  unfold content_ids
  rw [map_map]
  rfl

theorem deleted_events_hidden (actor : Actor) (rows : List DeletedPathRow) :
    (rows.map DeletedPathRow.hidden).map (fun row =>
        AuditEvent.value_deleted actor row.path (.of row.classification row.value)) =
      rows.map fun row =>
        AuditEvent.value_deleted actor row.path (.of row.classification row.value) := by
  rw [map_map]
  refine map_congr_left fun row _ => ?_
  exact congrArg (AuditEvent.value_deleted actor row.path)
    (recorded_hide row.classification row.value)

theorem deletion_events_hidden (actor : Actor) (root : ConfigPath) (rows : List DeletedPathRow)
    (recurse : Bool) :
    deletion_events actor root (rows.map DeletedPathRow.hidden) recurse =
      deletion_events actor root rows recurse := by
  unfold deletion_events
  rw [deleted_events_hidden, length_map]

theorem hides_delete_values (context : CallContext) (path : Text) (recurse : Bool) :
    hides.Calls Eq (delete_values context path recurse) (delete_values context path recurse) := by
  refine (hides_lift _).then_same fun p => ?_
  refine (hides_lift _).then_same fun actor => ?_
  refine (hides_query .begin).then_map fun _ => ?_
  refine (hides_lock_mutation_path p).then_same fun _ => ?_
  refine (hides_query (.delete_paths p.fold recurse)).bind
    fun (deleted hidden : List DeletedPathRow) (h : hidden = deleted.map _) => ?_
  have hemp : hidden.isEmpty = deleted.isEmpty := by rw [h, isEmpty_map]
  have hlength : hidden.length = deleted.length := by rw [h, length_map]
  have hids : content_ids hidden = content_ids deleted := by rw [h, content_ids_hidden]
  have heve : deletion_events actor p hidden recurse = deletion_events actor p deleted recurse := by
    rw [h, deletion_events_hidden]
  rw [hemp, hlength, hids, heve]
  split
  · exact .done (.error _)
  · refine (hides_prune_orphan_contents _).then_same fun _ => ?_
    refine (hides_query .system_time).then_map fun deleted_at => ?_
    refine (hides_record_in rfl).then_same fun _ => ?_
    exact hides_commit _

theorem hides_add_value_path (context : CallContext) (paths : AliasPaths) :
    hides.Calls Eq (add_value_path context paths) (add_value_path context paths) := by
  refine (hides_lift _).then_same fun names => ?_
  obtain ⟨actor, source, new_path⟩ := names
  refine (hides_query .begin).then_map fun _ => ?_
  refine (hides_lock_mutation_path _).then_same fun _ => ?_
  refine (hides_lock_mutation_path _).then_same fun _ => ?_
  refine (hides_query (.content_id_at source.fold)).then_map fun found => ?_
  cases found with
  | none => exact .done (.error _)
  | some id =>
    refine (hides_query (.path_is_occupied new_path.fold)).then_map fun occupied => ?_
    cases occupied with
    | true => exact .done (.error _)
    | false =>
      refine (hides_query (.path_collides new_path.fold)).then_map fun collides => ?_
      cases collides with
      | true => exact .done (.error _)
      | false =>
        refine (hides_query .system_time).then_map fun now => ?_
        refine (hides_query (.insert_path new_path.as_str id now)).then_map fun _ => ?_
        refine (hides_record_in rfl).then_same fun _ => ?_
        exact hides_commit _

/-! ## `replace_sub_tree` -/

theorem hides_resolve_plain_writes (values : List SubTreeEntry) :
    hides.Calls Eq (resolve_plain_writes values) (resolve_plain_writes values) := by
  refine Translation.Calls.foldlM (fun writes _ value h => ?_) values _ _ rfl
  subst h
  rcases value with ⟨path, _ | _ | _⟩
  · exact .done (agree_refl _)
  · exact (hides_query (.content_id_at path)).then_map fun _ => hides_lift _
  · exact .done (agree_refl _)

def HiddenPrevious (previous hidden : Std.TreeMap ℕ PreviousContentRow) : Prop :=
  ∀ id : ℕ, hidden[id]? = previous[id]?.map PreviousContentRow.hidden

variable {previous : Std.TreeMap ℕ PreviousContentRow}

theorem HiddenPrevious.insert {hidden : Std.TreeMap ℕ PreviousContentRow}
    (h : HiddenPrevious previous hidden) (id : ℕ) (row : PreviousContentRow) :
    HiddenPrevious (previous.insert id row) (hidden.insert id row.hidden) := by
  intro other
  rw [Std.TreeMap.getElem?_insert, Std.TreeMap.getElem?_insert]
  split
  · rfl
  · exact h other

theorem hides_update_shared (now : OffsetDateTime) (shared : List (ℕ × Text)) :
    hides.Calls HiddenPrevious (update_shared now shared) (update_shared now shared) := by
  refine Translation.Calls.foldlM (fun previous hidden write h => ?_) shared _ _ fun _ => rfl
  refine (hides_query (.update_plain_content write.1 write.2 now)).then_map fun row => ?_
  exact .done (.ok (h.insert write.1 row))

theorem hides_insert_fresh (now : OffsetDateTime) (displays : Displays)
    (fresh : List (Text × Text)) :
    hides.Calls Eq (insert_fresh now displays fresh) (insert_fresh now displays fresh) := by
  refine hides_silent fresh fun write => ?_
  refine (hides_query .reserve_content_id).then_map fun id => ?_
  refine (hides_query (.insert_content id write.2 .PLAIN now)).then_map fun inserted => ?_
  exact (hides_query (.insert_path _ inserted.id now)).mono fun _ _ _ => trivial

theorem updated_events_hidden (actor : Actor) {changes changes' : SubtreeChanges}
    (hwri : changes'.writes = changes.writes) (hdis : changes'.displays = changes.displays)
    (hprevious : HiddenPrevious changes.previous changes'.previous) :
    updated_events actor changes' = updated_events actor changes := by
  unfold updated_events
  rw [hwri, hdis]
  refine congrArg (fun f => changes.writes.shared_paths.filterMap f) (funext fun pair => ?_)
  obtain ⟨fold, id⟩ := pair
  simp only [hprevious id]
  cases changes.previous[id]? with
  | none => rfl
  | some before =>
    cases changes.writes.shared[id]? with
    | none => rfl
    | some after =>
      obtain ⟨value, classification⟩ := before
      cases classification with
      | PLAIN => rfl
      | SECRET => simp [PreviousContentRow.hidden, Recorded.of]

theorem replacement_events_hidden (actor : Actor) (root : ConfigPath)
    (cleared : List DeletedPathRow) (writes : ResolvedWrites) (displays : Displays)
    {hidden : Std.TreeMap ℕ PreviousContentRow} (h : HiddenPrevious previous hidden) :
    replacement_events actor root ⟨cleared.map DeletedPathRow.hidden, writes, hidden, displays⟩ =
      replacement_events actor root ⟨cleared, writes, previous, displays⟩ := by
  have hupd : updated_events actor
        ⟨cleared.map DeletedPathRow.hidden, writes, hidden, displays⟩ =
      updated_events actor ⟨cleared, writes, previous, displays⟩ :=
    updated_events_hidden actor rfl rfl h
  unfold replacement_events
  rw [deleted_events_hidden, hupd]

theorem hides_replace_sub_tree (context : CallContext) (path : Text) (values : List SubTreeEntry) :
    hides.Calls Eq (replace_sub_tree context path values) (replace_sub_tree context path values) := by
  refine (hides_lift _).then_same fun root => ?_
  refine (hides_lift _).then_same fun normalized => ?_
  refine (hides_lift _).then_same fun actor => ?_
  refine (hides_query .begin).then_map fun _ => ?_
  refine (hides_lock_mutation_path root).then_same fun _ => ?_
  refine (hides_query (.secret_paths_touching root.fold)).then_map fun secret_paths => ?_
  refine (hides_lift _).then_same fun keep => ?_
  refine (hides_query .system_time).then_map fun now => ?_
  refine (hides_query (.delete_plain_paths_except root.fold keep)).bind
    fun (cleared hidden : List DeletedPathRow) (h : hidden = cleared.map _) => ?_
  have hids : content_ids hidden = content_ids cleared := by rw [h, content_ids_hidden]
  rw [hids]
  refine (hides_prune_orphan_contents _).then_same fun _ => ?_
  refine (hides_resolve_plain_writes _).then_same fun writes => ?_
  refine (hides_update_shared _ _).bind fun previous _ hprevious => ?_
  refine (hides_insert_fresh _ _ _).then_same fun _ => ?_
  subst h
  refine (hides_record_in (replacement_events_hidden actor root cleared writes
    normalized.displays hprevious)).then_same fun _ => ?_
  exact hides_commit _

/-! ## Every mutation -/

def Mutation.hidden : Mutation → Mutation
  | put_value path written => put_value path (written.map PutContent.hidden)
  | mutation => mutation

def Mutation.nul_free : Mutation → Prop
  | put_value _ written => ∀ w ∈ written, w.nul_free
  | _ => True

theorem hides_mutation (context : CallContext) (mutation : Mutation) (h : mutation.nul_free) :
    hides.Calls Eq (mutation.call context) (mutation.hidden.call context) := by
  cases mutation with
  | put_value path written =>
    exact (hides_put_value context path written h).then_same fun _ => .done (agree_refl _)
  | replace_sub_tree path values =>
    exact (hides_replace_sub_tree context path values).then_same fun _ => .done (agree_refl _)
  | delete_values path recurse =>
    exact (hides_delete_values context path recurse).then_same fun _ => .done (agree_refl _)
  | add_value_path paths =>
    exact (hides_add_value_path context paths).then_same fun _ => .done (agree_refl _)

theorem perform_hidden {env : Env} (hsea : env.Seals) (context : CallContext)
    {mutation : Mutation} (h : mutation.nul_free) (db : Db) :
    perform env.hidden (mutation.hidden.call context) db.hidden =
      ((perform env (mutation.call context) db).1,
        (perform env (mutation.call context) db).2.hidden) := by
  have hser : ∀ (q : Request) (db : Db), hides.covers q →
      exec env.hidden (hides.request q) db.hidden =
        (hides.answer q (exec env q db).1, (exec env q db).2.hidden) :=
    fun q db _ => exec_hidden hsea q db
  obtain ⟨hres, hdb⟩ := Translation.Calls.run hser (hides_mutation context mutation h) db
  unfold perform
  simp only [hdb, ← hres.eq]
  rfl

/-! ## Reads -/

theorem reads_query {q : ReadRequest} (h : read_hides.covers q) :
    read_hides.Calls (fun a b => b = q.hide_row a) (fetch_rows q) (fetch_rows q) :=
  .ask h fun a => .done (agree_map a)

theorem reads_lift {α : Type} (r : Except Status α) :
    read_hides.Calls Eq (Call.lift r : Read α) (Call.lift r) := .done (agree_refl r)

theorem reads_record (actor : Actor) (event : AuditEvent) :
    read_hides.Calls Eq (record actor event) (record actor event) := by
  refine (reads_query (q := .now_utc) trivial).then_map fun now => ?_
  exact (reads_query (q := .insert_event actor now event) trivial).mono fun _ _ _ => rfl

theorem reads_record_best_effort (actor : Actor) (event : AuditEvent) :
    read_hides.Calls Eq (record_best_effort actor event) (record_best_effort actor event) :=
  (reads_record actor event).attempt.bind fun _ _ _ => .done (agree_refl _)

theorem masked_content_hide (value : Text) (classification : Classification) :
    masked_content (hide classification value) classification =
      masked_content value classification := by
  cases classification <;> rfl

theorem sub_tree_value_hidden (row : SubTreeRow) : sub_tree_value row.hidden = sub_tree_value row := by
  unfold sub_tree_value
  show (masked_content (hide row.classification row.value) row.classification).elim _ _ >>= _ = _
  rw [masked_content_hide]
  rfl

theorem listed_value_hidden (content_paths : Std.TreeMap ℕ (List (Text × Text)))
    (row : ListedValueRow) :
    listed_value content_paths row.hidden = listed_value content_paths row := by
  unfold listed_value
  show (masked_content (hide row.classification row.value) row.classification).elim _ _ >>= _ = _
  rw [masked_content_hide]
  rfl

theorem mapM_hidden {α β : Type} {f : α → Except Status β} {g : α → α} (h : ∀ a, f (g a) = f a)
    (l : List α) : (l.map g).mapM f = l.mapM f := by
  rw [mapM_map]
  exact congrArg (fun f => l.mapM f) (funext h)

theorem reads_get_sub_tree (context : CallContext) (path : Text) :
    read_hides.Calls Eq (get_sub_tree context path) (get_sub_tree context path) := by
  refine (reads_lift _).then_same fun p => ?_
  refine (reads_lift _).then_same fun actor => ?_
  refine (reads_query (q := .sub_tree_rows p.fold) trivial).bind
    fun (rows hidden : List SubTreeRow) (h : hidden = rows.map _) => ?_
  have hval : hidden.mapM sub_tree_value = rows.mapM sub_tree_value := by
    rw [h, mapM_hidden sub_tree_value_hidden]
  rw [hval]
  refine (reads_lift _).then_same fun values => ?_
  refine (reads_record_best_effort _ _).then_same fun _ => ?_
  exact .done (agree_refl _)

theorem reads_direct_values (gathered : Candidates) :
    read_hides.Calls Eq (direct_values gathered) (direct_values gathered) := by
  unfold direct_values
  split
  · exact .done (agree_refl _)
  · refine (reads_query (q := .listed_values gathered.direct) trivial).bind
      fun (rows hidden : List ListedValueRow) (h : hidden = rows.map _) => ?_
    have hval : hidden.mapM (listed_value gathered.content_paths) =
        rows.mapM (listed_value gathered.content_paths) := by
      rw [h, mapM_hidden (listed_value_hidden gathered.content_paths)]
    rw [hval]
    exact reads_lift _

theorem reads_list_values (context : CallContext) (path : Text) :
    read_hides.Calls Eq (list_values context path) (list_values context path) := by
  refine (reads_lift _).then_same fun selected => ?_
  refine (reads_lift _).then_same fun principal => ?_
  refine (reads_lift _).then_same fun actor => ?_
  refine (reads_query (q := .path_candidates) trivial).then_map fun candidates => ?_
  refine (reads_lift _).then_same fun gathered => ?_
  refine (reads_direct_values gathered).then_same fun values => ?_
  refine (reads_lift _).then_same fun namespaces => ?_
  refine (reads_record_best_effort _ _).then_same fun _ => ?_
  exact .done (agree_refl _)

theorem reads_list_value_paths (context : CallContext) (path : Text) :
    read_hides.Calls Eq (list_value_paths context path) (list_value_paths context path) := by
  refine (reads_lift _).then_same fun p => ?_
  refine (reads_lift _).then_same fun principal => ?_
  refine (reads_query (q := .content_id_at p.fold) trivial).then_map fun found => ?_
  cases found with
  | none => exact .done (.error _)
  | some id =>
    refine (reads_query (q := .paths_of_content id) trivial).then_map fun rows => ?_
    exact reads_lift _

theorem read_hidden {α : Type} {x : Read α} (h : read_hides.Calls Eq x x) (env : ReadEnv)
    (t : Tables) :
    x.run (serve_read env.hidden) t.hidden =
      ((x.run (serve_read env) t).1, (x.run (serve_read env) t).2.hidden) := by
  obtain ⟨hres, ht⟩ := Translation.Calls.run (serve_read_hidden env) h t
  exact Prod.ext hres.eq.symm ht

/-! ## `reveal_secret`

A reveal is the one operation that opens an envelope, so it does not translate. What it leaves in
the store is still the same for all secrets, as long as the envelope opens. -/

def Tables.holds_secret (t : Tables) (fold : Text) : Bool :=
  (t.content_class fold).any fun row => row.classification == .SECRET

theorem holds_secret_eq (t : Tables) (fold : Text) :
    t.holds_secret fold = (t.revealed_row fold).any fun row => row.classification == .SECRET := by
  unfold Tables.holds_secret Tables.content_class Tables.revealed_row
  cases t.path_row fold with
  | none => rfl
  | some row => cases hc : t.content_row row.content_id <;> simp [hc]

theorem hidden_holds_secret (t : Tables) (fold : Text) :
    t.hidden.holds_secret fold = t.holds_secret fold := by
  unfold Tables.holds_secret
  rw [Tables.hidden_content_class]
  cases t.content_class fold <;> rfl

def reveal_rows (env : ReadEnv) (context : CallContext) (path : Text) (t : Tables) : List AuditRow :=
  match authorize context path [.Read] false, context.actor with
  | .ok p, .ok actor =>
    if t.holds_secret p.fold && env.records then
      [⟨actor, env.now, .secret_revealed actor p.as_str⟩]
    else []
  | _, _ => []

def Tables.Opens (t : Tables) (decrypt : ℕ → Classification → Text → Except DecryptError Text) :
    Prop :=
  ∀ c ∈ t.contents, c.classification = .SECRET → ∃ text, decrypt c.id .SECRET c.value = .ok text

theorem insert_no_rows (t : Tables) : t.insert_audit_rows [] = t :=
  Tables.ext rfl rfl (append_nil _)

theorem run_record (env : ReadEnv) (actor : Actor) (event : AuditEvent) (t : Tables) :
    ((record actor event).run (serve_read env) t).2 =
      t.insert_audit_rows (if env.records then [⟨actor, env.now, event⟩] else []) := by
  show (serve_read env (.insert_event actor env.now event) t).2 = _
  unfold serve_read
  cases env.records with
  | true => rfl
  | false => exact (insert_no_rows t).symm

theorem run_open_and_record {env : ReadEnv} {id : ℕ} {classification : Classification}
    {stored text : Text} (hope : env.decrypt id classification stored = .ok text) (actor : Actor)
    (event : AuditEvent) (t : Tables) :
    (Call.run (serve_read env)
      (do
        let value ← fetch_rows (.decrypt id classification stored)
        record actor event
        return value) t).2 =
      t.insert_audit_rows (if env.records then [⟨actor, env.now, event⟩] else []) := by
  rw [bind_eq, run_bind]
  simp only [fetch_rows, run_ask, serve_read, run_done, hope]
  rw [← run_record]
  show (Call.run (serve_read env) ((record actor event).bind _) t).2 = _
  rw [run_bind]
  rcases (record actor event).run (serve_read env) t with ⟨_ | _, _⟩ <;> rfl

theorem reveal_leaves {env : ReadEnv} {t : Tables} (hope : t.Opens env.decrypt)
    (context : CallContext) (path : Text) :
    ((reveal_secret context path).run (serve_read env) t).2 =
      t.insert_audit_rows (reveal_rows env context path t) := by
  unfold reveal_secret reveal_rows
  cases haut : authorize context path [.Read] false with
  | error e => exact (insert_no_rows t).symm
  | ok p =>
    obtain ⟨actor, hact⟩ := authorize_actor haut
    simp only [hact, lift_eq]
    show (Call.run _ (Call.bind (fetch_rows (.revealed_row p.fold)) _) t).2 = _
    rw [run_bind]
    simp only [fetch_rows, run_ask, serve_read, run_done]
    cases hrow : t.revealed_row p.fold with
    | none =>
      rw [if_neg (by simp [holds_secret_eq, hrow])]
      exact (insert_no_rows t).symm
    | some row =>
      have hsec : t.holds_secret p.fold = (row.classification == .SECRET) := by
        rw [holds_secret_eq, hrow, Option.any_some]
      show (Call.run _ (if row.classification ≠ .SECRET then _ else _) t).2 = _
      rw [hsec]
      by_cases hcla : row.classification = .SECRET
      · obtain ⟨c, hc, _, rfl⟩ := revealed_row_eq_some.mp hrow
        replace hcla : c.classification = .SECRET := hcla
        obtain ⟨text, htex⟩ := hope c hc hcla
        rw [← hcla] at htex
        have hrun := run_open_and_record htex actor (.secret_revealed actor p.as_str) t
        refine ((congrArg (fun x => (Call.run _ x t).2) (if_neg (not_not.mpr hcla))).trans
          hrun).trans ?_
        simp [hcla]
      · refine (congrArg (fun x => (Call.run _ x t).2) (if_pos hcla)).trans ?_
        rw [if_neg (by simp [hcla])]
        exact (insert_no_rows t).symm

/-! ## Histories -/

inductive Operation where
  | mutate (mutation : Mutation)
  | list_values (path : Text)
  | get_sub_tree (path : Text)
  | list_value_paths (path : Text)
  | reveal_secret (path : Text)

structure Invocation where
  context : CallContext
  now : OffsetDateTime
  encrypt : ℕ → Classification → Text → Option Text
  decrypt : ℕ → Classification → Text → Except DecryptError Text
  records : Bool
  operation : Operation

inductive Outcome where
  | mutated (result : Except Status Reply)
  | listed (result : Except Status ValueListing)
  | sub_tree (result : Except Status (List SubTreeValue))
  | paths (result : Except Status (List ConfigPath))
  | revealed (result : Except Status Text)

namespace Invocation

def env (self : Invocation) : Env := ⟨self.now, self.encrypt⟩

def read_env (self : Invocation) : ReadEnv := ⟨self.now, self.decrypt, self.records⟩

def read {α : Type} (self : Invocation) (x : Read α) (outcome : Except Status α → Outcome)
    (db : Db) : Outcome × Db :=
  let (result, tables) := x.run (serve_read self.read_env) db.committed
  (outcome result, { db with committed := tables, working := tables })

def perform (self : Invocation) (db : Db) : Outcome × Db :=
  match self.operation with
  | .mutate mutation =>
    let (result, db) := Values.perform self.env (mutation.call self.context) db
    (.mutated result, db)
  | .list_values path => self.read (Values.list_values self.context path) .listed db
  | .get_sub_tree path => self.read (Values.get_sub_tree self.context path) .sub_tree db
  | .list_value_paths path => self.read (Values.list_value_paths self.context path) .paths db
  | .reveal_secret path => self.read (Values.reveal_secret self.context path) .revealed db

end Invocation

def run_history : List Invocation → Db → List Outcome × Db
  | [], db => ([], db)
  | step :: steps, db =>
    let (outcome, db) := step.perform db
    let (outcomes, db) := run_history steps db
    (outcome :: outcomes, db)

inductive Operation.SameButSecrets : Operation → Operation → Prop
  | mutate {mutation mutation' : Mutation} : mutation.hidden = mutation'.hidden →
      mutation.nul_free → mutation'.nul_free → SameButSecrets (.mutate mutation) (.mutate mutation')
  | same (operation : Operation) : (∀ mutation, operation ≠ .mutate mutation) →
      SameButSecrets operation operation

/-- The same call, except for the secret texts it writes. -/
structure Invocation.SameButSecrets (step step' : Invocation) : Prop where
  context : step'.context = step.context
  now : step'.now = step.now
  records : step'.records = step.records
  operation : step.operation.SameButSecrets step'.operation

structure Invocation.Works (step : Invocation) (db : Db) : Prop where
  seals : step.env.Seals
  opens : ∀ path, step.operation = .reveal_secret path → db.committed.Opens step.decrypt

/-- Encryption works at every step of the history. -/
def Works : List Invocation → Db → Prop
  | [], _ => True
  | step :: steps, db => step.Works db ∧ Works steps (step.perform db).2

/-- The same outcome, except for what a reveal returns. -/
inductive Outcome.Same : Outcome → Outcome → Prop
  | refl (outcome : Outcome) : Same outcome outcome
  | revealed (result result' : Except Status Text) : Same (.revealed result) (.revealed result')

/-! ## Two histories -/

section Two

variable {step step' : Invocation} {db db' : Db}

theorem read_same {α : Type} {x : Read α} (hx : read_hides.Calls Eq x x)
    (henv : step'.read_env.hidden = step.read_env.hidden) (hdb : db'.hidden = db.hidden)
    (outcome : Except Status α → Outcome) :
    (step'.read x outcome db').1 = (step.read x outcome db).1 ∧
      (step'.read x outcome db').2.hidden = (step.read x outcome db).2.hidden := by
  obtain ⟨hcom, _, hnex⟩ := Db.mk.inj hdb
  have hrun' := read_hidden hx step'.read_env db'.committed
  rw [henv, hcom, read_hidden hx step.read_env db.committed] at hrun'
  obtain ⟨hres, htab⟩ := Prod.mk.inj hrun'
  unfold Invocation.read Db.hidden
  exact ⟨congrArg outcome hres.symm, by simp only [hnex, htab]⟩

theorem perform_same {mutation mutation' : Mutation} (hm : mutation.hidden = mutation'.hidden)
    (hfre : mutation.nul_free) (hfre' : mutation'.nul_free)
    (hcon : step'.context = step.context) (henv : step'.env.hidden = step.env.hidden)
    (hsea : step.env.Seals) (hsea' : step'.env.Seals) (hdb : db'.hidden = db.hidden) :
    (perform step'.env (mutation'.call step'.context) db').1 =
        (perform step.env (mutation.call step.context) db).1 ∧
      (perform step'.env (mutation'.call step'.context) db').2.hidden =
        (perform step.env (mutation.call step.context) db).2.hidden := by
  have hrun' := perform_hidden hsea' step'.context hfre' db'
  rw [henv, hdb, ← hm, hcon, perform_hidden hsea step.context hfre db] at hrun'
  obtain ⟨hres, hlef⟩ := Prod.mk.inj hrun'
  rw [hcon]
  exact ⟨hres.symm, hlef.symm⟩

theorem reveal_same (h : step.SameButSecrets step') (hope : db.committed.Opens step.decrypt)
    (hope' : db'.committed.Opens step'.decrypt) (hdb : db'.hidden = db.hidden) (path : Text) :
    (step'.read (reveal_secret step.context path) .revealed db').2.hidden =
      (step.read (reveal_secret step.context path) .revealed db).2.hidden := by
  obtain ⟨hcom, _, hnex⟩ := Db.mk.inj hdb
  have hlef : ((reveal_secret step.context path).run (serve_read step.read_env) db.committed).2 =
      _ := reveal_leaves hope step.context path
  have hlef' : ((reveal_secret step.context path).run (serve_read step'.read_env)
      db'.committed).2 = _ := reveal_leaves hope' step.context path
  have hrow : reveal_rows step'.read_env step.context path db'.committed =
      reveal_rows step.read_env step.context path db.committed := by
    have hhol : ∀ fold, db'.committed.holds_secret fold = db.committed.holds_secret fold := by
      intro fold
      rw [← hidden_holds_secret, hcom, hidden_holds_secret]
    unfold reveal_rows Invocation.read_env
    rw [h.now, h.records]
    simp only [hhol]
  have htab : (db'.committed.insert_audit_rows (reveal_rows step.read_env step.context path
      db.committed)).hidden = (db.committed.insert_audit_rows (reveal_rows step.read_env
      step.context path db.committed)).hidden :=
    congrArg (fun t : Tables => t.insert_audit_rows _) hcom
  unfold Invocation.read Db.hidden
  simp only [hlef, hlef', hrow, htab, hnex]

theorem step_same (h : step.SameButSecrets step') (hdb : db'.hidden = db.hidden)
    (hwor : step.Works db) (hwor' : step'.Works db') :
    Outcome.Same (step.perform db).1 (step'.perform db').1 ∧
      (step'.perform db').2.hidden = (step.perform db).2.hidden := by
  have hread : step'.read_env.hidden = step.read_env.hidden := by
    unfold Invocation.read_env ReadEnv.hidden
    rw [h.now, h.records]
  have henv : step'.env.hidden = step.env.hidden := by
    unfold Invocation.env Env.hidden
    rw [h.now]
  have hop := h.operation
  have hope := hwor.opens
  have hope' := hwor'.opens
  unfold Invocation.perform
  generalize step.operation = operation at hop hope ⊢
  generalize step'.operation = operation' at hop hope' ⊢
  cases hop with
  | mutate hm hfre hfre' =>
    obtain ⟨hres, hlef⟩ :=
      perform_same hm hfre hfre' h.context henv hwor.seals hwor'.seals hdb
    refine ⟨?_, hlef⟩
    show Outcome.Same (.mutated _) (.mutated _)
    rw [hres]
    exact .refl _
  | same _ hne =>
    rw [h.context]
    cases operation with
    | mutate mutation => exact absurd rfl (hne mutation)
    | list_values path =>
      obtain ⟨hres, hlef⟩ := read_same (reads_list_values step.context path) hread hdb .listed
      exact ⟨hres ▸ .refl _, hlef⟩
    | get_sub_tree path =>
      obtain ⟨hres, hlef⟩ := read_same (reads_get_sub_tree step.context path) hread hdb .sub_tree
      exact ⟨hres ▸ .refl _, hlef⟩
    | list_value_paths path =>
      obtain ⟨hres, hlef⟩ :=
        read_same (reads_list_value_paths step.context path) hread hdb .paths
      exact ⟨hres ▸ .refl _, hlef⟩
    | reveal_secret path =>
      exact ⟨.revealed _ _, reveal_same h (hope path rfl) (hope' path rfl) hdb path⟩

/-- **Secret noninterference.** -/
theorem secrets_do_not_interfere {steps steps' : List Invocation} {db db' : Db}
    (hsteps : List.Forall₂ Invocation.SameButSecrets steps steps')
    (hdb : db'.hidden = db.hidden) (hworks : Works steps db) (hworks' : Works steps' db') :
    List.Forall₂ Outcome.Same (run_history steps db).1 (run_history steps' db').1 ∧
      (run_history steps' db').2.committed.audit = (run_history steps db).2.committed.audit := by
  induction hsteps generalizing db db' with
  | nil =>
    obtain ⟨hcom, _, _⟩ := Db.mk.inj hdb
    have haud : db'.committed.hidden.audit = db.committed.hidden.audit :=
      congrArg Tables.audit hcom
    exact ⟨.nil, haud⟩
  | cons hste _ ih =>
    obtain ⟨hsam, hnex⟩ := step_same hste hdb hworks.1 hworks'.1
    obtain ⟨hout, haud⟩ := ih hnex hworks.2 hworks'.2
    exact ⟨.cons hsam hout, haud⟩

end Two

def operated (operation : Operation) : Invocation where
  context := operator
  now := 0
  encrypt _ _ value := some value
  decrypt _ _ stored := .ok stored
  records := true
  operation := operation

def life_of_secret (text : Text) : List Invocation :=
  [operated (.mutate (.put_value "/a".toList (some (.Secret text)))),
    operated (.get_sub_tree root_text), operated (.reveal_secret "/a".toList),
    operated (.mutate (.delete_values "/a".toList false))]

theorem life_of_secret_does_not_tell :
    List.Forall₂ Outcome.Same (run_history (life_of_secret "x".toList) .empty).1
        (run_history (life_of_secret "y".toList) .empty).1 ∧
      (run_history (life_of_secret "y".toList) .empty).2.committed.audit =
        (run_history (life_of_secret "x".toList) .empty).2.committed.audit := by
  have hwor : ∀ (operation : Operation) (db : Db), (operated operation).Works db :=
    fun _ _ => ⟨fun _ _ value => ⟨value, rfl⟩, fun _ _ c _ _ => ⟨c.value, rfl⟩⟩
  have hsam : ∀ operation operation', operation.SameButSecrets operation' →
      (operated operation).SameButSecrets (operated operation') :=
    fun _ _ h => ⟨rfl, rfl, rfl, h⟩
  refine secrets_do_not_interfere ?_ rfl ?_ ?_
  · refine .cons (hsam _ _ (.mutate rfl ?_ ?_)) (.cons (hsam _ _ (.same _ nofun))
      (.cons (hsam _ _ (.same _ nofun)) (.cons (hsam _ _ (.mutate rfl trivial trivial)) .nil)))
    · intro w hw
      cases hw
      rfl
    · intro w hw
      cases hw
      rfl
  · exact ⟨hwor _ _, hwor _ _, hwor _ _, hwor _ _, trivial⟩
  · exact ⟨hwor _ _, hwor _ _, hwor _ _, hwor _ _, trivial⟩

end SovereignConfig.Values
