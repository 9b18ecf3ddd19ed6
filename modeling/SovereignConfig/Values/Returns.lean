/-
What a mutation that returned has done to the tables, once for each function of
`Values/Service.lean`.
-/
import SovereignConfig.Lib.Checks
import SovereignConfig.Values.Service

namespace SovereignConfig.Values

open Lib Text

variable {env : Env} {db db' : Db} {α β : Type}

/-! ## Requests -/

variable {a : α} {u : Unit} {classification : Classification} {value path : Text}
  {row : MutationRow} {context : CallContext} {metadata : DeleteMetadata} {recurse : Bool}
  {paths : AliasPaths}

theorem answered {b : α} : ((Except.ok a : Except Status α), db) = (.ok b, db') ↔
    a = b ∧ db = db' := by
  simp

theorem refused {e : Status} : ((Except.error e : Except Status α), db) ≠ (.ok a, db') := by
  simp

theorem apply_returns {answer : α} {written : Option Tables} :
    db.apply answer written = (.ok a, db') ↔
      a = answer ∧ ∃ t, written = some t ∧ db' = { db with working := t } := by
  cases written with
  | none => simp [Db.apply]
  | some t => simp [Db.apply, eq_comm]

section Requests

variable {u : Unit}

theorem returns_begin : Call.Returns (exec env) store.begin db u db' ↔
    { db with working := db.committed } = db' :=
  answered.trans (and_iff_right rfl)

theorem returns_commit : Call.Returns (exec env) store.commit db u db' ↔
    { db with committed := db.working } = db' :=
  answered.trans (and_iff_right rfl)

variable {now : OffsetDateTime} {answer : Bool} {path fold value : Text} {id : ℕ}
  {deleted : List DeletedPathRow} {classification : Classification}

theorem returns_system_time :
    Call.Returns (exec env) system_time db now db' ↔ env.now = now ∧ db = db' := answered

theorem returns_record_in {actor : Actor} {time : OffsetDateTime} {events : List AuditEvent} :
    Call.Returns (exec env) (record_in actor time events) db u db' ↔
      { db with working := (db.working.insert_audit_rows
        (events.map fun event => ⟨actor, time, event⟩)) } = db' :=
  answered.trans (and_iff_right rfl)

theorem returns_path_collides :
    Call.Returns (exec env) (store.path_collides path) db answer db' ↔
      db.working.collides path = answer ∧ db = db' := answered

theorem returns_path_is_occupied :
    Call.Returns (exec env) (store.path_is_occupied fold) db answer db' ↔
      (db.working.path_row fold).isSome = answer ∧ db = db' := answered

theorem returns_content_id_at {answer : Option ℕ} :
    Call.Returns (exec env) (store.content_id_at fold) db answer db' ↔
      (db.working.path_row fold).map PathRow.content_id = answer ∧ db = db' := answered

theorem returns_path_content_class {answer : Option PathContentClassRow} :
    Call.Returns (exec env) (store.path_content_class fold) db answer db' ↔
      db.working.content_class fold = answer ∧ db = db' := answered

theorem returns_secret_paths_touching {answer : List Text} :
    Call.Returns (exec env) (store.secret_paths_touching fold) db answer db' ↔
      db.working.secrets_touching fold = answer ∧ db = db' := answered

theorem returns_reserve_content_id :
    Call.Returns (exec env) store.reserve_content_id db id db' ↔
      db.next_content_id = id ∧ { db with next_content_id := db.next_content_id + 1 } = db' :=
  answered

theorem returns_delete_paths {recurse : Bool} :
    Call.Returns (exec env) (store.delete_paths fold recurse) db deleted db' ↔
      db.working.deleted_rows (Tables.selected fold recurse) = deleted ∧
      { db with working := db.working.delete_paths_where (Tables.selected fold recurse) } = db' :=
  answered

theorem returns_delete_plain_paths_except {keep : List Text} :
    Call.Returns (exec env) (store.delete_plain_paths_except fold keep) db deleted db' ↔
      db.working.deleted_rows (Tables.plain_except fold keep) = deleted ∧
      { db with working := db.working.delete_paths_where (Tables.plain_except fold keep) } = db' :=
  answered

theorem returns_insert_content {row : InsertedContentRow} :
    Call.Returns (exec env) (store.insert_content id value classification now) db row db' ↔
      row = ⟨id, now, now⟩ ∧ ∃ t, db.working.insert_content_row
        ⟨id, value, classification, now, now⟩ = some t ∧ db' = { db with working := t } :=
  apply_returns

theorem returns_insert_path :
    Call.Returns (exec env) (store.insert_path path id now) db u db' ↔
      ∃ t, db.working.insert_path_row ⟨path, id, now, now⟩ = some t ∧
        db' = { db with working := t } :=
  apply_returns.trans (and_iff_right rfl)

theorem overwrite_returns {ρ : Type} {shown : ContentRow → ρ} {row : ρ} :
    (match db.working.content_row id with
      | none => (.error storage_unavailable, db)
      | some old => db.apply (shown old)
          (db.working.update_content_row id value classification now)) = (.ok row, db') ↔
      ∃ old, db.working.content_row id = some old ∧ row = shown old ∧
        ∃ t, db.working.update_content_row id value classification now = some t ∧
          db' = { db with working := t } := by
  cases db.working.content_row id with
  | none => exact iff_of_false refused (by simp)
  | some old =>
    refine apply_returns.trans ⟨fun h => ⟨old, rfl, h⟩, ?_⟩
    rintro ⟨_, heq, h⟩
    obtain rfl := Option.some.inj heq
    exact h

theorem returns_update_content {stored : Text} {row : MutationRow} :
    Call.Returns (exec env) (store.update_content id stored classification now) db row db' ↔
      ∃ old, db.working.content_row id = some old ∧ row = ⟨old.created_at, now⟩ ∧
        ∃ t, db.working.update_content_row id stored classification now = some t ∧
          db' = { db with working := t } :=
  overwrite_returns

theorem returns_update_plain_content {row : PreviousContentRow} :
    Call.Returns (exec env) (store.update_plain_content id value now) db row db' ↔
      ∃ old, db.working.content_row id = some old ∧ row = ⟨old.value, old.classification⟩ ∧
        ∃ t, db.working.update_content_row id value .PLAIN now = some t ∧
          db' = { db with working := t } :=
  overwrite_returns

theorem returns_encrypt {sealed : Text} :
    Call.Returns (exec env) (encrypt id classification value) db sealed db' ↔
      env.encrypt id classification value = some sealed ∧ db = db' := by
  show exec env (.encrypt id classification value) db = _ ↔ _
  rw [exec]
  cases env.encrypt id classification value with
  | none => exact iff_of_false refused (by simp)
  | some text =>
    exact answered.trans ⟨fun h => ⟨congrArg some h.1, h.2⟩, fun h => ⟨Option.some.inj h.1, h.2⟩⟩

end Requests

theorem run_forM_silent {f : α → Service Unit} (h : ∀ x db, (f x).run (exec env) db = (.ok (), db))
    (l : List α) : ∀ db, (l.forM f).run (exec env) db = (.ok (), db) := by
  induction l with
  | nil => exact fun _ => rfl
  | cons x l ih =>
    intro db
    show ((f x).bind fun _ => l.forM f).run (exec env) db = _
    rw [Call.run_bind, h]
    exact ih db

theorem returns_lock_mutation_path {path : ConfigPath} :
    Call.Returns (exec env) (lock_mutation_path path) db u db' ↔ db = db' := by
  rw [Call.Returns, lock_mutation_path, run_forM_silent (fun _ _ => rfl)]
  simp

def Tables.pruned (t : Tables) (ids : List ℕ) : Tables := t.delete_contents_where (t.orphan ids)

theorem returns_prune_orphan_contents {ids : List ℕ} :
    Call.Returns (exec env) (prune_orphan_contents ids) db u db' ↔
      { db with working := db.working.pruned ids } = db' := by
  unfold prune_orphan_contents
  split
  · rename_i hemp
    have hsam : db.working.pruned ids = db.working := by
      rw [List.isEmpty_iff.mp hemp]
      refine Tables.ext (Tables.paths_prune []) ?_ rfl
      simp [Tables.pruned, Tables.delete_contents_where, Tables.orphan]
    simp [hsam]
  · have hloc : (ids.forM fun content_id => store.lock_content content_id).run (exec env) db
        = (.ok (), db) := run_forM_silent (fun _ _ => rfl) ids db
    rw [Call.Returns, Call.bind_eq, Call.run_bind, hloc]
    show (Except.ok (), { db with working := db.working.pruned ids }) = (Except.ok u, db') ↔ _
    simp

theorem perform_returns {call : Service α} :
    perform env call db = (.ok a, db') ↔
      ∃ db₁, Call.Returns (exec env) call db a db₁ ∧ db' = { db₁ with working := db₁.committed } := by
  unfold perform Call.Returns
  rcases call.run (exec env) db with ⟨result, db₁⟩
  simp only [Prod.mk.injEq]
  constructor
  · rintro ⟨rfl, rfl⟩
    exact ⟨db₁, ⟨rfl, rfl⟩, rfl⟩
  · rintro ⟨_, ⟨rfl, rfl⟩, rfl⟩
    exact ⟨rfl, rfl⟩

/-! ## `put_value` -/

def StoredAs (env : Env) (id : ℕ) (classification : Classification) (value stored : Text) : Prop :=
  if classification = .SECRET then env.encrypt id classification value = some stored
  else stored = value

theorem returns_stored_representation {id : ℕ} {stored : Text} :
    Call.Returns (exec env) (stored_representation id classification value) db stored db' ↔
      StoredAs env id classification value stored ∧ db = db' := by
  unfold stored_representation StoredAs
  split
  · exact returns_encrypt
  · simp [eq_comm]

structure Overwrites (env : Env) (t t' : Tables) (existing : PathContentClassRow)
    (stored : Text) (classification : Classification) : Prop where
  keeps_class : ¬ (existing.path_count > 1 ∧ existing.classification ≠ classification)
  paths : t'.paths = t.paths
  contents : t'.contents = t.contents.map
    (ContentRow.overwrite existing.content_id stored classification env.now)

structure Creates (env : Env) (t t' : Tables) (path : ConfigPath) (id : ℕ) (stored : Text)
    (classification : Classification) : Prop where
  no_collision : t.collides path.fold = false
  unoccupied : ∀ row ∈ t.paths, row.lowercase_path ≠ path.fold
  paths : t'.paths = t.paths ++ [⟨path.path, id, env.now, env.now⟩]
  contents : t'.contents = t.contents ++ [⟨id, stored, classification, env.now, env.now⟩]

theorem returns_overwrite_existing {existing : PathContentClassRow}
    (h : Call.Returns (exec env) (overwrite_existing existing value classification env.now)
      db row db') :
    db'.committed = db.committed ∧ db'.next_content_id = db.next_content_id ∧
    ∃ stored, StoredAs env existing.content_id classification value stored ∧
      Overwrites env db.working db'.working existing stored classification := by
  unfold overwrite_existing at h
  split at h
  · simp at h
  · rename_i hcla
    simp only [Call.bind_eq, Call.returns_bind, returns_stored_representation,
      returns_update_content] at h
    obtain ⟨stored, _, ⟨hsto, rfl⟩, _, _, _, t, ht, rfl⟩ := h
    obtain ⟨_, hp, hc, _⟩ := Tables.update_content_row_eq_some.mp ht
    exact ⟨rfl, rfl, stored, hsto, hcla, hp, hc⟩

theorem returns_create_value {path : ConfigPath}
    (h : Call.Returns (exec env) (create_value path value classification env.now) db row db') :
    db'.committed = db.committed ∧ db'.next_content_id = db.next_content_id + 1 ∧
    ∃ stored, StoredAs env db.next_content_id classification value stored ∧
      Creates env db.working db'.working path db.next_content_id stored classification := by
  simp only [create_value, Call.bind_eq, Call.returns_bind, returns_path_collides] at h
  obtain ⟨_, _, ⟨rfl, rfl⟩, h⟩ := h
  split at h
  · simp at h
  · rename_i hfre
    simp only [Call.returns_bind, returns_stored_representation, returns_reserve_content_id,
      returns_insert_content, returns_insert_path, Call.pure_eq, Call.returns_done] at h
    obtain ⟨_, _, ⟨rfl, rfl⟩, stored, _, ⟨hsto, rfl⟩, _, _, ⟨rfl, t, ht, rfl⟩, _, _,
      ⟨t', ht', rfl⟩, _, rfl⟩ := h
    obtain ⟨_, hp, hc, _⟩ := Tables.insert_content_row_eq_some.mp ht
    obtain ⟨⟨hnew, _⟩, hp', hc', _⟩ := Tables.insert_path_row_eq_some.mp ht'
    refine ⟨rfl, rfl, stored, hsto, ?_, ?_, ?_, ?_⟩
    · simpa using hfre
    · rw [hp] at hnew
      exact hnew
    · rw [hp', hp]; rfl
    · rw [hc', hc]

theorem put_value_returns {written : Option PutContent} {metadata : PutMetadata}
    (h : Call.Returns (exec env) (put_value context path written) db metadata db') :
    ∃ p value classification stored, authorize context path [.Write] false = .ok p ∧
      put_content written = .ok (value, classification) ∧
      ((∃ existing, db.committed.content_class p.fold = some existing ∧
          StoredAs env existing.content_id classification value stored ∧
          Overwrites env db.committed db'.committed existing stored classification ∧
          db'.next_content_id = db.next_content_id) ∨
        (StoredAs env db.next_content_id classification value stored ∧
          Creates env db.committed db'.committed p db.next_content_id stored classification ∧
          db'.next_content_id = db.next_content_id + 1)) := by
  simp only [put_value, Call.bind_eq, Call.lift_eq, Call.returns_bind, Call.returns_done] at h
  obtain ⟨p, _, ⟨haut, rfl⟩, ⟨value, classification⟩, _, ⟨hcon, rfl⟩, h⟩ := h
  simp only at h
  split at h
  · simp at h
  · simp only [Call.returns_bind, Call.returns_done, returns_lock_mutation_path, returns_begin,
      returns_system_time, returns_path_content_class, returns_record_in, returns_commit] at h
    obtain ⟨actor, _, ⟨_, rfl⟩, _, _, rfl, _, _, rfl, _, _, ⟨rfl, rfl⟩, _, _, ⟨rfl, rfl⟩, row, db₁,
      hwri, _, _, rfl, _, _, rfl, _, rfl⟩ := h
    cases hex : db.committed.content_class p.fold with
    | some existing =>
      simp only [write_value, hex] at hwri
      obtain ⟨hcom, hnex, stored, hsto, hove⟩ := returns_overwrite_existing hwri
      exact ⟨p, value, classification, stored, haut, hcon, Or.inl ⟨existing, hex, hsto,
        ⟨hove.1, hove.2, hove.3⟩, hnex⟩⟩
    | none =>
      simp only [write_value, hex] at hwri
      obtain ⟨hcom, hnex, stored, hsto, hcre⟩ := returns_create_value hwri
      exact ⟨p, value, classification, stored, haut, hcon, Or.inr ⟨hsto,
        ⟨hcre.1, hcre.2, hcre.3, hcre.4⟩, hnex⟩⟩

/-! ## `delete_values` and `add_value_path` -/

/-- **`delete_values`, when it returns:** the selected paths are gone, there were some, contents
they left without a path are gone too, and each deletion is recorded. -/
theorem delete_values_recorded
    (h : Call.Returns (exec env) (delete_values context path recurse) db metadata db') :
    ∃ p actor, authorize context path [.Write] recurse = .ok p ∧ context.actor = .ok actor ∧
      db.committed.deleted_rows (Tables.selected p.fold recurse) ≠ [] ∧
      db'.committed.paths =
        (db.committed.delete_paths_where (Tables.selected p.fold recurse)).paths ∧
      db'.committed.contents =
        ((db.committed.delete_paths_where (Tables.selected p.fold recurse)).pruned
          (content_ids (db.committed.deleted_rows (Tables.selected p.fold recurse)))).contents ∧
      db'.next_content_id = db.next_content_id ∧
      db'.committed.audit = db.committed.audit ++ (deletion_events actor p
        (db.committed.deleted_rows (Tables.selected p.fold recurse)) recurse).map
          fun event => ⟨actor, env.now, event⟩ := by
  simp only [delete_values, Call.bind_eq, Call.lift_eq, Call.returns_bind, Call.returns_done,
    returns_begin, returns_lock_mutation_path, returns_delete_paths] at h
  obtain ⟨p, _, ⟨haut, rfl⟩, actor, _, ⟨hact, rfl⟩, _, _, rfl, _, _, rfl, _, _, ⟨rfl, rfl⟩, h⟩ := h
  split at h
  · simp at h
  · rename_i hsom
    simp only [Call.returns_bind, returns_prune_orphan_contents, returns_system_time,
      returns_record_in, returns_commit, Call.pure_eq, Call.returns_done] at h
    obtain ⟨_, _, rfl, _, _, ⟨rfl, rfl⟩, _, _, rfl, _, _, rfl, _, rfl⟩ := h
    exact ⟨p, actor, haut, hact, by simpa using hsom, Tables.paths_prune _, rfl, rfl, rfl⟩

theorem alias_paths_ok {actor : Actor} {source new_path : ConfigPath}
    (h : alias_paths context paths = .ok (actor, source, new_path)) :
    ConfigPath.parse_operation paths.source = .ok source ∧
      ConfigPath.parse_operation paths.new_path = .ok new_path ∧ source.fold ≠ new_path.fold := by
  simp only [alias_paths, bind, Except.bind] at h
  split at h; · simp at h
  split at h; · simp at h
  split at h; · simp at h
  rename_i hsou
  split at h; · simp at h
  rename_i hnew
  split at h; · simp at h
  split at h; · simp at h
  rename_i hne
  cases h
  exact ⟨mapError_eq_ok.mp hsou, mapError_eq_ok.mp hnew, hne⟩

/-- **`add_value_path`, when it returns:** the new path was free of collisions and now leads to
the content the source path leads to. -/
theorem add_value_path_returns {metadata : AddPathMetadata}
    (h : Call.Returns (exec env) (add_value_path context paths) db metadata db') :
    ∃ actor source new_path row, alias_paths context paths = .ok (actor, source, new_path) ∧
      db.committed.path_row source.fold = some row ∧
      (∀ row ∈ db.committed.paths, row.lowercase_path ≠ new_path.fold) ∧
      db.committed.collides new_path.fold = false ∧
      db'.committed.paths =
        db.committed.paths ++ [⟨new_path.path, row.content_id, env.now, env.now⟩] ∧
      db'.committed.contents = db.committed.contents ∧
      db'.next_content_id = db.next_content_id := by
  simp only [add_value_path, Call.bind_eq, Call.lift_eq, Call.returns_bind, Call.returns_done,
    returns_begin, returns_lock_mutation_path, returns_content_id_at] at h
  obtain ⟨⟨actor, source, new_path⟩, _, ⟨hali, rfl⟩, _, _, rfl, _, _, rfl, _, _, rfl, _, _,
    ⟨rfl, rfl⟩, h⟩ := h
  split at h
  · simp at h
  · rename_i id hid
    obtain ⟨row, hrow, rfl⟩ := Option.map_eq_some_iff.mp hid
    simp only [Call.returns_bind, returns_path_is_occupied] at h
    obtain ⟨_, _, ⟨rfl, rfl⟩, h⟩ := h
    split at h
    · simp at h
    · rename_i hfre
      simp only [Call.returns_bind, returns_path_collides] at h
      obtain ⟨_, _, ⟨rfl, rfl⟩, h⟩ := h
      split at h
      · simp at h
      · rename_i hcol
        simp only [Call.returns_bind, returns_system_time, returns_insert_path, returns_record_in,
          returns_commit, Call.pure_eq, Call.returns_done] at h
        obtain ⟨_, _, ⟨rfl, rfl⟩, _, _, ⟨t, ht, rfl⟩, _, _, rfl, _, _, rfl, _, rfl⟩ := h
        obtain ⟨⟨hnew, _⟩, hp, hc, _⟩ := Tables.insert_path_row_eq_some.mp ht
        exact ⟨actor, source, new_path, row, hali, hrow, hnew, by simpa using hcol, hp, hc, rfl⟩

theorem exec_next (q : Request) (db : Db) :
    db.next_content_id ≤ (exec env q db).2.next_content_id := by
  have happ : ∀ {α : Type} (a : α) (o : Option Tables),
      (db.apply a o).2.next_content_id = db.next_content_id := by
    intro α a o
    cases o <;> rfl
  cases q with
  | reserve_content_id => exact Nat.le_succ _
  | update_content id stored classification now =>
    rw [exec]
    cases db.working.content_row id with
    | none => exact le_rfl
    | some row => exact (happ _ _).ge
  | update_plain_content id value now =>
    rw [exec]
    cases db.working.content_row id with
    | none => exact le_rfl
    | some row => exact (happ _ _).ge
  | encrypt id classification value =>
    rw [exec]
    cases env.encrypt id classification value <;> exact le_rfl
  | insert_content => exact (happ _ _).ge
  | insert_path => exact (happ _ _).ge
  | _ => exact le_rfl

theorem run_next (x : Service α) (db : Db) :
    db.next_content_id ≤ (x.run (exec env) db).2.next_content_id := by
  induction x generalizing db with
  | done r => exact le_rfl
  | ask q k ih => exact (exec_next q db).trans (ih _ _)

end SovereignConfig.Values
