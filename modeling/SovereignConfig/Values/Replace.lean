/-
`replace_sub_tree`, followed through its statements: each loop with the fact that carries it, and
then what the call does when it returns, and when it does.
-/
import SovereignConfig.Values.Returns

namespace SovereignConfig.Values

open Lib Text List Function Tables Call

variable {env : Env} {db db' : Db}

/-! ## Resolving the plain writes -/

def SubTreeEntry.plain_write (value : SubTreeEntry) : Option (Text × Text) :=
  match value.content with
  | some (.PlainValue content) => some (value.path, content)
  | _ => none

def plain_writes (values : List SubTreeEntry) : List (Text × Text) :=
  values.filterMap SubTreeEntry.plain_write

def resolve_writes (stored : Text → Option ℕ) (writes : List (Text × Text)) :
    ResolvedWrites → Except Status ResolvedWrites :=
  writes.foldlM fun resolved write => resolved.add write.1 write.2 (stored write.1)

def Tables.stored_id (t : Tables) (fold : Text) : Option ℕ :=
  (t.path_row fold).map PathRow.content_id

variable {values : List SubTreeEntry} {plain fresh : List (Text × Text)} {now : OffsetDateTime}
  {previous : Std.TreeMap ℕ PreviousContentRow} {shared : List (ℕ × Text)} {write : Text × Text}
  {context : CallContext} {metadata : ReplaceMetadata} {path : Text} {n : NormalizedSubtree}
  {root : ConfigPath}

theorem returns_resolve_plain_writes {writes : ResolvedWrites} :
    Call.Returns (exec env) (resolve_plain_writes values) db writes db' ↔
      resolve_writes db.working.stored_id (plain_writes values) .empty = .ok writes ∧ db = db' := by
  have hrun : (resolve_plain_writes values).run (exec env) db =
      (resolve_writes db.working.stored_id (plain_writes values) .empty, db) := by
    rw [resolve_writes, plain_writes, foldlM_filterMap]
    refine run_foldlM_reads _ (fun w value => ?_) values _
    rcases value with ⟨path, _ | _ | _⟩ <;> rfl
  rw [Call.Returns, hrun, Prod.mk.injEq]

structure Resolved (stored : Text → Option ℕ) (done : List (Text × Text))
    (writes : ResolvedWrites) : Prop where
  fresh : writes.fresh = done.filter fun write => (stored write.1).isNone
  shared : ∀ id content, writes.shared[id]? = some content ↔
    ∃ path, (path, content) ∈ done ∧ stored path = some id

def Consistent (stored : Text → Option ℕ) (writes : List (Text × Text)) : Prop :=
  ∀ write ∈ writes, ∀ write' ∈ writes, ∀ id, stored write.1 = some id →
    stored write'.1 = some id → write.2 = write'.2

variable {stored : Text → Option ℕ} {done rest : List (Text × Text)} {writes : ResolvedWrites}

theorem Resolved.consistent (h : Resolved stored done writes) : Consistent stored done := by
  rintro ⟨p, c⟩ hw ⟨p', c'⟩ hw' id hp hp'
  have h1 := (h.shared id c).mpr ⟨p, hw, hp⟩
  have h2 := (h.shared id c').mpr ⟨p', hw', hp'⟩
  exact Option.some.inj (h1.symm.trans h2)

theorem resolved_empty : Resolved stored [] .empty :=
  ⟨rfl, fun id content => by simp [ResolvedWrites.empty]⟩

theorem Resolved.add (h : Resolved stored done writes) (write : Text × Text) :
    (∃ writes', writes.add write.1 write.2 (stored write.1) = .ok writes' ∧
      Resolved stored (done ++ [write]) writes') ∨
    (writes.add write.1 write.2 (stored write.1) = .error conflicting_values ∧
      ¬ Consistent stored (done ++ [write])) := by
  obtain ⟨path, content⟩ := write
  simp only
  cases hs : stored path with
  | none =>
    refine Or.inl ⟨_, rfl, ?_, fun id text => ?_⟩
    · simp [h.fresh, filter_append, hs]
    · simp only [h.shared, mem_append, mem_singleton, Prod.mk.injEq]
      constructor
      · rintro ⟨p, hp, hid⟩
        exact ⟨p, Or.inl hp, hid⟩
      · rintro ⟨p, hp | ⟨rfl, rfl⟩, hid⟩
        · exact ⟨p, hp, hid⟩
        · rw [hs] at hid
          simp at hid
  | some id =>
    simp only [ResolvedWrites.add]
    have hfre : writes.fresh = (done ++ [(path, content)]).filter
        fun write => (stored write.1).isNone := by
      simp [h.fresh, filter_append, hs]
    cases hass : writes.shared[id]? with
    | some assigned =>
      obtain ⟨p, hp, hpid⟩ := (h.shared id assigned).mp hass
      by_cases hne : assigned = content
      · subst hne
        refine Or.inl ⟨_, if_neg (not_not.mpr rfl), hfre, fun id' text => ?_⟩
        simp only [h.shared, mem_append, mem_singleton, Prod.mk.injEq]
        constructor
        · rintro ⟨p', hp', hid⟩
          exact ⟨p', Or.inl hp', hid⟩
        · rintro ⟨p', hp' | ⟨rfl, rfl⟩, hid⟩
          · exact ⟨p', hp', hid⟩
          · rw [hs] at hid
            obtain rfl := Option.some.inj hid
            exact ⟨p, hp, hpid⟩
      · refine Or.inr ⟨by simp [hne], fun hcon => hne ?_⟩
        exact hcon (p, assigned) (by simp [hp]) (path, content) (by simp) id hpid hs
    | none =>
      refine Or.inl ⟨_, rfl, hfre, fun id' text => ?_⟩
      have hnone : ∀ p text, (p, text) ∈ done → stored p ≠ some id := by
        intro p text hp hid
        rw [(h.shared id text).mpr ⟨p, hp, hid⟩] at hass
        simp at hass
      simp only [Std.TreeMap.getElem?_insert, compare_eq_iff_eq, mem_append,
        mem_singleton, Prod.mk.injEq]
      by_cases hid : id = id'
      · subst hid
        simp only [if_true, Option.some.injEq]
        constructor
        · rintro rfl
          exact ⟨path, Or.inr ⟨rfl, rfl⟩, hs⟩
        · rintro ⟨p, hp | ⟨_, rfl⟩, hpid⟩
          · exact absurd hpid (hnone p text hp)
          · rfl
      · rw [if_neg hid, h.shared]
        constructor
        · rintro ⟨p, hp, hpid⟩
          exact ⟨p, Or.inl hp, hpid⟩
        · rintro ⟨p, hp | ⟨rfl, rfl⟩, hpid⟩
          · exact ⟨p, hp, hpid⟩
          · rw [hs] at hpid
            exact absurd (Option.some.inj hpid) hid

theorem Resolved.add_all (h : Resolved stored done writes) :
    (∃ writes', resolve_writes stored rest writes = .ok writes' ∧
      Resolved stored (done ++ rest) writes') ∨
    (resolve_writes stored rest writes = .error conflicting_values ∧
      ¬ Consistent stored (done ++ rest)) := by
  induction rest generalizing done writes with
  | nil => exact Or.inl ⟨writes, rfl, by simpa using h⟩
  | cons write rest ih =>
    rw [resolve_writes, foldlM_cons]
    have hass : done ++ write :: rest = done ++ [write] ++ rest := by simp
    rcases h.add write with ⟨writes', hadd, hres⟩ | ⟨hadd, hbad⟩
    · rw [hadd, hass]
      exact ih hres
    · refine Or.inr ⟨by rw [hadd]; rfl, fun hcon => hbad ?_⟩
      rw [hass] at hcon
      exact fun w hw w' hw' => hcon w (mem_append_left _ hw) w' (mem_append_left _ hw')

theorem resolve_writes_ok :
    resolve_writes stored plain .empty = .ok writes → Resolved stored plain writes := by
  intro h
  rcases resolved_empty.add_all with ⟨writes', hok, hres⟩ | ⟨hbad, _⟩
  · rw [h] at hok
    obtain rfl := Except.ok.inj hok
    simpa using hres
  · rw [h] at hbad
    simp at hbad

theorem resolve_writes_of_consistent (h : Consistent stored plain) :
    ∃ writes, resolve_writes stored plain .empty = .ok writes := by
  rcases resolved_empty.add_all with ⟨writes', hok, _⟩ | ⟨_, hbad⟩
  · exact ⟨writes', hok⟩
  · exact absurd h (by simpa using hbad)

/-! ## Overwriting the shared contents -/

def ContentRow.overwrite_all (now : OffsetDateTime) (shared : List (ℕ × Text)) (c : ContentRow) :
    ContentRow :=
  shared.foldl (fun c write => c.overwrite write.1 write.2 .PLAIN now) c

section Overwrite

variable {now : OffsetDateTime} {shared : List (ℕ × Text)} {c : ContentRow}

@[simp] theorem ContentRow.overwrite_all_id : (c.overwrite_all now shared).id = c.id := by
  induction shared generalizing c with
  | nil => rfl
  | cons write shared ih => exact ih.trans (by simp)

theorem ContentRow.overwrite_all_of_not_mem (h : c.id ∉ shared.map Prod.fst) :
    c.overwrite_all now shared = c := by
  induction shared generalizing c with
  | nil => rfl
  | cons write shared ih =>
    simp only [map_cons, mem_cons, not_or] at h
    have hste : c.overwrite write.1 write.2 .PLAIN now = c := if_neg h.1
    rw [overwrite_all, foldl_cons, hste]
    exact ih h.2

theorem ContentRow.overwrite_all_of_mem {text : Text} (huni : (shared.map Prod.fst).Nodup)
    (h : (c.id, text) ∈ shared) : c.overwrite_all now shared =
      { c with value := text, classification := .PLAIN, updated_at := now } := by
  induction shared generalizing c with
  | nil => exact absurd h not_mem_nil
  | cons write shared ih =>
    rw [map_cons, nodup_cons] at huni
    rw [overwrite_all, foldl_cons]
    rcases mem_cons.mp h with rfl | hres
    · have hste : c.overwrite c.id text .PLAIN now =
          { c with value := text, classification := .PLAIN, updated_at := now } := if_pos rfl
      rw [hste]
      exact overwrite_all_of_not_mem huni.1
    · have hne : c.id ≠ write.1 := by
        intro heq
        exact huni.1 (heq ▸ mem_map_of_mem hres)
      have hste : c.overwrite write.1 write.2 .PLAIN now = c := if_neg hne
      rw [hste]
      exact ih huni.2 hres

end Overwrite

theorem shared_ids_nodup (shared : Std.TreeMap ℕ Text) : (shared.toList.map Prod.fst).Nodup := by
  rw [List.Nodup, pairwise_map]
  exact Std.TreeMap.distinct_keys_toList.imp (fun hne heq => hne (by rw [heq]; simp))

theorem returns_update_cons {write : ℕ × Text} {before : Std.TreeMap ℕ PreviousContentRow} :
    Call.Returns (exec env) ((write :: shared).foldlM (update_one now) before) db previous db' ↔
      ∃ old, db.working.content_row write.1 = some old ∧
        ∃ t, db.working.update_content_row write.1 write.2 .PLAIN now = some t ∧
          Call.Returns (exec env) (shared.foldlM (update_one now)
            (before.insert write.1 ⟨old.value, old.classification⟩)) { db with working := t }
            previous db' := by
  simp only [foldlM_cons, update_one, bind_eq, returns_bind, pure_eq,
    returns_done, returns_update_plain_content]
  constructor
  · rintro ⟨_, _, ⟨_, _, ⟨old, hold, rfl, t, ht, rfl⟩, heq, rfl⟩, h⟩
    cases heq
    exact ⟨old, hold, t, ht, h⟩
  · rintro ⟨old, hold, t, ht, h⟩
    exact ⟨_, _, ⟨_, _, ⟨old, hold, rfl, t, ht, rfl⟩, rfl, rfl⟩, h⟩

variable {before : Std.TreeMap ℕ PreviousContentRow}

theorem returns_update_shared
    (h : Call.Returns (exec env) (shared.foldlM (update_one now) before) db previous db') :
    db'.committed = db.committed ∧ db'.next_content_id = db.next_content_id ∧
      db'.working.paths = db.working.paths ∧
      db'.working.contents = db.working.contents.map (ContentRow.overwrite_all now shared) ∧
      db'.working.audit = db.working.audit := by
  induction shared generalizing before db with
  | nil =>
    obtain ⟨_, rfl⟩ := returns_done.mp h
    exact ⟨rfl, rfl, rfl, (map_id' _).symm, rfl⟩
  | cons write shared ih =>
    obtain ⟨old, _, t, ht, h⟩ := returns_update_cons.mp h
    obtain ⟨_, hp, hc, ha⟩ := update_content_row_eq_some.mp ht
    obtain ⟨hcom, hnex, hp', hc', ha'⟩ := ih h
    refine ⟨hcom, hnex, hp'.trans hp, hc'.trans ?_, ha'.trans ha⟩
    simp only [hc, map_map]
    rfl

theorem update_shared_previous
    (h : Call.Returns (exec env) (shared.foldlM (update_one now) before) db previous db')
    (huni : (shared.map Prod.fst).Nodup) :
    (∀ id, id ∉ shared.map Prod.fst → previous[id]? = before[id]?) ∧
      ∀ write ∈ shared, ∃ c ∈ db.working.contents, c.id = write.1 ∧
        previous[write.1]? = some ⟨c.value, c.classification⟩ := by
  induction shared generalizing before db with
  | nil =>
    obtain ⟨heq, _⟩ := returns_done.mp h
    cases heq
    exact ⟨fun _ _ => rfl, fun _ hw => absurd hw not_mem_nil⟩
  | cons first shared ih =>
    rw [map_cons, nodup_cons] at huni
    obtain ⟨old, hold, t, ht, h⟩ := returns_update_cons.mp h
    obtain ⟨hmem, hid⟩ := content_row_eq_some.mp hold
    obtain ⟨_, _, hc, _⟩ := update_content_row_eq_some.mp ht
    obtain ⟨hoth, hwri⟩ := ih h huni.2
    refine ⟨fun id hnot => ?_, fun write hw => ?_⟩
    · rw [map_cons, mem_cons, not_or] at hnot
      rw [hoth id hnot.2, Std.TreeMap.getElem?_insert,
        if_neg fun heq => hnot.1 (compare_eq_iff_eq.mp heq).symm]
    · rcases mem_cons.mp hw with rfl | hw
      · exact ⟨old, hmem, hid, by rw [hoth _ huni.1, Std.TreeMap.getElem?_insert_self]⟩
      · -- The content of a later write is not the one just overwritten.
        have hne : write.1 ≠ first.1 := fun heq =>
          huni.1 (heq ▸ mem_map_of_mem hw)
        obtain ⟨c, hcm, hcid, hprevious⟩ := hwri write hw
        replace hcm : c ∈ t.contents := hcm
        rw [hc] at hcm
        obtain ⟨c₀, hc₀, rfl⟩ := mem_map.mp hcm
        rw [ContentRow.overwrite_id] at hcid
        have hsam : c₀.overwrite first.1 first.2 .PLAIN now = c₀ :=
          if_neg (hcid ▸ hne)
        rw [hsam] at hprevious
        exact ⟨c₀, hc₀, hcid, hprevious⟩

def fresh_rows (now : OffsetDateTime) (displays : Displays) :
    ℕ → List (Text × Text) → List (PathRow × ContentRow)
  | _, [] => []
  | id, write :: fresh =>
    (⟨display_of displays write.1, id, now, now⟩, ⟨id, write.2, .PLAIN, now, now⟩)
      :: fresh_rows now displays (id + 1) fresh

theorem mem_fresh_rows {displays : Displays} {id : ℕ} {p : PathRow} {c : ContentRow} :
    (p, c) ∈ fresh_rows now displays id fresh ↔ ∃ i write, fresh[i]? = some write ∧
      p = ⟨display_of displays write.1, id + i, now, now⟩ ∧
      c = ⟨id + i, write.2, .PLAIN, now, now⟩ := by
  induction fresh generalizing id with
  | nil => simp [fresh_rows]
  | cons write fresh ih =>
    simp only [fresh_rows, mem_cons, Prod.mk.injEq, ih]
    constructor
    · rintro (⟨rfl, rfl⟩ | ⟨i, write', hget, rfl, rfl⟩)
      · exact ⟨0, write, rfl, rfl, rfl⟩
      · exact ⟨i + 1, write', by simpa using hget, by rw [Nat.add_right_comm, Nat.add_assoc],
          by rw [Nat.add_right_comm, Nat.add_assoc]⟩
    · rintro ⟨i, write', hget, rfl, rfl⟩
      cases i with
      | zero =>
        obtain rfl := Option.some.inj hget
        exact Or.inl ⟨rfl, rfl⟩
      | succ i =>
        refine Or.inr ⟨i, write', by simpa using hget, ?_, ?_⟩ <;>
          rw [Nat.add_right_comm, Nat.add_assoc]

theorem fresh_row_mem (displays : Displays) (id : ℕ) {i : ℕ} (h : fresh[i]? = some write) :
    ((⟨display_of displays write.1, id + i, now, now⟩ : PathRow),
      (⟨id + i, write.2, .PLAIN, now, now⟩ : ContentRow)) ∈ fresh_rows now displays id fresh :=
  mem_fresh_rows.mpr ⟨i, write, h, rfl, rfl⟩

section Fresh

variable {now : OffsetDateTime} {displays : Displays} {fresh : List (Text × Text)} {u : Unit}

theorem returns_insert_one {write : Text × Text} :
    Call.Returns (exec env) (insert_one now displays write) db u db' ↔
      ∃ t t', db.working.insert_content_row
          ⟨db.next_content_id, write.2, .PLAIN, now, now⟩ = some t ∧
        t.insert_path_row ⟨display_of displays write.1, db.next_content_id, now, now⟩ = some t' ∧
        db' = ⟨db.committed, t', db.next_content_id + 1⟩ := by
  simp only [insert_one, bind_eq, returns_bind, returns_reserve_content_id,
    returns_insert_content, returns_insert_path]
  constructor
  · rintro ⟨_, _, ⟨rfl, rfl⟩, _, _, ⟨rfl, t, ht, rfl⟩, t', ht', rfl⟩
    exact ⟨t, t', ht, ht', rfl⟩
  · rintro ⟨t, t', ht, ht', rfl⟩
    exact ⟨_, _, ⟨rfl, rfl⟩, _, _, ⟨rfl, t, ht, rfl⟩, t', ht', rfl⟩

theorem returns_insert_fresh (h : Call.Returns (exec env) (insert_fresh now displays fresh) db u db') :
    db'.committed = db.committed ∧ db'.next_content_id = db.next_content_id + fresh.length ∧
      db'.working.paths = db.working.paths ++
        (fresh_rows now displays db.next_content_id fresh).map Prod.fst ∧
      db'.working.contents = db.working.contents ++
        (fresh_rows now displays db.next_content_id fresh).map Prod.snd ∧
      db'.working.audit = db.working.audit := by
  induction fresh generalizing db with
  | nil =>
    obtain ⟨_, rfl⟩ := returns_done.mp h
    exact ⟨rfl, rfl, (append_nil _).symm, (append_nil _).symm, rfl⟩
  | cons write fresh ih =>
    obtain ⟨_, _, hone, hres⟩ := returns_bind.mp h
    obtain ⟨t, t', ht, ht', rfl⟩ := returns_insert_one.mp hone
    obtain ⟨_, hp, hc, ha⟩ := insert_content_row_eq_some.mp ht
    obtain ⟨_, hp', hc', ha'⟩ := insert_path_row_eq_some.mp ht'
    obtain ⟨hcom, hnex, hp'', hc'', ha''⟩ := ih hres
    refine ⟨hcom, ?_, ?_, ?_, ha''.trans (ha'.trans ha)⟩
    · simp only [hnex, length_cons]
      omega
    · simp only [hp'', hp', hp, fresh_rows, map_cons, append_assoc, singleton_append]
    · simp only [hc'', hc', hc, fresh_rows, map_cons, append_assoc, singleton_append]

end Fresh

/-! ## The whole call -/

def Tables.settled (t : Tables) (root : ConfigPath) (n : NormalizedSubtree) : List SubTreeEntry :=
  resolve_preserve_markers n.values (t.secrets_touching root.fold)

def Tables.cleared (t : Tables) (root : ConfigPath) (keep : List Text) : Tables :=
  (t.delete_paths_where (Tables.plain_except root.fold keep)).pruned
    (content_ids (t.deleted_rows (Tables.plain_except root.fold keep)))

structure Replaces (env : Env) (db db' : Db) (root : ConfigPath) (n : NormalizedSubtree)
    (keep : List Text) (writes : ResolvedWrites) : Prop where
  plain : plain_paths (db.committed.settled root n) (db.committed.secrets_touching root.fold)
    = .ok keep
  resolved : resolve_writes (db.committed.cleared root keep).stored_id
    (plain_writes (db.committed.settled root n)) .empty = .ok writes
  paths : db'.committed.paths = (db.committed.cleared root keep).paths ++
    (fresh_rows env.now n.displays db.next_content_id writes.fresh).map Prod.fst
  contents : db'.committed.contents = (db.committed.cleared root keep).contents.map
      (ContentRow.overwrite_all env.now writes.shared.toList) ++
    (fresh_rows env.now n.displays db.next_content_id writes.fresh).map Prod.snd
  next : db'.next_content_id = db.next_content_id + writes.fresh.length

theorem replace_sub_tree_recorded
    (h : Call.Returns (exec env) (replace_sub_tree context path values) db metadata db') :
    ∃ root n keep writes actor previous,
      authorize context path [.Write, .Manage] true = .ok root ∧
      normalize root values = .ok n ∧ context.actor = .ok actor ∧
      Replaces env db db' root n keep writes ∧
      (∀ write ∈ writes.shared.toList, ∃ c ∈ (db.committed.cleared root keep).contents,
        c.id = write.1 ∧ previous[write.1]? = some ⟨c.value, c.classification⟩) ∧
      db'.committed.audit = db.committed.audit ++ (replacement_events actor root
        ⟨db.committed.deleted_rows (Tables.plain_except root.fold keep), writes, previous,
          n.displays⟩).map fun event => ⟨actor, env.now, event⟩ := by
  simp only [replace_sub_tree, bind_eq, lift_eq, returns_bind, returns_done,
    returns_begin, returns_lock_mutation_path, returns_secret_paths_touching, returns_system_time,
    returns_delete_plain_paths_except, returns_prune_orphan_contents,
    returns_resolve_plain_writes, returns_record_in, returns_commit, pure_eq] at h
  obtain ⟨root, _, ⟨haut, rfl⟩, n, _, ⟨hnor, rfl⟩, actor, _, ⟨hact, rfl⟩, _, _, rfl, _, _, rfl,
    _, _, ⟨rfl, rfl⟩, keep, _, ⟨hpla, rfl⟩, _, _, ⟨rfl, rfl⟩, _, _, ⟨rfl, rfl⟩, _, _, rfl, writes,
    _, ⟨hwri, rfl⟩, previous, db₁, hupd, _, db₂, hins, _, _, rfl, _, _, rfl, _, rfl⟩ := h
  obtain ⟨hcom₁, hnex₁, hp₁, hc₁, ha₁⟩ := returns_update_shared hupd
  obtain ⟨hcom₂, hnex₂, hp₂, hc₂, ha₂⟩ := returns_insert_fresh hins
  rw [hnex₁] at hp₂ hc₂ hnex₂
  refine ⟨root, n, keep, writes, actor, previous, haut, hnor, hact,
    ⟨hpla, hwri, ?_, ?_, hnex₂⟩, (update_shared_previous hupd (shared_ids_nodup _)).2, ?_⟩
  · exact hp₂.trans (by rw [hp₁]; rfl)
  · exact hc₂.trans (by rw [hc₁]; rfl)
  · show db₂.working.audit ++ _ = _
    rw [ha₂, ha₁]
    rfl

theorem settled_paths (t : Tables) (root : ConfigPath) (n : NormalizedSubtree) :
    (t.settled root n).map SubTreeEntry.path = n.values.map SubTreeEntry.path := by
  simp only [Tables.settled, resolve_preserve_markers, map_map]
  refine map_congr_left (fun value _ => ?_)
  simp only [comp_apply]
  split <;> rfl

theorem plain_writes_paths (values : List SubTreeEntry) :
    (plain_writes values).map Prod.fst = values.filterMap SubTreeEntry.plain_path := by
  rw [plain_writes, map_filterMap]
  refine filterMap_congr (fun value _ => ?_)
  rcases value with ⟨path, _ | _ | _⟩ <;> rfl

theorem plain_paths_sublist (values : List SubTreeEntry) :
    List.Sublist (values.filterMap SubTreeEntry.plain_path) (values.map SubTreeEntry.path) := by
  induction values with
  | nil => exact List.Sublist.slnil
  | cons value values ih =>
    rcases value with ⟨path, _ | _ | _⟩
    · exact ih.cons _
    · exact ih.cons_cons _
    · exact ih.cons _

theorem Normal.nodup (h : Normal root n) : (n.values.map SubTreeEntry.path).Nodup := by
  rw [List.Nodup, pairwise_map]
  exact h.apart.imp (fun {first second} hapa heq => hapa.1 (by rw [heq]))

theorem Normal.apart_of_ne (h : Normal root n) {v w : SubTreeEntry} (hv : v ∈ n.values)
    (hw : w ∈ n.values) (hne : v.path ≠ w.path) :
    Apart v.path w.path :=
  haveI : Std.Symm fun first second : SubTreeEntry => Apart first.path second.path :=
    ⟨fun _ _ hapa => ⟨hapa.2, hapa.1⟩⟩
  h.apart.forall hv hw (fun heq => hne (by rw [heq]))

theorem Normal.of_plain (t : Tables) (h : Normal root n)
    (hw : write ∈ plain_writes (t.settled root n)) :
    ∃ value, NormalEntry root value ∧ value ∈ n.values ∧ value.path = write.1 := by
  have hpat : write.1 ∈ (plain_writes (t.settled root n)).map Prod.fst :=
    mem_map_of_mem hw
  rw [plain_writes_paths] at hpat
  have hmem := (plain_paths_sublist _).subset hpat
  rw [settled_paths] at hmem
  obtain ⟨value, hval, heq⟩ := mem_map.mp hmem
  exact ⟨value, h.entries value hval, hval, heq⟩

theorem plain_writes_nodup (hn : Normal root n) (t : Tables) :
    ((plain_writes (t.settled root n)).map Prod.fst).Nodup := by
  rw [plain_writes_paths]
  refine List.Nodup.sublist (plain_paths_sublist _) ?_
  rw [settled_paths]
  exact hn.nodup

section Rows

variable {t : Tables} {root : ConfigPath} {n : NormalizedSubtree} {keep : List Text}
  {row : PathRow}

def Tables.HasClass (t : Tables) (row : PathRow) (classification : Classification) : Prop :=
  ∃ c ∈ t.contents, c.id = row.content_id ∧ c.classification = classification

theorem Tables.HasClass.unique (h : t.HasClass row .PLAIN) : ¬ t.HasClass row .SECRET := by
  rintro ⟨c', hc', hid', hcla'⟩
  obtain ⟨c, hc, hid, hcla⟩ := h
  obtain rfl := inj_on_of_nodup_map t.unique_content hc hc' (hid.trans hid'.symm)
  rw [hcla] at hcla'
  exact absurd hcla' (by decide)

theorem Tables.hasClass_or (h : row ∈ t.paths) :
    t.HasClass row .PLAIN ∨ t.HasClass row .SECRET := by
  obtain ⟨c, hc, hid⟩ := t.content_exists row h
  cases hcla : c.classification with
  | PLAIN => exact Or.inl ⟨c, hc, hid, hcla⟩
  | SECRET => exact Or.inr ⟨c, hc, hid, hcla⟩

theorem mem_cleared_paths :
    row ∈ (t.cleared root keep).paths ↔ row ∈ t.paths ∧
      ¬ (root.segs <+: segments row.lowercase_path ∧ t.HasClass row .PLAIN ∧
        row.lowercase_path ∉ keep) := by
  rw [Tables.cleared, Tables.pruned, paths_prune, mem_delete_paths_where]
  refine and_congr_right (fun hrow => ?_)
  simp only [Tables.plain_except, Bool.and_eq_false_iff, Bool.not_eq_false', contains_iff_mem,
    beq_eq_false_iff_ne]
  constructor
  · rintro h ⟨hbel, ⟨c, hc, hid, hcla⟩, hkee⟩
    rcases h c hc hid with (hnot | hnot) | hin
    · rw [(row_at_or_below hrow root).mpr hbel] at hnot
      exact absurd hnot (by decide)
    · exact hnot hcla
    · exact hkee hin
  · intro h c hc hid
    by_cases hbel : root.segs <+: segments row.lowercase_path
    · by_cases hcla : c.classification = .PLAIN
      · right
        by_contra hkee
        exact h ⟨hbel, ⟨c, hc, hid, hcla⟩, hkee⟩
      · exact Or.inl (Or.inr hcla)
    · left; left
      rw [← Bool.not_eq_true, row_at_or_below hrow root]
      exact hbel

variable {path : Text} {values : List SubTreeEntry} {value : SubTreeEntry}

theorem mem_preserve_paths :
    path ∈ values.filterMap SubTreeEntry.preserve_path ↔
      ∃ value ∈ values, value.content = some .PreserveSecret ∧ value.path = path := by
  rw [mem_filterMap]
  refine exists_congr (fun value => and_congr_right (fun _ => ?_))
  rcases value with ⟨p, _ | _ | _⟩ <;> simp [SubTreeEntry.preserve_path]

theorem mem_plain_writes {text : Text} :
    (path, text) ∈ plain_writes values ↔
      ∃ value ∈ values, value.content = some (.PlainValue text) ∧ value.path = path := by
  rw [plain_writes, mem_filterMap]
  refine exists_congr (fun value => and_congr_right (fun _ => ?_))
  rcases value with ⟨p, _ | _ | _⟩ <;> simp [SubTreeEntry.plain_write, and_comm]

theorem settled_preserve (h : value ∈ t.settled root n)
    (hc : value.content = some .PreserveSecret) : value.path ∈ t.secrets_touching root.fold := by
  obtain ⟨v, _, rfl⟩ := mem_map.mp h
  split at hc
  · simp at hc
  · rename_i hkep
    rw [if_neg hkep]
    simpa [hc] using hkep

theorem settled_entry (h : value ∈ n.values) (hok : content_ok value.content = true) :
    (∃ text, (value.path, text) ∈ plain_writes (t.settled root n)) ∨
      value.path ∈ t.secrets_touching root.fold := by
  have hmem : ∀ value' : SubTreeEntry, (if value.content = some .PreserveSecret ∧
      !(t.secrets_touching root.fold).contains value.path then
        { value with content := some (.PlainValue MASKED_SECRET_TEXT) } else value) = value' →
      value' ∈ t.settled root n := fun value' heq => heq ▸ mem_map_of_mem h
  by_cases hsec : value.path ∈ t.secrets_touching root.fold
  · exact Or.inr hsec
  · left
    rcases hc : value.content with _ | text | _
    · rw [hc] at hok
      exact absurd hok (by decide)
    · exact ⟨text, mem_plain_writes.mpr
        ⟨value, hmem _ (if_neg (by simp [hc])), hc, rfl⟩⟩
    · exact ⟨MASKED_SECRET_TEXT, mem_plain_writes.mpr
        ⟨_, hmem _ (if_pos (by simp [hc, hsec])), rfl, rfl⟩⟩

theorem plain_paths_ok_iff :
    plain_paths (t.settled root n) (t.secrets_touching root.fold) = .ok keep ↔
      keep = (plain_writes (t.settled root n)).map Prod.fst ∧
      ∀ path ∈ keep, ∀ secret ∈ t.secrets_touching root.fold, paths_collide path secret = false := by
  have hpre : ((t.settled root n).filterMap SubTreeEntry.preserve_path).all
      (fun preserve => (t.secrets_touching root.fold).contains preserve) = true := by
    rw [all_eq_true]
    intro path hpat
    obtain ⟨value, hval, hc, rfl⟩ := mem_preserve_paths.mp hpat
    simpa using settled_preserve hval hc
  simp only [plain_paths, hpre, ← plain_writes_paths, Bool.not_true, Bool.or_false]
  split
  · rename_i hbad
    refine iff_of_false (by simp) ?_
    rintro ⟨rfl, hgoo⟩
    simp only [any_eq_true] at hbad
    obtain ⟨p, hp, s, hs, hcol⟩ := hbad
    rw [hgoo p hp s hs] at hcol
    exact absurd hcol (by decide)
  · rename_i hgoo
    simp only [any_eq_true, not_exists, not_and, Bool.not_eq_true] at hgoo
    constructor
    · rintro h
      obtain rfl := Except.ok.inj h
      exact ⟨rfl, hgoo⟩
    · rintro ⟨rfl, _⟩
      rfl

theorem secret_touches (hv : NormalEntry root value) (hrow : row ∈ t.paths)
    (hsec : t.HasClass row .SECRET)
    (hmee : segments row.lowercase_path <+: segments value.path ∨
      segments value.path <+: segments row.lowercase_path) :
    row.lowercase_path ∈ t.secrets_touching root.fold := by
  refine mem_secrets_touching.mpr ⟨row, hrow, rfl, hsec, ?_⟩
  obtain ⟨_, _, _, hbel⟩ := hv.segments
  rcases hmee with h | h
  · exact ( prefix_or_prefix_of_prefix h hbel).symm
  · exact Or.inl (hbel.trans h)

theorem entry_collides_iff (hv : NormalEntry root value) (hrow : row ∈ t.paths) :
    paths_collide value.path row.lowercase_path = true ↔
      segments value.path <+: segments row.lowercase_path ∨
        segments row.lowercase_path <+: segments value.path := by
  obtain ⟨hfol, htex, hne, _⟩ := hv.segments
  obtain ⟨hfol', htex', hne'⟩ := Tables.path_segments hrow
  have := paths_collide_iff hfol hfol' hne hne'
  rwa [← htex, ← htex'] at this

end Rows

/-! ## The rows a replacement leaves -/

section Left

variable {root : ConfigPath} {n : NormalizedSubtree} {keep : List Text}

variable {write : Text × Text} {row : PathRow} {c : ContentRow}

section Replaces

variable (h : Replaces env db db' root n keep writes)
include h

theorem Replaces.mem_fresh :
    write ∈ writes.fresh ↔ write ∈ plain_writes (db.committed.settled root n) ∧
      (db.committed.cleared root keep).stored_id write.1 = none := by
  rw [(resolve_writes_ok h.resolved).fresh, mem_filter, Option.isNone_iff_eq_none]

theorem Replaces.kept_row
    (hrow : row ∈ (db.committed.cleared root keep).paths) : row ∈ db'.committed.paths := by
  rw [h.paths]
  exact mem_append_left _ hrow

theorem Replaces.fresh_row {i : ℕ}
    (hget : writes.fresh[i]? = some write) :
    (⟨display_of n.displays write.1, db.next_content_id + i, env.now, env.now⟩ : PathRow) ∈
      db'.committed.paths := by
  rw [h.paths]
  exact mem_append_right _ (mem_map_of_mem (fresh_row_mem _ _ hget))

theorem Replaces.fresh_fold (hn : Normal root n)
    (hw : write ∈ writes.fresh) :
    to_ascii_lowercase (display_of n.displays write.1) = write.1 ∧
      ∃ value, NormalEntry root value ∧ value ∈ n.values ∧ value.path = write.1 := by
  obtain ⟨value, hval, hin, hpat⟩ := hn.of_plain db.committed (h.mem_fresh.mp hw).1
  refine ⟨?_, value, hval, hin, hpat⟩
  rw [← hpat]
  exact (display_of_normal hn.displays hval).2

theorem Replaces.mem_paths (hn : Normal root n)
    (hrow : row ∈ db'.committed.paths) :
    row ∈ (db.committed.cleared root keep).paths ∨
      ∃ write ∈ writes.fresh, row.lowercase_path = write.1 ∧
        db.next_content_id ≤ row.content_id := by
  rw [h.paths, mem_append] at hrow
  refine hrow.imp_right (fun hfre => ?_)
  obtain ⟨⟨p, c⟩, hmem, rfl⟩ := mem_map.mp hfre
  obtain ⟨i, write, hget, rfl, rfl⟩ := mem_fresh_rows.mp hmem
  have hw := mem_of_getElem? hget
  exact ⟨write, hw, (h.fresh_fold hn hw).1, Nat.le_add_right _ _⟩

theorem Replaces.plain_present (hn : Normal root n)
    (hw : write ∈ plain_writes (db.committed.settled root n)) :
    ∃ row ∈ db'.committed.paths, row.lowercase_path = write.1 := by
  cases hsto : (db.committed.cleared root keep).stored_id write.1 with
  | some id =>
    obtain ⟨row, hrow, _⟩ := Option.map_eq_some_iff.mp hsto
    obtain ⟨hmem, hfol⟩ := path_row_eq_some.mp hrow
    exact ⟨row, h.kept_row hmem, hfol⟩
  | none =>
    have hfre := h.mem_fresh.mpr ⟨hw, hsto⟩
    obtain ⟨i, hi⟩ := mem_iff_getElem?.mp hfre
    exact ⟨_, h.fresh_row hi, (h.fresh_fold hn hfre).1⟩

theorem Replaces.overwritten (c : ContentRow) :
    (∃ write ∈ plain_writes (db.committed.settled root n),
      (db.committed.cleared root keep).stored_id write.1 = some c.id ∧
      c.overwrite_all env.now writes.shared.toList =
        { c with value := write.2, classification := .PLAIN, updated_at := env.now }) ∨
    ((∀ write ∈ plain_writes (db.committed.settled root n),
      (db.committed.cleared root keep).stored_id write.1 ≠ some c.id) ∧
      c.overwrite_all env.now writes.shared.toList = c) := by
  have hres := resolve_writes_ok h.resolved
  have huni := shared_ids_nodup writes.shared
  cases hget : writes.shared[c.id]? with
  | some text =>
    left
    obtain ⟨path, hwri, hsto⟩ := (hres.shared c.id text).mp hget
    exact ⟨(path, text), hwri, hsto, ContentRow.overwrite_all_of_mem huni
      (Std.TreeMap.mem_toList_iff_getElem?_eq_some.mpr hget)⟩
  | none =>
    right
    refine ⟨fun write hwri hsto => ?_, ContentRow.overwrite_all_of_not_mem (fun hmem => ?_)⟩
    · rw [(hres.shared c.id write.2).mpr ⟨write.1, hwri, hsto⟩] at hget
      simp at hget
    · obtain ⟨⟨id, text⟩, hin, hid⟩ := mem_map.mp hmem
      obtain rfl : id = c.id := hid
      rw [Std.TreeMap.mem_toList_iff_getElem?_eq_some.mp hin] at hget
      simp at hget

theorem Replaces.mem_contents :
    c ∈ db'.committed.contents ↔
      (∃ old ∈ (db.committed.cleared root keep).contents,
        old.overwrite_all env.now writes.shared.toList = c) ∨
      ∃ i write, writes.fresh[i]? = some write ∧
        c = ⟨db.next_content_id + i, write.2, .PLAIN, env.now, env.now⟩ := by
  rw [h.contents, mem_append, mem_map]
  refine or_congr_right ?_
  constructor
  · intro hmem
    obtain ⟨⟨p, c'⟩, hrow, rfl⟩ := mem_map.mp hmem
    obtain ⟨i, write, hget, _, rfl⟩ := mem_fresh_rows.mp hrow
    exact ⟨i, write, hget, rfl⟩
  · rintro ⟨i, write, hget, rfl⟩
    exact mem_map_of_mem (fresh_row_mem _ _ hget)

end Replaces

theorem mem_cleared_contents {t : Tables} :
    c ∈ (t.cleared root keep).contents ↔ c ∈ t.contents ∧
      ((∃ row ∈ t.paths, row.content_id = c.id ∧ row ∉ (t.cleared root keep).paths) →
        ∃ row ∈ (t.cleared root keep).paths, row.content_id = c.id) := by
  have hpat : (t.cleared root keep).paths =
      (t.delete_paths_where (Tables.plain_except root.fold keep)).paths := paths_prune _
  have hids : c ∈ t.contents → (c.id ∈ content_ids (t.deleted_rows
      (Tables.plain_except root.fold keep)) ↔
      ∃ row ∈ t.paths, row.content_id = c.id ∧ row ∉ (t.cleared root keep).paths) := by
    intro hc
    rw [mem_content_ids, hpat]
    constructor
    · rintro ⟨d, hd, hid⟩
      obtain ⟨row, hrow, c', hc', hid', hcon, rfl⟩ := mem_deleted_rows.mp hd
      refine ⟨row, hrow, hid, fun hsta => ?_⟩
      rw [(mem_delete_paths_where.mp hsta).2 c' hc' hid'] at hcon
      exact absurd hcon (by decide)
    · rintro ⟨row, hrow, hid, hgon⟩
      have hcon : Tables.plain_except root.fold keep row c = true := by
        by_contra hnot
        refine hgon (mem_delete_paths_where.mpr ⟨hrow, fun c' hc' hid' => ?_⟩)
        obtain rfl := inj_on_of_nodup_map t.unique_content hc hc' (by rw [hid', hid])
        simpa using hnot
      exact ⟨_, mem_deleted_rows.mpr ⟨row, hrow, c, hc, hid.symm, hcon, rfl⟩, hid⟩
  show c ∈ (Tables.pruned _ _).contents ↔ _
  rw [Tables.pruned, mem_contents_prune, ← hpat]
  constructor
  · rintro ⟨hc, himp⟩
    exact ⟨hc, fun hrow => himp ((hids hc).mpr hrow)⟩
  · rintro ⟨hc, himp⟩
    exact ⟨hc, fun hid => himp ((hids hc).mp hid)⟩

end Left

end SovereignConfig.Values
