/-
The four mutations keep to the discipline. Each call is walked through once, statement by
statement, with what it knows along the way.
-/
import SovereignConfig.Values.Replace
import SovereignConfig.Values.Writes

namespace SovereignConfig.Values

open Lib Text List ConfigPath

variable {ι : Type} [DecidableEq ι]

namespace Shared

variable {replaces : ι → Prop} {i : ι}

variable {F : Shared ι → Prop} {fold content : Text} {root : ConfigPath} {w : Shared ι}
  {keep secrets : List Text} {values : List SubTreeEntry} {displays : Displays}

theorem safe_system_time (hF : Lasting i F) :
    Safe replaces i system_time (Knows i F) fun _ => Knows i F :=
  safe_silent .system_time (by simp) (fun _ _ _ hx => hx) hF

theorem safe_stored_representation (hF : Lasting i F) (id : ℕ) (cls : Classification)
    (value : Text) :
    Safe replaces i (stored_representation id cls value) (Knows i F) fun _ => Knows i F := by
  unfold stored_representation
  by_cases hcls : cls = .SECRET
  · rw [if_pos hcls]
    exact safe_silent (.encrypt id cls value) (by simp) (fun _ _ _ hx => hx) hF
  · rw [if_neg hcls]
    exact fun _ _ hw => hw

theorem safe_open {α : Type} {rest : Unit → Service α} {R : α → Shared ι → Prop} (p : ConfigPath)
    (h : Safe replaces i (rest ()) (Knows i fun w => w.Holds i p ∧ w.Clean i) R) :
    Safe replaces i (store.begin.bind fun _ => (lock_mutation_path p).bind rest)
      (fun w => w.opened i = false) R := by
  refine safe_begin.bind fun _ => ?_
  refine ((safe_lock_mutation_path (E := fun _ => True) fact_of p).pre ?_).bind fun _ => h.pre ?_
  · exact fun w _ hw hope => ⟨trivial, hw hope⟩
  · intro w _ hw hope
    exact ⟨(hw hope).1.2, (hw hope).2⟩

theorem safe_finish {α : Type} (hF : ∀ w, F w → w.Owes i [] []) (actor : Actor)
    (time : OffsetDateTime) (events : List AuditEvent) (result : α) :
    Safe replaces i ((record_in actor time events).bind fun _ =>
      store.commit.bind fun _ => .done (.ok result)) (Knows i F) fun _ _ => True := by
  refine ((safe_record_in actor time events).pre fun w _ hw hope => hF w (hw hope)).bind
    fun _ => ?_
  exact safe_commit.bind fun _ => fun _ _ _ => trivial

theorem keyed_at_or_below {row : PathRow} (h : Keyed fold row) (root : ConfigPath) :
    at_or_below row.lowercase_path root.fold = true ↔ root.segs <+: segments row.lowercase_path := by
  have hp := at_or_below_iff (foldSegments_segs ⟨row.path, Or.inr h.2⟩)
    root.foldSegments_segs
  rwa [← fold_eq, ← fold_eq] at hp

/-! ## `put_value` -/

def Found (w : Shared ι) (i : ι) (fold : Text) : Option PathContentClassRow → Prop
  | none => True
  | some row => w.Classified i fold row.content_id row.classification ∧
      (row.path_count ≤ 1 →
        (w.Covers i fold ∧ w.HasPath fold row.content_id) ∧ w.Sole fold row.content_id)

theorem fact_found (fold : Text) (found : Option PathContentClassRow) :
    Fact i fun w => w.Found i fold found := by
  cases found with
  | none => exact fact_of
  | some row =>
    exact (fact_classified fold row.content_id row.classification).and
      (Fact.forall fun _ => fact_sole fold row.content_id)

theorem safe_path_content_class (p : ConfigPath) :
    Safe replaces i (store.path_content_class p.fold) (Knows i fun w => w.Holds i p ∧ w.Clean i)
      fun found => Knows i fun w => (w.Holds i p ∧ w.Found i p.fold found) ∧ w.Clean i := by
  refine safe_read (.path_content_class p.fold)
    (fun (found : Option PathContentClassRow) w => w.Found i p.fold found) (by simp)
    (fun _ _ _ hx => ⟨hx.1, hx.2.1⟩) (fact_holds p) lasting_clean ?_
  rintro w found _ hhol hcle ⟨_, _, _, hfou⟩
  cases found with
  | none => trivial
  | some row =>
    obtain ⟨path, c, ⟨hpat, hc⟩, hfold, hid, _, hcls, folds, hcar, hfol⟩ := hfou row rfl
    rw [hcle.seen_path, hfold] at hpat
    rw [hcle.seen_content] at hc
    have hher : w.Covers i p.fold ∧ w.HasPath p.fold row.content_id :=
      ⟨hhol.covers, path, hpat, hid.symm⟩
    refine ⟨⟨hher, c, hid ▸ hc, hcls.symm⟩, fun hone => ⟨hher, ?_⟩⟩
    -- The count is of the paths of the content; there is one, so any other is this one.
    have hmem : ∀ key, w.HasPath key row.content_id → key ∈ folds := by
      rintro key ⟨path', hpat', hid'⟩
      exact (hfol key).mpr ⟨path', (hcle.seen_path key).trans hpat', hid'.trans hid⟩
    intro other hoth
    exact Finset.card_le_one.mp (hcar ▸ hone) other (hmem other hoth) p.fold (hmem _ hher.2)

theorem safe_overwrite_existing (hrep : ¬ replaces i) (p : ConfigPath)
    (existing : PathContentClassRow) (value : Text) (cls : Classification) (now : OffsetDateTime) :
    Safe replaces i (overwrite_existing existing value cls now)
      (Knows i fun w => (w.Holds i p ∧ w.Found i p.fold (some existing)) ∧ w.Clean i)
      fun _ => Knows i fun w => w.Owes i [] [] := by
  have hE := (fact_holds (i := i) p).and (fact_found p.fold (some existing))
  unfold overwrite_existing
  by_cases hbad : existing.path_count > 1 ∧ existing.classification ≠ cls
  · rw [if_pos hbad]
    exact Guarded.error
  rw [if_neg hbad]
  refine (safe_stored_representation (hE.lasting.and lasting_clean) _ cls value).bind
    fun stored => ?_
  refine Guarded.conseq (safe_statement (by simp) (fun _ _ _ hx => hx.1) hE lasting_clean ?_)
    (fun _ _ hw => hw) fun _ w _ hw hope => (hw hope).2
  rintro w row w' hw hope ⟨_, ⟨⟨hcov, hher⟩, c, hc, hcls⟩, hsol⟩ hcle
    ⟨_, old, ⟨hsee, hfre, _, rfl⟩, _⟩
  have hne : (w.contents existing.content_id).seen i ≠ none := by simp [hsee]
  refine ⟨.write_content hw hope hfre (hw.lt_next hne) ?_ fun h => absurd h hrep,
    hcle.owes.write_content hfre (pending_ne_of_seen hne)
      (fun x hx => absurd hx not_mem_nil) fun hnone => absurd (hc.symm.trans hnone) (by simp)⟩
  -- A change of classification was let through, so the path was the only one.
  intro c' hc' hcha
  obtain rfl : c = c' := Option.some.inj (hc.symm.trans hc')
  have hone : existing.path_count ≤ 1 := by
    by_contra hman
    exact hbad ⟨by omega, fun heq => hcha (hcls.trans heq)⟩
  exact ⟨⟨p.fold, hcov, hher, (hsol hone).2⟩, hcle.1⟩

theorem safe_create_value (p : ConfigPath) (value : Text) (cls : Classification)
    (now : OffsetDateTime) :
    Safe replaces i (create_value p value cls now)
      (Knows i fun w => w.Holds i p ∧ w.Creating i) fun _ => Knows i fun w => w.Owes i [] [] := by
  unfold create_value
  have hE := fact_holds (i := i) p
  refine (safe_silent (.path_collides p.fold) (by simp) (fun _ _ _ hx => hx.2.1)
    (hE.lasting.and lasting_creating)).bind fun (collides : Bool) => ?_
  cases collides with
  | true => exact Guarded.error
  | false =>
    refine (safe_reserve hE).bind fun id => ?_
    have hE' := hE.and (fact_next id)
    refine (safe_stored_representation (hE'.lasting.and
      (lasting_creating.and (lasting_unwritten id))) id cls value).bind fun stored => ?_
    refine (safe_insert_content hE' id stored cls now fun w hw => hw.2).bind fun content => ?_
    refine (safe_insert_created hE' p.as_str content.id now fun w hw => hw.1.covers).bind
      fun _ => ?_
    exact fun w _ hw hope => (hw hope).2.owes

theorem safe_put_value (hrep : ¬ replaces i) (context : CallContext) (path : Text)
    (written : Option PutContent) :
    Safe replaces i (put_value context path written) (fun w => w.opened i = false)
      fun _ _ => True := by
  refine Guarded.lift fun p _ => Guarded.lift fun ⟨value, cls⟩ _ => ?_
  by_cases hnul : contains_char value '\x00' = true
  · simp only [hnul, if_true]
    exact Guarded.error
  simp only [hnul, if_false, Bool.false_eq_true]
  refine Guarded.lift fun actor _ => safe_open p ?_
  refine (safe_system_time ((fact_holds p).lasting.and lasting_clean)).bind fun now => ?_
  refine (safe_path_content_class p).bind fun existing => ?_
  have hwri : Safe replaces i (write_value p existing value cls now)
      (Knows i fun w => (w.Holds i p ∧ w.Found i p.fold existing) ∧ w.Clean i)
      fun _ => Knows i fun w => w.Owes i [] [] := by
    cases existing with
    | some existing => exact safe_overwrite_existing hrep p existing value cls now
    | none =>
      refine (safe_create_value p value cls now).pre fun w _ hw hope => ?_
      exact ⟨(hw hope).1.1, (hw hope).2.creating⟩
  exact hwri.bind fun row => safe_finish (fun _ hw => hw) actor now _ _

/-! ## `delete_values` -/

theorem selected_below {recurse : Bool} {p : PathRow} {c : ContentRow} (hkey : Keyed fold p)
    (h : Tables.selected root.fold recurse p c = true) :
    root.segs <+: segments p.lowercase_path := by
  unfold Tables.selected at h
  cases recurse with
  | true => exact (keyed_at_or_below hkey root).mp h
  | false =>
    have heq : p.lowercase_path = root.fold := by simpa using h
    rw [heq, segments_fold]

theorem deleted_covers {cond : PathRow → ContentRow → Bool}
    (hbel : ∀ fold p c, Keyed fold p → cond p c = true → root.segs <+: segments p.lowercase_path)
    (hw : w.Consistent) (hcle : w.Clean i) (hhol : w.Holds i root) (p : PathRow)
    (c : ContentRow) (hj : w.Joined i p c) (hcon : cond p c = true) :
    w.Covers i p.lowercase_path :=
  ⟨root, hhol, hbel _ p c (hw.path_key _ p ((hcle.seen_path _).symm.trans hj.1)) hcon⟩

theorem safe_delete_values (hrep : ¬ replaces i) (context : CallContext) (path : Text)
    (recurse : Bool) :
    Safe replaces i (delete_values context path recurse) (fun w => w.opened i = false)
      fun _ _ => True := by
  refine Guarded.lift fun p _ => Guarded.lift fun actor _ => safe_open p ?_
  have hdele : Safe replaces i (store.delete_paths p.fold recurse)
      (Knows i fun w => w.Holds i p ∧ w.Clean i)
      fun deleted => Knows i fun w => w.Holds i p ∧ w.Cleared i (content_ids deleted) := by
    refine safe_statement (by simp) (fun _ _ _ hx => hx.1) (fact_holds p) lasting_clean ?_
    rintro w deleted w' hw hope hhol hcle ⟨_, hdel⟩
    exact hdel.keeps hw hope hcle
      (deleted_covers (fun _ _ _ => selected_below) hw hcle hhol) fun h => absurd h hrep
  refine hdele.bind fun deleted => ?_
  by_cases hemp : deleted.isEmpty = true
  · simp only [hemp, if_true]
    exact Guarded.error
  simp only [hemp, if_false, Bool.false_eq_true]
  refine (safe_prune (fact_holds p) (content_ids deleted)).bind fun _ => ?_
  refine (safe_system_time ((fact_holds p).lasting.and lasting_pruned)).bind fun now => ?_
  exact safe_finish (fun _ hw => hw.2.owes) actor now _ _

/-! ## `add_value_path` -/

theorem safe_add_value_path (context : CallContext) (paths : AliasPaths) :
    Safe replaces i (add_value_path context paths) (fun w => w.opened i = false)
      fun _ _ => True := by
  refine Guarded.lift fun ⟨actor, source, new_path⟩ _ => ?_
  refine safe_open (alias_order source new_path).1 ?_
  refine (safe_lock_mutation_path (fact_holds _) (alias_order source new_path).2).bind fun _ => ?_
  -- In whichever order, both paths are locked now.
  have hE : Fact i fun w => w.Holds i source ∧ w.Holds i new_path :=
    (fact_holds source).and (fact_holds new_path)
  have hbot : ∀ w : Shared ι, w.Holds i (alias_order source new_path).1 ∧
      w.Holds i (alias_order source new_path).2 → w.Holds i source ∧ w.Holds i new_path := by
    intro w h
    unfold alias_order at h
    split at h
    · exact h
    · exact h.symm
  have hsou : Safe replaces i (store.content_id_at source.fold)
      (Knows i fun w => (w.Holds i source ∧ w.Holds i new_path) ∧ w.Clean i)
      fun found => Knows i fun w => ((w.Holds i source ∧ w.Holds i new_path) ∧
        ∀ id, found = some id → w.Covers i source.fold ∧ w.HasPath source.fold id) ∧ w.Clean i := by
    refine safe_read (.content_id_at source.fold) (fun (found : Option ℕ) w =>
      ∀ id, found = some id → w.Covers i source.fold ∧ w.HasPath source.fold id) (by simp)
      (fun _ _ _ hx => ⟨hx.1, hx.2.1⟩) hE lasting_clean ?_
    rintro w found _ hhol hcle ⟨_, _, rfl⟩ id hid
    obtain ⟨row, hrow, rfl⟩ := Option.map_eq_some_iff.mp hid
    exact ⟨hhol.1.covers, row, (hcle.seen_path _).symm.trans hrow, rfl⟩
  refine (hsou.pre fun w _ hw hope => ⟨hbot w (hw hope).1, (hw hope).2⟩).bind
    fun found => ?_
  cases found with
  | none => exact Guarded.error
  | some id =>
    have hE' := hE.and (Fact.forall fun x => Fact.forall fun (_ : some id = some x) =>
      fact_covered (i := i) source.fold x)
    refine (safe_silent (.path_is_occupied new_path.fold) (by simp) (fun _ _ _ hx => hx.2.1)
      (hE'.lasting.and lasting_clean)).bind fun (occupied : Bool) => ?_
    cases occupied with
    | true => exact Guarded.error
    | false =>
      refine (safe_silent (.path_collides new_path.fold) (by simp) (fun _ _ _ hx => hx.2.1)
        (hE'.lasting.and lasting_clean)).bind fun (collides : Bool) => ?_
      cases collides with
      | true => exact Guarded.error
      | false =>
        refine (safe_system_time (hE'.lasting.and lasting_clean)).bind fun now => ?_
        refine (safe_insert_alias hE' new_path.as_str source.fold id now
          (fun w hw => hw.1.2.covers) fun w hw => hw.2 id rfl).bind fun _ => ?_
        exact safe_finish (fun _ hw => hw.2) actor now _ _

/-! ## `replace_sub_tree` -/

omit [DecidableEq ι] in
theorem not_secret_of_plain (h : plain_paths values secrets = .ok keep) {value : SubTreeEntry}
    (hval : value ∈ values) (hcon : value.content = some (.PlainValue content)) :
    value.path ∉ secrets := by
  intro hsec
  have hpla : value.path ∈ values.filterMap SubTreeEntry.plain_path :=
    mem_filterMap.mpr ⟨value, hval, by simp [SubTreeEntry.plain_path, hcon]⟩
  have hany : ((values.filterMap SubTreeEntry.plain_path).any fun plain =>
      secrets.any fun secret => paths_collide plain secret) = true :=
    any_eq_true.mpr ⟨_, hpla, any_eq_true.mpr ⟨_, hsec, by simp [paths_collide]⟩⟩
  simp [plain_paths, hany] at h

theorem safe_secret_paths (root : ConfigPath) :
    Safe replaces i (store.secret_paths_touching root.fold)
      (Knows i fun w => w.Holds i root ∧ w.Clean i)
      fun secrets => Knows i fun w => w.SecretsAmong i root secrets ∧ w.Clean i := by
  have hread : Safe replaces i (store.secret_paths_touching root.fold)
      (Knows i fun w => w.Holds i root ∧ w.Clean i)
      fun secrets => Knows i fun w =>
        (w.Holds i root ∧ w.SecretsAmong i root secrets) ∧ w.Clean i := by
    refine safe_read (.secret_paths_touching root.fold)
      (fun (secrets : List Text) w => w.SecretsAmong i root secrets) (by simp)
      (fun _ _ _ hx => ⟨hx.1, hx.2.1⟩) (fact_holds root) lasting_clean ?_
    rintro w secrets hw hhol hcle ⟨_, _, hsec⟩
    refine ⟨hhol, ?_⟩
    rintro fold id c hbel ⟨row, hrow, rfl⟩ hc hsecr
    have hkey := hw.path_key fold row hrow
    refine (hsec fold).mpr ⟨row, c, ⟨?_, ?_⟩, hkey.1, hsecr, Or.inl ?_⟩
    · rw [hkey.1, hcle.seen_path, hrow]
    · rw [hcle.seen_content, hc]
    · rw [← hkey.1, keyed_at_or_below hkey, hkey.1]
      exact hbel
  exact hread.conseq (fun _ _ hw => hw) fun _ w _ hw hope => ⟨(hw hope).1.2, (hw hope).2⟩

theorem safe_delete_plain (root : ConfigPath) (secrets keep : List Text) :
    Safe replaces i (store.delete_plain_paths_except root.fold keep)
      (Knows i fun w => w.SecretsAmong i root secrets ∧ w.Clean i)
      fun cleared => Knows i fun w =>
        w.SecretsAmong i root secrets ∧ w.Cleared i (content_ids cleared) := by
  refine safe_statement (by simp) (fun _ _ _ hx => hx.1) (fact_secrets root secrets)
    lasting_clean ?_
  rintro w cleared w' hw hope ⟨hhol, _⟩ hcle ⟨_, hdel⟩
  refine hdel.keeps hw hope hcle
    (deleted_covers (fun fold p c hkey hcon => ?_) hw hcle hhol) fun _ p c hcon => ?_
  · simp only [Tables.plain_except, Bool.and_eq_true] at hcon
    exact (keyed_at_or_below hkey root).mp hcon.1.1
  · simp only [Tables.plain_except, Bool.and_eq_true, beq_iff_eq] at hcon
    exact hcon.1.2

structure Resolved (w : Shared ι) (i : ι) (root : ConfigPath) (displays : Displays)
    (writes : ResolvedWrites) : Prop where
  shared : ∀ id value, writes.shared[id]? = some value → ∃ fold, w.Classified i fold id .PLAIN
  fresh : ∀ entry ∈ writes.fresh, root.segs <+: segments entry.1 ∧
    to_ascii_lowercase (display_of displays entry.1) = entry.1

theorem fact_resolved (root : ConfigPath) (displays : Displays) (writes : ResolvedWrites) :
    Fact i fun w => w.Resolved i root displays writes := by
  have hsha : Fact i fun w => ∀ id value, writes.shared[id]? = some value →
      ∃ fold, w.Classified i fold id .PLAIN :=
    .forall fun id => .forall fun _ => .forall fun _ => .exists fun fold =>
      fact_classified fold id .PLAIN
  exact ⟨fun w w' hw hw' henv h => ⟨hsha.lasting w w' hw hw' henv h.shared, h.fresh⟩,
    fun w w' hq hl h => ⟨hsha.own w w' hq hl h.shared, h.fresh⟩⟩

omit [DecidableEq ι] in
theorem Resolved.add {writes writes' : ResolvedWrites} (h : w.Resolved i root displays writes)
    {path : Text} {found : Option ℕ} (hadd : writes.add path content found = .ok writes')
    (hfou : ∀ id, found = some id → ∃ fold, w.Classified i fold id .PLAIN)
    (hpat : root.segs <+: segments path ∧ to_ascii_lowercase (display_of displays path) = path) :
    w.Resolved i root displays writes' := by
  cases found with
  | none =>
    obtain rfl := Except.ok.inj hadd
    refine ⟨h.shared, fun entry hent => ?_⟩
    rcases mem_append.mp hent with hent | hent
    · exact h.fresh entry hent
    · rw [mem_singleton.mp hent]
      exact hpat
  | some id =>
    simp only [ResolvedWrites.add] at hadd
    split at hadd
    · split at hadd
      · simp at hadd
      · obtain rfl := Except.ok.inj hadd
        exact ⟨h.shared, h.fresh⟩
    · obtain rfl := Except.ok.inj hadd
      refine ⟨fun key value hget => ?_, h.fresh⟩
      rw [Std.TreeMap.getElem?_insert] at hget
      split at hget
      · rename_i heq
        exact hfou key (by rw [Std.LawfulEqCmp.eq_of_compare heq])
      · exact h.shared key value hget

theorem safe_resolve_plain_writes (hkee : plain_paths values secrets = .ok keep)
    (hpat : ∀ value ∈ values, root.segs <+: segments value.path ∧
      to_ascii_lowercase (display_of displays value.path) = value.path) :
    Safe replaces i (resolve_plain_writes values)
      (Knows i fun w => w.SecretsAmong i root secrets ∧ w.Pruned i)
      fun writes => Knows i fun w =>
        (w.SecretsAmong i root secrets ∧ w.Resolved i root displays writes) ∧ w.Pruned i := by
  let F : ResolvedWrites → Shared ι → Prop := fun writes w =>
    (w.SecretsAmong i root secrets ∧ w.Resolved i root displays writes) ∧ w.Pruned i
  refine Guarded.conseq (Guarded.foldlM (I := fun _ writes => Knows i (F writes)) values .empty ?_)
    ?_ fun _ _ _ hw => hw
  · intro value hval writes rest
    have hE := (fact_secrets (i := i) root secrets).and (fact_resolved root displays writes)
    split
    · rename_i content hcon
      have hread : Safe replaces i (store.content_id_at value.path) (Knows i (F writes))
          fun found => Knows i fun w => ((w.SecretsAmong i root secrets ∧
            w.Resolved i root displays writes) ∧
            ∀ id, found = some id → ∃ fold, w.Classified i fold id .PLAIN) ∧ w.Pruned i := by
        refine safe_read (.content_id_at value.path) (fun (found : Option ℕ) w =>
          ∀ id, found = some id → ∃ fold, w.Classified i fold id .PLAIN) (by simp)
          (fun _ _ _ hx => ⟨hx.1, hx.2.1⟩) hE lasting_pruned ?_
        rintro w found hw ⟨⟨hhol, hsec⟩, _⟩ hpru ⟨_, _, rfl⟩ id hid
        obtain ⟨row, hrow, rfl⟩ := Option.map_eq_some_iff.mp hid
        obtain ⟨_, hrow⟩ := (Cell.seen_eq_some hrow).resolve_left (hpru.only value.path row)
        obtain ⟨c, hc⟩ := hw.referenced value.path row hrow
        have hbel := (hpat value hval).1
        refine ⟨value.path, ⟨⟨root, hhol, hbel⟩, row, hrow, rfl⟩, c, hc, ?_⟩
        cases hcls : c.classification with
        | PLAIN => rfl
        | SECRET =>
          exact absurd (hsec value.path _ c hbel ⟨row, hrow, rfl⟩ hc hcls)
            (not_secret_of_plain hkee hval hcon)
      refine hread.bind fun found => ?_
      show Guarded _ _ _ i (.done (writes.add value.path content found)) _ _
      cases hadd : writes.add value.path content found with
      | error e => exact Guarded.error
      | ok writes' =>
        intro w _ hw hope
        obtain ⟨⟨⟨hsec, hres⟩, hfou⟩, hpru⟩ := hw hope
        exact ⟨⟨hsec, hres.add hadd hfou (hpat value hval)⟩, hpru⟩
    · exact fun _ _ hw => hw
  · intro w _ hw hope
    refine ⟨⟨(hw hope).1, fun id value hget => ?_, fun _ hent => absurd hent not_mem_nil⟩,
      (hw hope).2⟩
    simp [ResolvedWrites.empty] at hget

theorem safe_update_shared (root : ConfigPath) (displays : Displays) (writes : ResolvedWrites)
    (now : OffsetDateTime) :
    Safe replaces i (update_shared now writes.shared.toList)
      (Knows i fun w => (w.Holds i root ∧ w.Resolved i root displays writes) ∧ w.Updating i)
      fun _ => Knows i fun w =>
        (w.Holds i root ∧ w.Resolved i root displays writes) ∧ w.Updating i := by
  have hE := (fact_holds (i := i) root).and (fact_resolved root displays writes)
  refine Guarded.foldlM (I := fun _ _ => Knows i fun w =>
    (w.Holds i root ∧ w.Resolved i root displays writes) ∧ w.Updating i) _ _ ?_
  rintro ⟨id, value⟩ hwri previous _
  have hget := Std.TreeMap.mem_toList_iff_getElem?_eq_some.mp hwri
  refine Guarded.bind (R := fun _ => Knows i fun w =>
    (w.Holds i root ∧ w.Resolved i root displays writes) ∧ w.Updating i) ?_
    fun _ => fun _ _ hw => hw
  refine safe_statement (by simp) (fun _ _ _ hx => hx.1) hE lasting_updating ?_
  rintro w row w' hw hope ⟨_, hres⟩ hupd ⟨_, old, ⟨hsee, hfre, _, rfl⟩, _⟩
  obtain ⟨fold, _, c, hc, hpla⟩ := hres.shared id value hget
  have hne : (w.contents id).seen i ≠ none := by simp [hsee]
  have hall : ∀ c', (w.contents id).committed = some c' → c'.classification = .PLAIN := by
    intro c' hc'
    rw [← Option.some.inj (hc.symm.trans hc')]
    exact hpla
  refine ⟨.write_content hw hope hfre (hw.lt_next hne)
    (fun c' hc' hcha => absurd (hall c' hc') hcha) fun _ => hall, hupd.only, ?_, ?_⟩
  · exact hupd.faithful.write_content hfre hall
  · exact hupd.owes.write_content hfre (pending_ne_of_seen hne)
      (fun x hx => absurd hx not_mem_nil) fun hnone => absurd (hc.symm.trans hnone) (by simp)

theorem safe_insert_fresh (root : ConfigPath) (displays : Displays) (writes : ResolvedWrites)
    (now : OffsetDateTime) :
    Safe replaces i (insert_fresh now displays writes.fresh)
      (Knows i fun w => (w.Holds i root ∧ w.Resolved i root displays writes) ∧ w.Creating i)
      fun _ => Knows i fun w =>
        (w.Holds i root ∧ w.Resolved i root displays writes) ∧ w.Creating i := by
  have hE := (fact_holds (i := i) root).and (fact_resolved root displays writes)
  refine Guarded.forM (I := fun _ => Knows i fun w =>
    (w.Holds i root ∧ w.Resolved i root displays writes) ∧ w.Creating i) _ ?_
  intro entry hent _
  refine (safe_reserve hE).bind fun id => ?_
  have hE' := hE.and (fact_next id)
  refine (safe_insert_content hE' id entry.2 .PLAIN now fun w hw => hw.2).bind fun inserted => ?_
  refine (safe_insert_created hE' (display_of displays entry.1) inserted.id now ?_).conseq
    (fun _ _ hw => hw) fun _ w _ hw hope => ⟨(hw hope).1.1, (hw hope).2⟩
  rintro w ⟨⟨hhol, hres⟩, _⟩
  obtain ⟨hbel, hlow⟩ := hres.fresh entry hent
  rw [hlow]
  exact ⟨root, hhol, hbel⟩

theorem safe_replace_sub_tree (context : CallContext) (path : Text) (values : List SubTreeEntry) :
    Safe replaces i (replace_sub_tree context path values) (fun w => w.opened i = false)
      fun _ _ => True := by
  refine Guarded.lift fun root _ => Guarded.lift fun normalized hnor => Guarded.lift fun actor _ => ?_
  have hn := normalize_ok hnor
  refine safe_open root ?_
  refine (safe_secret_paths root).bind fun secrets => Guarded.lift fun keep hkee => ?_
  refine (safe_system_time ((fact_secrets root secrets).lasting.and lasting_clean)).bind
    fun now => ?_
  refine (safe_delete_plain root secrets keep).bind fun cleared => ?_
  refine (safe_prune (fact_secrets root secrets) (content_ids cleared)).bind fun _ => ?_
  have hpat : ∀ value ∈ resolve_preserve_markers normalized.values secrets,
      root.segs <+: segments value.path ∧
        to_ascii_lowercase (display_of normalized.displays value.path) = value.path := by
    intro value hval
    obtain ⟨entry, hent, rfl⟩ := mem_map.mp hval
    have hbel := (hn.entries entry hent).segments.2.2.2
    have hlow := (display_of_normal hn.displays (hn.entries entry hent)).2
    split
    · exact ⟨hbel, hlow⟩
    · exact ⟨hbel, hlow⟩
  refine (safe_resolve_plain_writes hkee hpat).bind fun writes => ?_
  refine ((safe_update_shared root normalized.displays writes now).pre
    fun w _ hw hope => ?_).bind fun previous => ?_
  · exact ⟨⟨(hw hope).1.1.1, (hw hope).1.2⟩, (hw hope).2.updating⟩
  refine ((safe_insert_fresh root normalized.displays writes now).pre
    fun w _ hw hope => ?_).bind fun _ => ?_
  · exact ⟨(hw hope).1, (hw hope).2.creating⟩
  exact safe_finish (fun _ hw => hw.2.owes) actor now _ _

/-! ## Every mutation -/

def Replaces (mutations : ι → Mutation) (i : ι) : Prop :=
  ∃ path values, mutations i = .replace_sub_tree path values

theorem safe_call (mutations : ι → Mutation) (context : CallContext) :
    Safe (Replaces mutations) i ((mutations i).call context) (fun w => w.opened i = false)
      fun _ _ => True := by
  have hret : ∀ {α : Type} (f : α → Reply) (x : Service α),
      Safe (Replaces mutations) i x (fun w => w.opened i = false) (fun _ _ => True) →
      Safe (Replaces mutations) i (f <$> x) (fun w => w.opened i = false) fun _ _ => True :=
    fun f x h => Guarded.bind h fun _ => fun _ _ _ => trivial
  cases hm : mutations i with
  | put_value path written =>
    refine hret _ _ (safe_put_value ?_ context path written)
    rintro ⟨_, _, hr⟩
    exact absurd (hm.symm.trans hr) (by simp)
  | replace_sub_tree path values => exact hret _ _ (safe_replace_sub_tree context path values)
  | delete_values path recurse =>
    refine hret _ _ (safe_delete_values ?_ context path recurse)
    rintro ⟨_, _, hr⟩
    exact absurd (hm.symm.trans hr) (by simp)
  | add_value_path paths => exact hret _ _ (safe_add_value_path context paths)

end Shared

end SovereignConfig.Values
