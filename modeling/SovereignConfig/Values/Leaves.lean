/-
Stored values as the leaves of one tree. What no check covers is a plain value stored above the
root of a replacement; this file says exactly when the tree property survives.
-/
import SovereignConfig.Values.Replace
import SovereignConfig.Values.Transaction

namespace SovereignConfig.Values

open Lib Text List Tables

def ProperAncestor (f g : Text) : Prop := segments f <+: segments g ∧ f ≠ g

instance (f g : Text) : Decidable (ProperAncestor f g) := inferInstanceAs (Decidable (_ ∧ _))

/-- No stored path is strictly above another. -/
def Leaves (t : Tables) : Prop :=
  ∀ row ∈ t.paths, ∀ row' ∈ t.paths, ¬ ProperAncestor row.lowercase_path row'.lowercase_path

instance (t : Tables) : Decidable (Leaves t) :=
  inferInstanceAs (Decidable (∀ row ∈ t.paths, ∀ row' ∈ t.paths, ¬ ProperAncestor _ _))

/-- A replacement that writes anything has no plain value strictly above its root. -/
def RootClear (t : Tables) : Mutation → Prop
  | .replace_sub_tree path values => values = [] ∨ ∀ row ∈ t.paths, t.HasClass row .PLAIN →
      ¬ ProperAncestor row.lowercase_path (to_ascii_lowercase path)
  | _ => True

variable {env : Env} {db db' : Db} {t t' : Tables}

theorem Leaves.subset (h : Leaves t) (hsub : ∀ row ∈ t'.paths, row ∈ t.paths) : Leaves t' :=
  fun row hrow row' hrow' => h row (hsub row hrow) row' (hsub row' hrow')

theorem Leaves.insert (h : Leaves t) {path : ConfigPath} (hop : operation_path path.path = true)
    (hfre : t.collides path.fold = false) {row : PathRow} (hrow : row.lowercase_path = path.fold)
    (hpat : t'.paths = t.paths ++ [row]) : Leaves t' := by
  have hcle : ∀ old ∈ t.paths, ¬ ProperAncestor old.lowercase_path path.fold ∧
      ¬ ProperAncestor path.fold old.lowercase_path := by
    intro old hold
    have hnone : ¬ (old.lowercase_path ≠ path.fold ∧
        (path.segs <+: segments old.lowercase_path ∨
          segments old.lowercase_path <+: path.segs)) := by
      intro hbot
      have := (collides_iff path hop).mpr ⟨old, hold, hbot⟩
      rw [hfre] at this
      exact absurd this (by decide)
    exact ⟨fun ha => hnone ⟨ha.2, Or.inr ha.1⟩, fun ha => hnone ⟨ha.2.symm, Or.inl ha.1⟩⟩
  intro r hr r' hr' ha
  rw [hpat, mem_append, mem_singleton] at hr hr'
  rcases hr with hr | rfl
  · rcases hr' with hr' | rfl
    · exact h r hr r' hr' ha
    · rw [hrow] at ha
      exact (hcle r hr).1 ha
  · rw [hrow] at ha
    rcases hr' with hr' | rfl
    · exact (hcle r' hr').2 ha
    · rw [hrow] at ha
      exact ha.2 rfl

section Replacement

variable {root : ConfigPath} {n : NormalizedSubtree} {keep : List Text} {writes : ResolvedWrites}

theorem Replaces.apart (h : Replaces env db db' root n keep writes) (hn : Normal root n)
    {row : PathRow} (hrow : row ∈ (db.committed.cleared root keep).paths)
    {write : Text × Text} (hw : write ∈ writes.fresh)
    (hmee : segments row.lowercase_path <+: segments write.1 ∨
      segments write.1 <+: segments row.lowercase_path) :
    db.committed.HasClass row .PLAIN ∧ ProperAncestor row.lowercase_path root.fold := by
  obtain ⟨hsto, hkep⟩ := mem_cleared_paths.mp hrow
  obtain ⟨hfol, value, hval, hin, hpat⟩ := h.fresh_fold hn hw
  obtain ⟨hkee, hcol⟩ := plain_paths_ok_iff.mp h.plain
  have hres := resolve_writes_ok h.resolved
  have hwri : write ∈ plain_writes (db.committed.settled root n) ∧
      (db.committed.cleared root keep).stored_id write.1 = none := by
    rw [hres.fresh, mem_filter] at hw
    exact ⟨hw.1, by simpa using hw.2⟩
  have hne : row.lowercase_path ≠ write.1 := by
    intro heq
    have hnone := hwri.2
    rw [Tables.stored_id, Option.map_eq_none_iff] at hnone
    exact row_at_eq_none.mp hnone row hrow heq
  rw [← hpat] at hmee hne
  rcases hasClass_or hsto with hpla | hsec
  · refine ⟨hpla, ?_⟩
    obtain ⟨_, htex, _, hbel⟩ := hval.segments
    by_cases hund : root.segs <+: segments row.lowercase_path
    · -- It was kept, so it is the path of another entry, and entries are apart.
      have hin_k : row.lowercase_path ∈ keep := by
        by_contra hnot
        exact hkep ⟨hund, hpla, hnot⟩
      rw [hkee] at hin_k
      obtain ⟨other, hoth, hofo⟩ := mem_map.mp hin_k
      obtain ⟨v, hv, hvin, hvpa⟩ := hn.of_plain db.committed hoth
      rw [← hofo, ← hvpa] at hmee hne
      have hapa := hn.apart_of_ne hvin hin hne
      exact absurd hmee (not_or.mpr hapa)
    · rcases hmee with hup | hdow
      · rcases prefix_or_prefix_of_prefix hup hbel with habo | hbad
        · refine ⟨habo, fun heq => hund ?_⟩
          rw [heq]
          exact prefix_rfl
        · exact absurd hbad hund
      · exact absurd (hbel.trans hdow) hund
  · exfalso
    have htou := secret_touches hval hsto hsec hmee
    have hcla := (entry_collides_iff hval hsto).mpr hmee.symm
    have hmem : write.1 ∈ keep := by
      rw [hkee]
      exact mem_map_of_mem hwri.1
    rw [hpat, hcol _ hmem _ htou] at hcla
    exact absurd hcla (by decide)

theorem Replaces.occupied (h : Replaces env db db' root n keep writes) (hn : Normal root n)
    (hsom : n.values ≠ []) :
    (∃ row ∈ db.committed.paths, root.segs <+: segments row.lowercase_path) ∨
      ∃ row ∈ db'.committed.paths, root.segs <+: segments row.lowercase_path := by
  obtain ⟨value, hval⟩ := exists_mem_of_ne_nil _ hsom
  have hent := hn.entries value hval
  obtain ⟨_, _, _, hbel⟩ := hent.segments
  rcases settled_entry hval hent.1 with ⟨text, hwri⟩ | hsec
  · obtain ⟨row, hrow, hfol⟩ := h.plain_present hn hwri
    exact Or.inr ⟨row, hrow, by rw [hfol]; exact hbel⟩
  · obtain ⟨row, hrow, hfol, _⟩ := mem_secrets_touching.mp hsec
    exact Or.inl ⟨row, hrow, by rw [hfol]; exact hbel⟩

theorem Replaces.leaves_iff (h : Replaces env db db' root n keep writes) (hn : Normal root n)
    (hlea : Leaves db.committed) :
    Leaves db'.committed ↔ n.values = [] ∨ ∀ row ∈ db.committed.paths,
      db.committed.HasClass row .PLAIN → ¬ ProperAncestor row.lowercase_path root.fold := by
  constructor
  · intro haft
    by_contra hnot
    obtain ⟨hsom, hbad⟩ := not_or.mp hnot
    push Not at hbad
    obtain ⟨row, hrow, hpla, habo, hne⟩ := hbad
    have hstr : ¬ root.segs <+: segments row.lowercase_path := by
      intro hund
      have heq : segments row.lowercase_path = root.segs :=
        habo.eq_of_length (le_antisymm habo.length_le hund.length_le)
      obtain ⟨_, htex, _⟩ := Tables.path_segments hrow
      rw [htex, heq, ← root.fold_eq] at hne
      exact hne rfl
    -- The plain value above the root stays, being neither at the root nor below it.
    have hsta : row ∈ db'.committed.paths := by
      rw [h.paths]
      exact mem_append_left _ (mem_cleared_paths.mpr ⟨hrow, fun hcle => hstr hcle.1⟩)
    have hpro : ∀ q : Text, root.segs <+: segments q → ProperAncestor row.lowercase_path q :=
      fun q hq => ⟨habo.trans hq, fun heq => hstr (heq ▸ hq)⟩
    rcases h.occupied hn hsom with ⟨r, hr, hund⟩ | ⟨r, hr, hund⟩
    · exact hlea row hrow r hr (hpro _ hund)
    · exact haft row hsta r hr (hpro _ hund)
  · intro hcle
    have hnone : ∀ row ∈ (db.committed.cleared root keep).paths, ∀ write ∈ writes.fresh,
        ¬ (segments row.lowercase_path <+: segments write.1 ∨
          segments write.1 <+: segments row.lowercase_path) := by
      intro row hrow write hw hmee
      obtain ⟨hpla, habo⟩ := h.apart hn hrow hw hmee
      rcases hcle with hemp | hcle
      · obtain ⟨_, value, _, hin, _⟩ := h.fresh_fold hn hw
        rw [hemp] at hin
        exact absurd hin not_mem_nil
      · exact hcle row (mem_cleared_paths.mp hrow).1 hpla habo
    rintro r hr r' hr' ⟨hpre, hne⟩
    rcases h.mem_paths hn hr with hold | ⟨write, hw, hfol, _⟩
    · rcases h.mem_paths hn hr' with hold' | ⟨write', hw', hfol', _⟩
      · exact hlea r (mem_cleared_paths.mp hold).1 r' (mem_cleared_paths.mp hold').1 ⟨hpre, hne⟩
      · rw [hfol'] at hpre
        exact hnone r hold write' hw' (Or.inl hpre)
    · rcases h.mem_paths hn hr' with hold' | ⟨write', hw', hfol', _⟩
      · rw [hfol] at hpre
        exact hnone r' hold' write hw (Or.inr hpre)
      · obtain ⟨_, v, _, hin, hpat⟩ := h.fresh_fold hn hw
        obtain ⟨_, v', _, hin', hpat'⟩ := h.fresh_fold hn hw'
        rw [hfol, hfol', ← hpat, ← hpat'] at hpre hne
        exact (hn.apart_of_ne hin hin' hne).1 hpre

end Replacement

variable {context : CallContext}

theorem replace_leaves_iff {path : Text} {values : List SubTreeEntry} {metadata : ReplaceMetadata}
    (hlea : Leaves db.committed)
    (h : Call.Returns (exec env) (replace_sub_tree context path values) db metadata db') :
    Leaves db'.committed ↔ RootClear db.committed (.replace_sub_tree path values) := by
  obtain ⟨root, n, keep, writes, -, -, haut, hnor, -, hrep, -⟩ := replace_sub_tree_recorded h
  have hroo : root.fold = to_ascii_lowercase path := by
    rw [ConfigPath.fold, parse_selection_path (authorize_ok haut).1]
  have hemp : n.values = [] ↔ values = [] := by
    rw [← length_eq_zero_iff, normalize_length hnor, length_eq_zero_iff]
  rw [hrep.leaves_iff (normalize_ok hnor) hlea, hemp, hroo]
  rfl

theorem leaves_step {mutation : Mutation} {result : Except Status Reply}
    (hlea : Leaves db.committed) (hcle : RootClear db.committed mutation)
    (h : perform env (mutation.call context) db = (result, db')) : Leaves db'.committed := by
  cases result with
  | error e =>
    rw [failed_mutation_changes_nothing h]
    exact hlea
  | ok reply =>
    obtain ⟨db₁, hret, rfl⟩ := perform_returns.mp h
    cases mutation with
    | put_value path written =>
      obtain ⟨metadata, hput, _⟩ := Call.returns_map.mp hret
      obtain ⟨p, _, _, _, haut, _, ⟨_, _, _, hove, _⟩ | ⟨_, hcre, _⟩⟩ := put_value_returns hput
      · exact hlea.subset (fun row hrow => hove.paths ▸ hrow)
      · exact hlea.insert (authorize_operation haut) hcre.no_collision rfl hcre.paths
    | replace_sub_tree path values =>
      obtain ⟨metadata, hrep, _⟩ := Call.returns_map.mp hret
      exact (replace_leaves_iff hlea hrep).mpr hcle
    | delete_values path recurse =>
      obtain ⟨metadata, hdel, _⟩ := Call.returns_map.mp hret
      obtain ⟨p, -, -, -, -, hpat, -⟩ := delete_values_recorded hdel
      refine hlea.subset (fun row hrow => ?_)
      rw [hpat] at hrow
      exact (mem_delete_paths_where.mp hrow).1
    | add_value_path paths =>
      obtain ⟨metadata, hadd, _⟩ := Call.returns_map.mp hret
      obtain ⟨_, source, new_path, row, hali, _, _, hfre, hpat, _⟩ :=
        add_value_path_returns hadd
      exact hlea.insert (parse_operation_canonical (alias_paths_ok hali).2.1) hfre rfl hpat

/-- **The leaf invariant.** -/
theorem leaves_iff_root_clear {db : Db} (h : Reachable RootClear db) :
    Leaves db.committed ∧
      ∀ (env : Env) (context : CallContext) (path : Text) (values : List SubTreeEntry)
        (metadata : ReplaceMetadata) (db' : Db),
        perform env (replace_sub_tree context path values) db = (.ok metadata, db') →
        (Leaves db'.committed ↔ RootClear db.committed (.replace_sub_tree path values)) := by
  have hlea : Leaves db.committed := by
    induction h with
    | empty => exact fun row hrow => absurd hrow not_mem_nil
    | step _ hcon hper ih => exact leaves_step ih hcon hper
  refine ⟨hlea, fun env context path values metadata db' hper => ?_⟩
  obtain ⟨db₁, hret, rfl⟩ := perform_returns.mp hper
  have hiff := replace_leaves_iff hlea hret
  exact hiff

/-- No plain value is stored above `/a` when it is replaced. -/
theorem mixed_reachable : Reachable RootClear (performed mixed_mutations) := by
  have hcle : ∀ row ∈ (performed (mixed_mutations.take 4)).committed.paths,
      ¬ ProperAncestor row.lowercase_path "/a".toList := by decide +kernel
  have hput : Reachable RootClear (performed (mixed_mutations.take 4)) :=
    .perform (.perform (.perform (.perform .empty quiet_env operator _ trivial) quiet_env operator
      _ trivial) quiet_env operator _ trivial) quiet_env operator _ trivial
  have hrep : Reachable RootClear (performed (mixed_mutations.take 5)) :=
    hput.perform quiet_env operator _ (Or.inr fun row hrow _ => hcle row hrow)
  exact hrep.perform quiet_env operator _ trivial

/-- What the run leaves is three leaves under `/a`. -/
theorem leaves_of_mixed : Reachable RootClear (performed mixed_mutations) ∧
    (performed mixed_mutations).committed.paths.map PathRow.lowercase_path =
      ["/a/x".toList, "/a/s".toList, "/a/t/u".toList] ∧
    Leaves (performed mixed_mutations).committed :=
  ⟨mixed_reachable, by decide +kernel, (leaves_iff_root_clear mixed_reachable).1⟩

def put_at_a : Mutation := .put_value "/a".toList (some (.Plain "x".toList))

def plain_at_a : Db := (perform quiet_env (put_at_a.call operator) .empty).2

def replace_below_a : Mutation :=
  .replace_sub_tree "/a/b".toList [⟨"/a/b/c".toList, some (.PlainValue "y".toList)⟩]

/-- With `/a` stored as a plain value, replacing `/a/b` is accepted and nests `/a/b/c` under it. -/
theorem replace_nests_below_plain_value :
    Reachable (fun _ _ => True) (perform quiet_env (replace_below_a.call operator) plain_at_a).2 ∧
      (perform quiet_env (replace_below_a.call operator) plain_at_a).1.isOk = true ∧
      ¬ Leaves (perform quiet_env (replace_below_a.call operator) plain_at_a).2.committed := by
  refine ⟨?_, ?_, ?_⟩
  · exact (Reachable.empty.perform quiet_env operator put_at_a trivial).perform quiet_env operator
      replace_below_a trivial
  · decide
  · decide

end SovereignConfig.Values
