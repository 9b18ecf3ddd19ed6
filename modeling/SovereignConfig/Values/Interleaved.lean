/-
What holds under every interleaving of mutations: nothing is orphaned or left dangling, and what
two paths lead to keeps its classification.
-/
import SovereignConfig.Values.Protected

namespace SovereignConfig.Values

open Lib Text List Tables Function

variable {ι : Type} [DecidableEq ι]

structure Tables.Sound (t : Tables) (next_content_id : ℕ) : Prop where
  owned : ∀ c ∈ t.contents, ∃ row ∈ t.paths, row.content_id = c.id
  fresh : ∀ c ∈ t.contents, c.id < next_content_id

namespace Shared

variable {next_content_id : ℕ} {t : Tables}

theorem at_rest_consistent (h : t.Sound next_content_id) :
    (at_rest t next_content_id : Shared ι).Consistent := by
  constructor
  · intro fold row hrow
    obtain ⟨hmem, hfol⟩ := path_row_eq_some.mp hrow
    exact ⟨hfol, t.path_grammar row hmem⟩
  · intro fold j row hp
    exact absurd hp (by simp [at_rest])
  · intro i j _ r hr
    exact absurd hr (by simp [at_rest])
  · intro i j _ id hid
    exact absurd hid (by simp [at_rest])
  · intro i _
    exact ⟨rfl, rfl, fun _ ⟨_, hv⟩ => absurd hv (by simp [at_rest]),
      fun _ ⟨_, hv⟩ => absurd hv (by simp [at_rest])⟩
  · intro id hid
    obtain ⟨c, hc⟩ := Option.ne_none_iff_exists'.mp (hid.resolve_right fun hp => hp rfl)
    obtain ⟨hmem, rfl⟩ := content_row_eq_some.mp hc
    exact h.fresh c hmem
  · intro fold row hrow
    exact content_row_of_path (path_row_eq_some.mp hrow).1
  · intro id c hc
    obtain ⟨hmem, rfl⟩ := content_row_eq_some.mp hc
    obtain ⟨row, hrow, hid⟩ := h.owned c hmem
    exact ⟨row.lowercase_path, row, path_row_eq_some.mpr ⟨hrow, rfl⟩, hid⟩
  · intro fold j hm
    obtain ⟨v, hv⟩ := hm
    exact absurd hv (by simp [at_rest])
  · intro fold j row hp
    exact absurd hp (by simp [at_rest])
  · intro id k hk
    exact absurd hk (by simp [at_rest])
  · intro fold j row c hp
    exact absurd hp (by simp [at_rest])
  · intro id j c c' hp
    exact absurd hp (by simp [at_rest])

theorem gathered_disciplined (h : t.Sound next_content_id) {contexts : ι → CallContext}
    {mutations : ι → Mutation} {c : Config ι (Shared ι) Request Request.Answer Status Reply}
    (hrea : Reach (system ι) (fun _ _ _ => True)
      (gathered t next_content_id contexts mutations) c) :
    Disciplined (system ι) (fun _ _ _ => True) (discipline (Replaces mutations))
      (fun _ _ _ => True) c := by
  have hsta : Disciplined (system ι) (fun _ _ _ => True) (discipline (Replaces mutations))
      (fun _ _ _ => True) (gathered t next_content_id contexts mutations) := by
    refine ⟨at_rest_consistent h, fun i x hx => Or.inr ?_⟩
    obtain rfl : (mutations i).call (contexts i) = x := by
      simpa [gathered] using hx
    exact ⟨_, stable_closed i, safe_call mutations (contexts i), rfl⟩
  exact hsta.reach (discipline_sound _) hrea

end Shared

/-- **No orphaned or dangling content.** -/
theorem every_content_has_a_path (t : Tables) (next_content_id : ℕ) (ht : t.Sound next_content_id)
    (contexts : ι → CallContext) (mutations : ι → Mutation)
    (c : Config ι (Shared ι) Request Request.Answer Status Reply)
    (h : Reach (Shared.system ι) (fun _ _ _ => True)
      (gathered t next_content_id contexts mutations) c) :
    (∀ id content, (c.world.contents id).committed = some content →
      ∃ fold row, (c.world.paths fold).committed = some row ∧ row.content_id = id) ∧
    ∀ fold row, (c.world.paths fold).committed = some row →
      ∃ content, (c.world.contents row.content_id).committed = some content := by
  have hdis := Shared.gathered_disciplined ht h
  exact ⟨hdis.inv.owned, hdis.inv.referenced⟩

section Run

variable {cond : Shared ι → Label ι Request Request.Answer → Shared ι → Prop}
  {c₀ c : Config ι (Shared ι) Request Request.Answer Status Reply} {w : Shared ι}

/-- The next statement of a call, after the run that led to it. -/
theorem stepped (_ : Reach (Shared.system ι) cond c₀ c) (i : ι) (q : Request) (row : q.Row)
    {k : q.Answer → Call Request Request.Answer Status Reply} (hi : c.pool i = .live (.ask q k))
    (hser : Shared.Executes i q c.world row w) : Step (Shared.system ι) c (.asked i q (.ok row))
      ⟨w, update c.pool i (.live (k (.ok row)))⟩ :=
  .asked hi hser

theorem executed (h : Reach (Shared.system ι) cond c₀ c) (i : ι) (q : Request) (row : q.Row)
    {k : q.Answer → Call Request Request.Answer Status Reply} (hi : c.pool i = .live (.ask q k))
    (hser : Shared.Executes i q c.world row w) (hcon : cond c.world (.asked i q (.ok row)) w) :
    Reach (Shared.system ι) cond c₀ ⟨w, update c.pool i (.live (k (.ok row)))⟩ :=
  h.step (stepped h i q row hi hser) hcon

end Run

/-! ### Two deletions of one value -/

def aliased_content : ContentRow := ⟨1, "v".toList, .PLAIN, 0, 0⟩

def aliased : Tables where
  paths := [⟨"/a".toList, 1, 0, 0⟩, ⟨"/b".toList, 1, 0, 0⟩]
  contents := [aliased_content]
  audit := []
  unique_path := by decide
  path_grammar := by decide
  path_times := by decide
  unique_content := by decide
  content_times := by decide
  content_exists := by decide

theorem aliased_sound : aliased.Sound 2 := ⟨by decide, by decide⟩

def delete_alias : Bool → Mutation
  | true => .delete_values "/a".toList false
  | false => .delete_values "/b".toList false

def racing_deletions : Config Bool (Shared Bool) Request Request.Answer Status Reply :=
  gathered aliased 2 (fun _ => operator) delete_alias

variable {i : Bool} {w : Shared Bool}

/-- A transaction that has written nothing deletes one of the two paths. -/
theorem alias_deleted {path : Text} (hpat : ∀ fold, (w.paths fold).seen i = aliased.path_row fold)
    (hcon : (w.contents 1).seen i = some aliased_content)
    (hrow : aliased.path_row path = some ⟨path, 1, 0, 0⟩) (hfre : (w.paths path).Free i)
    (hope : w.opened i = true) :
    Shared.Executes i (.delete_paths path false) w [⟨path, 1, "v".toList, .PLAIN⟩]
      (w.write_path i path none) := by
  have hlow : PathRow.lowercase_path ⟨path, 1, 0, 0⟩ = path := (path_row_eq_some.mp hrow).2
  have hsel : ∀ p c, w.Joined i p c ∧ Tables.selected path false p c = true ↔
      p = ⟨path, 1, 0, 0⟩ ∧ c = aliased_content := by
    intro p c
    simp only [Shared.Joined, hpat, Tables.selected, beq_iff_eq, Bool.false_eq_true, if_false]
    constructor
    · rintro ⟨⟨hp, hc⟩, hfol⟩
      rw [hfol] at hp
      obtain rfl := Option.some.inj (hp.symm.trans hrow)
      exact ⟨rfl, Option.some.inj (hc.symm.trans hcon)⟩
    · rintro ⟨rfl, rfl⟩
      exact ⟨⟨hlow.symm ▸ hrow, hcon⟩, hlow⟩
  refine ⟨hope, fun p c hj hc => ?_, fun d => ?_, pairwise_singleton .., nodup_singleton _,
    fun p c hj hc => ?_, fun fold hfol => ?_, rfl⟩
  · obtain ⟨rfl, -⟩ := (hsel p c).mp ⟨hj, hc⟩
    rwa [hlow]
  · rw [mem_singleton]
    constructor
    · rintro rfl
      obtain ⟨hj, hc⟩ := (hsel _ _).mpr ⟨rfl, rfl⟩
      exact ⟨_, _, hj, hc, rfl⟩
    · rintro ⟨p, c, hj, hc, rfl⟩
      obtain ⟨rfl, rfl⟩ := (hsel p c).mp ⟨hj, hc⟩
      rfl
  · obtain ⟨rfl, -⟩ := (hsel p c).mp ⟨hj, hc⟩
    rw [hlow]
    exact update_self ..
  · obtain ⟨hj, hc⟩ := (hsel _ _).mpr ⟨rfl, rfl⟩
    exact update_of_ne (fun h => hfol _ _ hj hc (hlow.trans h.symm)) ..

theorem alias_kept (hope : w.opened i = true)
    (h : ∃ fold row, (w.paths fold).seen i = some row ∧ row.content_id = 1) :
    Shared.Executes i (.delete_orphan_contents [1]) w () w := by
  have hnot : ∀ id, ¬ w.Orphan i [1] id := by
    rintro id ⟨hid, -, hnone⟩
    obtain ⟨fold, row, hrow, hone⟩ := h
    exact hnone fold row hrow (hone.trans (mem_singleton.mp hid).symm)
  exact ⟨hope, fun id h => absurd h (hnot id), fun id h => absurd h (hnot id),
    fun id h => absurd h (hnot id), fun _ _ => rfl, rfl⟩

theorem deletion_unseen (fold : Text) :
    ((((Shared.at_rest aliased 2).write_path true "/a".toList none).paths fold).seen false) =
      aliased.path_row fold := by
  by_cases h : fold = "/a".toList
  · rw [h]
    rfl
  · rw [Shared.write_path]
    simp only [update_of_ne h]
    rfl

/-- Two deletions race for the last two paths of a value. The first to commit leaves the value, whose
other path is not deleted until the second commits, and the second is rolled back. -/
theorem value_kept_by_rollback : ∃ c,
    Reach (Shared.system Bool) (fun _ _ _ => True) racing_deletions c ∧
    (c.world.paths "/a".toList).committed = none ∧
    (c.world.contents 1).committed = some aliased_content ∧
    ∃ fold row, (c.world.paths fold).committed = some row ∧ row.content_id = 1 := by
  have start : Reach (Shared.system Bool) (fun _ _ _ => True) racing_deletions
      racing_deletions := .refl
  have begun := executed start true .begin () rfl ⟨rfl, rfl⟩ trivial
  have above := executed begun true (.lock_path ['/'] false) () rfl
    ⟨rfl, by decide, rfl⟩ trivial
  have locked := executed above true (.lock_path "/a".toList true) () rfl
    ⟨rfl, by decide, rfl⟩ trivial
  have deleted := executed locked true (.delete_paths "/a".toList false) _ rfl
    (alias_deleted (fun _ => rfl) rfl rfl nofun rfl) trivial
  have begun' := executed deleted false .begin () rfl ⟨rfl, rfl⟩ trivial
  have above' := executed begun' false (.lock_path ['/'] false) () rfl
    ⟨rfl, by decide, rfl⟩ trivial
  have locked' := executed above' false (.lock_path "/b".toList true) () rfl
    ⟨rfl, by decide, rfl⟩ trivial
  have deleted' := executed locked' false (.delete_paths "/b".toList false) _ rfl
    (alias_deleted deletion_unseen rfl rfl nofun rfl) trivial
  have held := executed deleted' true (.lock_content 1) () rfl ⟨rfl, by decide, rfl⟩ trivial
  have kept := executed held true (.delete_orphan_contents [1]) () rfl
    (alias_kept rfl ⟨"/b".toList, _, rfl, rfl⟩) trivial
  have timed := executed kept true .system_time (1 : ℤ) rfl rfl trivial
  have recorded := executed timed true (.insert_events _ (1 : ℤ) _) () rfl ⟨rfl, rfl⟩ trivial
  have committed := executed recorded true .commit () rfl ⟨rfl, rfl⟩ trivial
  have aborted := committed.step (.idled ⟨false, rfl⟩) trivial
  exact ⟨_, aborted, rfl, rfl,
    (every_content_has_a_path aliased 2 aliased_sound _ _ _ aborted).1 1 _ rfl⟩

/-! ## Classifications -/

namespace Shared

theorem Allowed.classification {replaces : ι → Prop} {w w' : Shared ι}
    {l : Label ι Request Request.Answer} (hw : w.Consistent) (h : Allowed replaces w l w') {id : ℕ}
    {v v' : ContentRow} (hv : (w.contents id).committed = some v)
    (hv' : (w'.contents id).committed = some v') (hne : v.classification ≠ v'.classification) :
    ∃ fold, w.Sole fold id ∧ w'.Sole fold id := by
  have hqui : Quiet w w' → ∃ fold, w.Sole fold id ∧ w'.Sole fold id := by
    intro hq
    rw [hq.contents, hv] at hv'
    exact absurd (congrArg ContentRow.classification (Option.some.inj hv')) hne
  cases l with
  | crashed i =>
    obtain rfl : w' = w := h
    exact hqui (.refl w')
  | idled =>
    obtain ⟨k, rfl⟩ := h
    exact hqui (quiet_abort k w)
  | asked j q a =>
    rcases h.2.1 with hq | ⟨rfl, _⟩
    · exact hqui hq
    · -- A commit that changes the classification is one of the only path's holder, which has
      -- written no paths.
      have hp : (w.contents id).pending = some (j, some v') := by
        rcases Cell.seen_eq_some (Cell.commit_committed.symm.trans hv') with hp | ⟨_, hc⟩
        · exact hp
        · rw [hv] at hc
          exact absurd (congrArg ContentRow.classification (Option.some.inj hc)) hne
      obtain ⟨⟨fold, _, _, hsol⟩, hnone⟩ := hw.reclassified id j v v' hp hv hne
      refine ⟨fold, hsol, fun other hoth => ?_⟩
      rcases hasPath_commit hoth with ⟨row, hins, _⟩ | ⟨_, hher⟩
      · exact absurd ⟨_, hins⟩ (hnone other)
      · exact hsol other hher

end Shared

/-- **Aliased values keep their classification.** -/
theorem aliased_values_keep_classification (t : Tables) (next_content_id : ℕ)
    (ht : t.Sound next_content_id) (contexts : ι → CallContext) (mutations : ι → Mutation)
    (c c' : Config ι (Shared ι) Request Request.Answer Status Reply)
    (l : Label ι Request Request.Answer)
    (h : Reach (Shared.system ι) (fun _ _ _ => True)
      (gathered t next_content_id contexts mutations) c)
    (hstep : Step (Shared.system ι) c l c') :
    (∀ id v v', (c.world.contents id).committed = some v →
      (c'.world.contents id).committed = some v' → v.classification ≠ v'.classification →
      ∃ fold, c.world.Sole fold id ∧ c'.world.Sole fold id) ∧
    ∀ i q a path values, l = .asked i q a → mutations i = .replace_sub_tree path values →
      Shared.Spares i c.world c'.world := by
  have hdis := Shared.gathered_disciplined ht h
  have hall := (hdis.step (Shared.discipline_sound _) hstep trivial).2.1
  refine ⟨fun id v v' hv hv' hne => hall.classification hdis.inv hv hv' hne, ?_⟩
  rintro i q a path values rfl hrep
  exact hall.2.2 ⟨path, values, hrep⟩

def put_and_replace : Bool → Mutation
  | true => .put_value "/app/Key".toList (some (.Secret "s".toList))
  | false => .replace_sub_tree "/app".toList []

theorem one_key_sound : one_key.Sound 2 := ⟨by decide, by decide⟩

def key_row : PathRow := ⟨"/app/Key".toList, 1, 0, 0⟩

theorem joined_key {content : ContentRow} (hpat : w.paths = (Shared.at_rest one_key 2).paths)
    (hcon : (w.contents 1).seen i = some content) {p : PathRow} {c : ContentRow} :
    w.Joined i p c ↔ p = key_row ∧ c = content := by
  unfold Shared.Joined
  rw [hpat]
  constructor
  · rintro ⟨hp, hc⟩
    obtain rfl := mem_singleton.mp (path_row_eq_some.mp hp).1
    exact ⟨rfl, Option.some.inj (hc.symm.trans hcon)⟩
  · rintro ⟨rfl, rfl⟩
    exact ⟨rfl, hcon⟩

theorem key_read (hpat : w.paths = (Shared.at_rest one_key 2).paths)
    (hcon : (w.contents 1).seen i = some ⟨1, "v".toList, .PLAIN, 0, 0⟩) (hope : w.opened i = true) :
    Shared.Executes i (.path_content_class "/app/key".toList) w
      (some ⟨1, "v".toList, .PLAIN, 1⟩) w := by
  refine ⟨hope, rfl, nofun, ?_⟩
  rintro row hr
  obtain rfl := Option.some.inj hr
  refine ⟨key_row, _, (joined_key hpat hcon).mpr ⟨rfl, rfl⟩, rfl, rfl, rfl, rfl,
    {"/app/key".toList}, rfl, fun fold => ?_⟩
  rw [hpat, Finset.mem_singleton]
  constructor
  · rintro rfl
    exact ⟨key_row, rfl, rfl⟩
  · rintro ⟨row, hrow, -⟩
    obtain ⟨hmem, rfl⟩ := path_row_eq_some.mp hrow
    rw [mem_singleton.mp hmem]
    rfl

section Secret

variable {w : Shared Bool} {i : Bool} {content : ContentRow}
  (hpat : w.paths = (Shared.at_rest one_key 2).paths)
  (hcon : (w.contents 1).seen i = some content) (hsec : content.classification = .SECRET)
  (hope : w.opened i = true)
include hpat hcon hsec hope

theorem secret_key_touched :
    Shared.Executes i (.secret_paths_touching "/app".toList) w ["/app/key".toList] w := by
  refine ⟨hope, rfl, fun key => ?_⟩
  rw [mem_singleton]
  constructor
  · rintro rfl
    exact ⟨key_row, content, (joined_key hpat hcon).mpr ⟨rfl, rfl⟩, rfl, hsec, Or.inl rfl⟩
  · rintro ⟨p, c, hj, rfl, -⟩
    obtain ⟨rfl, -⟩ := (joined_key hpat hcon).mp hj
    rfl

theorem secret_key_spared :
    Shared.Executes i (.delete_plain_paths_except "/app".toList []) w [] w := by
  have hnone : ∀ p c, w.Joined i p c → Tables.plain_except "/app".toList [] p c ≠ true := by
    intro p c hj hpla
    obtain ⟨rfl, rfl⟩ := (joined_key hpat hcon).mp hj
    simp [Tables.plain_except, hsec] at hpla
  refine ⟨hope, fun p c hj hc => absurd hc (hnone p c hj), fun d => ?_, .nil, .nil,
    fun p c hj hc => absurd hc (hnone p c hj), fun _ _ => rfl, rfl⟩
  refine iff_of_false not_mem_nil ?_
  rintro ⟨p, c, hj, hc, -⟩
  exact hnone p c hj hc

end Secret

def put_beside_replacement : Config Bool (Shared Bool) Request Request.Answer Status Reply :=
  gathered one_key 2 (fun _ => operator) put_and_replace

/-- The put makes the only value a secret while the replacement waits for its locks; the replacement
then finds it a secret and leaves it. -/
theorem reclassified_value_spared : ∃ c c' d d',
    Reach (Shared.system Bool) (fun _ _ _ => True) put_beside_replacement c ∧
    Step (Shared.system Bool) c (.asked true .commit (.ok ())) c' ∧
    (c.world.contents 1).committed = some ⟨1, "v".toList, .PLAIN, 0, 0⟩ ∧
    (c'.world.contents 1).committed = some ⟨1, "sealed".toList, .SECRET, 0, 1⟩ ∧
    (∃ fold, c.world.Sole fold 1 ∧ c'.world.Sole fold 1) ∧
    Reach (Shared.system Bool) (fun _ _ _ => True) put_beside_replacement d ∧
    Step (Shared.system Bool) d
      (.asked false (.delete_plain_paths_except "/app".toList []) (.ok [])) d' ∧
    Shared.Spares false d.world d'.world := by
  have start : Reach (Shared.system Bool) (fun _ _ _ => True) put_beside_replacement
      put_beside_replacement := .refl
  have begun := executed start true .begin () rfl ⟨rfl, rfl⟩ trivial
  have above := executed begun true (.lock_path ['/'] false) () rfl
    ⟨rfl, by decide, rfl⟩ trivial
  have above₂ := executed above true (.lock_path "/app".toList false) () rfl
    ⟨rfl, by decide, rfl⟩ trivial
  have locked := executed above₂ true (.lock_path "/app/key".toList true) () rfl
    ⟨rfl, by decide, rfl⟩ trivial
  have timed := executed locked true .system_time (1 : ℤ) rfl rfl trivial
  have read := executed timed true (.path_content_class "/app/key".toList) _ rfl
    (key_read rfl rfl rfl) trivial
  -- The replacement begins, and waits for the lock that the put has above the value.
  have begun' := executed read false .begin () rfl ⟨rfl, rfl⟩ trivial
  have above' := executed begun' false (.lock_path ['/'] false) () rfl
    ⟨rfl, by decide, rfl⟩ trivial
  have encrypted := executed above' true (.encrypt 1 .SECRET "s".toList) "sealed".toList rfl rfl
    trivial
  have written := executed encrypted true (.update_content 1 "sealed".toList .SECRET (1 : ℤ))
    ⟨(0 : ℤ), (1 : ℤ)⟩ rfl ⟨rfl, ⟨1, "v".toList, .PLAIN, 0, 0⟩, ⟨rfl, nofun, by decide, rfl⟩, rfl⟩
    trivial
  have recorded := executed written true (.insert_events _ (1 : ℤ) _) () rfl ⟨rfl, rfl⟩ trivial
  have committing := stepped recorded true .commit () rfl ⟨rfl, rfl⟩
  have committed := recorded.step committing trivial
  have locked' := executed committed false (.lock_path "/app".toList true) () rfl
    ⟨rfl, by decide, rfl⟩ trivial
  have touched := executed locked' false (.secret_paths_touching "/app".toList) _ rfl
    (secret_key_touched rfl rfl rfl rfl) trivial
  have timed' := executed touched false .system_time (1 : ℤ) rfl rfl trivial
  have clearing := stepped timed' false (.delete_plain_paths_except "/app".toList []) _ rfl
    (secret_key_spared rfl rfl rfl rfl)
  refine ⟨_, _, _, _, recorded, committing, rfl, rfl, ?_, timed', clearing, ?_⟩
  · exact (aliased_values_keep_classification one_key 2 one_key_sound _ _ _ _ _ recorded committing).1
      1 _ _ rfl rfl nofun
  · exact (aliased_values_keep_classification one_key 2 one_key_sound _ _ _ _ _ timed' clearing).2
      false _ _ _ _ rfl rfl

end SovereignConfig.Values
