/-
The counterpart of `Values/Statements.lean` for the statements that write rows: what must be known
for each to keep to the discipline, and where it leads.
-/
import SovereignConfig.Values.Statements

namespace SovereignConfig.Values

open Lib Text List Function Cell

variable {ι : Type} [DecidableEq ι]

namespace Shared

variable {replaces : ι → Prop} {i : ι} {w w' : Shared ι}

theorem Clean.seen_path (h : w.Clean i) (fold : Text) :
    (w.paths fold).seen i = (w.paths fold).committed := seen_of_not_mine (h.1 fold)

theorem Clean.seen_content (h : w.Clean i) (id : ℕ) :
    (w.contents id).seen i = (w.contents id).committed := seen_of_not_mine (h.2 id)

theorem DeletesPaths.keeps {cond : PathRow → ContentRow → Bool} {deleted : List DeletedPathRow}
    (h : DeletesPaths i cond w deleted w') (hw : w.Consistent) (hope : w.opened i = true)
    (hcle : w.Clean i)
    (hcov : ∀ p c, w.Joined i p c → cond p c = true → w.Covers i p.lowercase_path)
    (hpla : replaces i → ∀ p c, cond p c = true → c.classification = .PLAIN) :
    Keeps replaces i w w' ∧ w'.Cleared i (content_ids deleted) := by
  obtain ⟨paths', rfl⟩ : ∃ paths', w' = { w with paths := paths' } := ⟨_, h.rest⟩
  -- A row either is selected and gone, or is as it was.
  have hrow : ∀ fold, paths' fold = w.paths fold ∨
      (w.paths fold).Free i ∧ paths' fold = (w.paths fold).write i none ∧
        ∃ p c, w.Joined i p c ∧ cond p c = true ∧ p.lowercase_path = fold := by
    intro fold
    by_cases hsel : ∃ p c, w.Joined i p c ∧ cond p c = true ∧ p.lowercase_path = fold
    · obtain ⟨p, c, hj, hc, rfl⟩ := hsel
      exact Or.inr ⟨h.free p c hj hc, h.gone p c hj hc, p, c, hj, hc, rfl⟩
    · exact Or.inl (h.kept fold fun p c hj hc heq => hsel ⟨p, c, hj, hc, heq⟩)
  have hcel : Rewrites i w.paths paths' :=
    fun fold => (hrow fold).imp_right fun hr => ⟨hr.1, none, hr.2.1⟩
  have hsom : ∀ fold row, (paths' fold).pending ≠ some (i, some row) := by
    intro fold row hp
    rcases hrow fold with heq | ⟨_, heq, _⟩
    · exact hcle.1 fold ⟨_, heq ▸ hp⟩
    · rw [heq] at hp
      exact absurd (write_pending.mp hp).2 (by simp)
  have hcons : Consistent { w with paths := paths' } := by
    refine hw.write_paths hope hcel ?_ ?_ hcle.faithful
    · intro fold hne
      obtain ⟨_, _, p, c, hj, hc, rfl⟩ := (hrow fold).resolve_left hne
      exact hcov p c hj hc
    · intro fold row _ heq
      exact absurd (by rw [heq]; rfl) (hsom fold row)
  -- What is selected is committed, and so is its content.
  have hcom : ∀ {p c}, w.Joined i p c → (w.paths p.lowercase_path).committed = some p ∧
      (w.contents p.content_id).committed = some c := by
    intro p c hj
    rw [← hcle.seen_path, ← hcle.seen_content]
    exact hj
  refine ⟨Keeps.of_paths hcons hcel ?_, hsom, hcle.2, ?_, ?_⟩
  · intro hrep fold row c hfol hne _ hc
    obtain ⟨_, _, p, c', hj, hcon, rfl⟩ := (hrow fold).resolve_left hne
    obtain ⟨hp, hc'⟩ := hcom hj
    obtain rfl : p = row := Option.some.inj (hp.symm.trans hfol)
    obtain rfl : c' = c := Option.some.inj (hc'.symm.trans hc)
    exact hpla hrep p c' hcon
  · intro id c hp _
    exact absurd ⟨_, hp⟩ (hcle.2 id)
  · intro fold row hfol hm
    have hne : paths' fold ≠ w.paths fold := fun heq => hcle.1 fold (heq ▸ hm)
    obtain ⟨_, _, p, c, hj, hcon, rfl⟩ := (hrow fold).resolve_left hne
    obtain rfl : p = row :=
      Option.some.inj ((hcom hj).1.symm.trans ((hcel.committed _).symm.trans hfol))
    exact Or.inl (mem_content_ids.mpr ⟨_, (h.rows _).mpr ⟨p, c, hj, hcon, rfl⟩, rfl⟩)

variable {id : ℕ} {E : Shared ι → Prop} {fold : Text} {row : PathRow}

theorem consistent_lock_content (hw : w.Consistent) (hope : w.opened i = true)
    (hgra : ∀ j, j ≠ i → id ∉ w.content_locks j) :
    Consistent { w with
      content_locks := update w.content_locks i (id :: w.content_locks i) } := by
  refine hw.of_same_tables rfl rfl le_rfl (fun _ _ hr => hr) hw.compatible ?_ ?_
  · have hapa := granted (R := fun x y => x = y) (r := id)
      (fun j k hjk x hx y hy heq => hw.content_locks j k hjk x hx (heq ▸ hy))
      (fun j hj x hx heq => hgra j hj (heq ▸ hx)) fun j hj x hx heq => hgra j hj (heq ▸ hx)
    exact fun j k hjk x hx hy => hapa j k hjk x hx x hy rfl
  · intro j hj
    refine ⟨hj, rfl, update_of_ne ?_ _ _⟩
    rintro rfl
    exact absurd hope (by simpa using hj)

theorem DeletesOrphans.keeps {ids : List ℕ} (h : DeletesOrphans i ids w w') (hw : w.Consistent)
    (hope : w.opened i = true) (hloc : ∀ id ∈ ids, id ∈ w.content_locks i)
    (hcle : w.Cleared i ids) : Keeps replaces i w w' ∧ w'.Pruned i := by
  obtain ⟨contents', rfl⟩ : ∃ contents', w' = { w with contents := contents' } := ⟨_, h.rest⟩
  have hrow : ∀ id, contents' id = w.contents id ∨
      w.Orphan i ids id ∧ contents' id = (w.contents id).write i none := by
    intro id
    by_cases horp : w.Orphan i ids id
    · exact Or.inr ⟨horp, h.gone id horp⟩
    · exact Or.inl (h.kept id horp)
  have hcel : Rewrites i w.contents contents' :=
    fun id => (hrow id).imp_right fun hr => ⟨h.free id hr.1, none, hr.2⟩
  have hsom : ∀ id c, (contents' id).pending ≠ some (i, some c) := by
    intro id c hp
    rcases hrow id with heq | ⟨_, heq⟩
    · exact hcle.contents id ⟨_, heq ▸ hp⟩
    · rw [heq] at hp
      exact absurd (write_pending.mp hp).2 (by simp)
  have hcon : Consistent { w with contents := contents' } := by
    refine hw.write_contents hope hcel ?_ ?_ ?_
    · intro id hne
      obtain ⟨⟨_, hsee, _⟩, _⟩ := (hrow id).resolve_left hne
      rw [seen_of_not_mine (hcle.contents id)] at hsee
      exact hw.fresh id (Or.inl hsee)
    · intro id hne _
      obtain ⟨horp, _⟩ := (hrow id).resolve_left hne
      constructor
      · rintro fold j row hp rfl
        obtain rfl := h.unreferenced _ horp fold j row hp rfl
        exact hcle.only fold row hp
      · rintro fold ⟨row, hfol, hid⟩
        by_contra hm
        exact horp.2.2 fold row ((seen_of_not_mine hm).trans hfol) hid
    · intro id c c' _ heq
      exact absurd (by rw [heq]; rfl) (hsom id c')
  refine ⟨Keeps.of_contents hcon hcel ?_, hcle.only, hsom, ?_, ?_⟩
  · intro _ id c c' _ _ heq
    exact absurd (by rw [heq]; rfl) (hsom id c')
  · intro id c hp _
    exact absurd hp (hsom id c)
  · intro fold row hfol hm
    obtain ⟨c, hc⟩ := hw.referenced fold row hfol
    rcases hcle.owes.removed fold row hfol hm with hid | ⟨hlock, hgon | hoth⟩
    · refine Or.inr ⟨hloc _ hid, ?_⟩
      -- Looked at with the content locked, it has a path left or it is deleted.
      by_cases horp : w.Orphan i ids row.content_id
      · exact Or.inl (congrArg pending (h.gone _ horp))
      · right
        have hsee : (w.contents row.content_id).seen i ≠ none := by
          rw [seen_of_not_mine (hcle.contents _), hc]
          simp
        have hex : ∃ other row', (w.paths other).seen i = some row' ∧
            row'.content_id = row.content_id := by
          by_contra hnone
          exact horp ⟨hid, hsee, fun other row' hs he => hnone ⟨other, row', hs, he⟩⟩
        obtain ⟨other, row', hs, he⟩ := hex
        rcases seen_eq_some hs with hp | ⟨hnot, hcom⟩
        · exact absurd hp (hcle.only other row')
        · exact ⟨other, ⟨row', hcom, he⟩, hnot⟩
    · exact absurd ⟨_, hgon⟩ (hcle.contents _)
    · exact Or.inr ⟨hlock, Or.inr hoth⟩

theorem safe_prune (hE : Fact i E) (ids : List ℕ) :
    Safe replaces i (prune_orphan_contents ids) (Knows i fun w => E w ∧ w.Cleared i ids)
      fun _ => Knows i fun w => E w ∧ w.Pruned i := by
  unfold prune_orphan_contents
  by_cases hemp : ids.isEmpty = true
  · rw [if_pos hemp]
    obtain rfl := isEmpty_iff.mp hemp
    exact fun w _ hw hope => ⟨(hw hope).1, (hw hope).2.pruned⟩
  rw [if_neg hemp]
  let T : List ℕ → Shared ι → Prop := fun l w =>
    (∀ id ∈ ids, id ∈ l ∨ id ∈ w.content_locks i) ∧ w.Cleared i ids
  have hT : ∀ l, Lasting i (T l) := fun l =>
    Lasting.and (lasting_own fun w w' hsam h id hid => by rw [hsam.content_locks]; exact h id hid)
      (lasting_cleared ids)
  have hrou : ∀ (id : ℕ) (l : List ℕ), Safe replaces i (store.lock_content id)
      (Knows i fun w => E w ∧ T (id :: l) w) fun _ => Knows i fun w => E w ∧ T l w := by
    intro id l
    refine safe_statement (by simp) (fun _ _ _ hx => hx.1) hE (hT _) ?_
    rintro w row w' hw hope _ ⟨hloc, hcle⟩ ⟨_, hgra, rfl⟩
    have hmon : ∀ x ∈ w.content_locks i,
        x ∈ update w.content_locks i (id :: w.content_locks i) i := by
      intro x hx
      rw [update_self]
      exact mem_cons_of_mem id hx
    refine ⟨Keeps.of_same_tables (consistent_lock_content hw hope hgra) rfl rfl le_rfl
      rfl (fun j hj => ⟨rfl, rfl, update_of_ne hj _ _, rfl⟩) fun _ hr => hr, ?_, ?_⟩
    · intro x hx
      rcases hloc x hx with hl | hhel
      · rcases mem_cons.mp hl with rfl | hl
        · exact Or.inr (by simp)
        · exact Or.inl hl
      · exact Or.inr (hmon x hhel)
    · refine ⟨hcle.only, hcle.contents, hcle.owes.created, ?_⟩
      intro fold row hrow hm
      exact (hcle.owes.removed fold row hrow hm).imp_right fun hr => ⟨hmon _ hr.1, hr.2⟩
  refine ((Guarded.forM (I := fun l => Knows i fun w => E w ∧ T l w) ids
    fun id _ => hrou id).pre ?_).bind fun _ => ?_
  · intro w _ hw hope
    exact ⟨(hw hope).1, fun id hid => Or.inl hid, (hw hope).2⟩
  · refine safe_statement (by simp) (fun _ _ _ hx => hx.1) hE (hT []) ?_
    rintro w row w' hw hope _ ⟨hloc, hcle⟩ ⟨_, hdel⟩
    exact hdel.keeps hw hope (fun id hid => (hloc id hid).resolve_left not_mem_nil) hcle

omit [DecidableEq ι] in
theorem eq_of_update_ne {κ ρ : Type} [DecidableEq κ] {cells : κ → ρ} {key k : κ} {v : ρ}
    (h : update cells key v k ≠ cells k) : k = key := by
  by_contra hk
  exact h (update_of_ne hk _ _)

section WriteContent

variable {id : ℕ} {row : ContentRow}

theorem Keeps.write_content (hw : w.Consistent) (hope : w.opened i = true)
    (hfre : (w.contents id).Free i) (hnex : id < w.next_content_id)
    (hbac : ∀ c, (w.contents id).committed = some c → c.classification ≠ row.classification →
      (∃ fold, w.Covers i fold ∧ w.HasPath fold id ∧ w.Sole fold id) ∧
      ∀ fold, ¬ (w.paths fold).Mine i)
    (hpla : replaces i → ∀ c, (w.contents id).committed = some c → c.classification = .PLAIN) :
    Keeps replaces i w (w.write_content i id (some row)) := by
  have hcel := Rewrites.update hfre (some row)
  refine Keeps.of_contents (hw.write_contents hope hcel ?_ ?_ ?_) hcel ?_
  · intro key hne
    rwa [eq_of_update_ne hne]
  · intro key hne heq
    obtain rfl := eq_of_update_ne hne
    rw [update_self] at heq
    exact absurd (congrArg pending heq) (by simp [Cell.write])
  · intro key c c' hne heq hc hcla
    obtain rfl := eq_of_update_ne hne
    rw [update_self] at heq
    obtain rfl : row = c' := by simpa [Cell.write] using congrArg pending heq
    exact hbac c hc hcla
  · intro hrep key c c' hc hne _
    obtain rfl := eq_of_update_ne hne
    exact hpla hrep c hc

omit [DecidableEq ι] in
theorem Owes.write_content {new new' doomed : List ℕ} (h : w.Owes i new doomed)
    (hfre : (w.contents id).Free i) (hsee : (w.contents id).pending ≠ some (i, none))
    (hold : ∀ x ∈ new, x ∈ new') (hnew : (w.contents id).committed = none → id ∈ new') :
    (w.write_content i id (some row)).Owes i new' doomed := by
  have hcel := Rewrites.update hfre (some row)
  constructor
  · intro key c hp hnone
    replace hnone := (hcel.committed key).symm.trans hnone
    rcases hcel.pending hp with hp | ⟨_, hne, _⟩
    · exact (h.created key c hp hnone).imp_left (hold key)
    · obtain rfl := eq_of_update_ne hne
      exact Or.inl (hnew hnone)
  · intro fold p hp hm
    refine (h.removed fold p hp hm).imp_right fun ⟨hloc, hres⟩ => ⟨hloc, ?_⟩
    refine hres.imp_left fun hgon => ?_
    have hne : p.content_id ≠ id := by
      rintro rfl
      exact hsee hgon
    show (update w.contents id _ p.content_id).pending = _
    rwa [update_of_ne hne]

omit [DecidableEq ι] in
theorem Faithful.write_content (h : w.Faithful i) (hfre : (w.contents id).Free i)
    (hsam : ∀ c, (w.contents id).committed = some c → c.classification = row.classification) :
    (w.write_content i id (some row)).Faithful i := by
  have hcel := Rewrites.update hfre (some row)
  intro key c c' hc hp
  replace hc := (hcel.committed key).symm.trans hc
  rcases hcel.pending hp with hp | ⟨_, hne, heq⟩
  · exact h key c c' hc hp
  · obtain rfl := eq_of_update_ne hne
    rw [update_self] at heq
    obtain rfl : row = c' := by simpa [Cell.write] using congrArg pending heq
    exact hsam c hc

end WriteContent

theorem pending_ne_of_seen {ρ : Type} {c : Cell ι ρ} (h : c.seen i ≠ none) :
    c.pending ≠ some (i, none) := fun hp => h (seen_of_pending hp)

theorem Consistent.lt_next (hw : w.Consistent) (h : (w.contents id).seen i ≠ none) :
    id < w.next_content_id := by
  obtain ⟨c, hc⟩ := Option.ne_none_iff_exists'.mp h
  rcases seen_eq_some hc with hp | ⟨_, hc⟩
  · exact hw.fresh id (Or.inr (by simp [hp]))
  · exact hw.fresh id (Or.inl (by simp [hc]))

theorem safe_reserve (hE : Fact i E) :
    Safe replaces i store.reserve_content_id (Knows i fun w => E w ∧ w.Creating i)
      fun id => Knows i fun w => (E w ∧ id < w.next_content_id) ∧
        w.Creating i ∧ ¬ (w.contents id).Mine i := by
  have hste : Safe replaces i store.reserve_content_id (Knows i fun w => E w ∧ w.Creating i)
      fun (id : ℕ) => Knows i fun w => E w ∧
        (id < w.next_content_id ∧ w.Creating i ∧ ¬ (w.contents id).Mine i) := by
    refine safe_statement (by simp) (fun _ _ _ hx => hx.1) hE lasting_creating ?_
    rintro w id w' hw _ _ hcre ⟨_, rfl, rfl⟩
    have hcon : Consistent { w with next_content_id := w.next_content_id + 1 } :=
      hw.of_same_tables rfl rfl (Nat.le_succ _) (fun _ _ hr => hr) hw.compatible hw.content_locks
        fun _ hj => ⟨hj, rfl, rfl⟩
    refine ⟨.of_same_tables hcon rfl rfl (Nat.le_succ _) rfl (fun _ _ => ⟨rfl, rfl, rfl, rfl⟩)
      fun _ hr => hr, Nat.lt_succ_self _, ⟨hcre.faithful, hcre.owes.created,
        hcre.owes.removed⟩, ?_⟩
    rintro ⟨v, hv⟩
    exact absurd (hw.fresh _ (Or.inr (by rw [hv]; simp))) (lt_irrefl _)
  refine hste.conseq (fun _ _ hw => hw) fun id w _ hw hope => ?_
  obtain ⟨hEw, hnex, hres⟩ := hw hope
  exact ⟨⟨hEw, hnex⟩, hres⟩

theorem safe_insert_content (hE : Fact i E) (id : ℕ) (value : Text) (cls : Classification)
    (now : OffsetDateTime) (hnex : ∀ w, E w → id < w.next_content_id) :
    Safe replaces i (store.insert_content id value cls now)
      (Knows i fun w => E w ∧ w.Creating i ∧ ¬ (w.contents id).Mine i)
      fun row => Knows i fun w => E w ∧ w.Created i row.id := by
  refine safe_statement (by simp) (fun _ _ _ hx => hx.1) hE
    (lasting_creating.and (lasting_unwritten id)) ?_
  rintro w row w' hw hope hEw ⟨hcre, hnot⟩ ⟨_, hsee, hfre, rfl, rfl⟩
  have habs : (w.contents id).committed = none := (seen_of_not_mine hnot).symm.trans hsee
  have hno : ∀ {P : Prop} (c : ContentRow), (w.contents id).committed = some c → P := by
    intro P c hc
    rw [habs] at hc
    simp at hc
  refine ⟨.write_content hw hope hfre (hnex w hEw) (fun c hc => hno c hc)
    fun _ c hc => hno c hc, ?_, ?_, ?_, ⟨id, value, cls, now, now⟩, ?_⟩
  · exact hcre.faithful.write_content hfre fun c hc => hno c hc
  · exact hcre.owes.write_content hfre (fun hp => hnot ⟨_, hp⟩)
      (fun x hx => absurd hx not_mem_nil) fun _ => mem_singleton.mpr rfl
  · exact ((Rewrites.update hfre _).committed id).trans habs
  · show (update w.contents id _ id).pending = _
    rw [update_self]
    rfl

theorem Keeps.insert_path (hw : w.Consistent) (hope : w.opened i = true)
    (hfre : (w.paths fold).Free i) (hcov : w.Covers i fold)
    (hins : w.Insertable i fold row) (hfai : w.Faithful i) :
    Keeps replaces i w (w.write_path i fold (some row)) := by
  have hcel := Rewrites.update hfre (some row)
  refine Keeps.of_paths (hw.write_paths hope hcel ?_ ?_ hfai) hcel ?_
  · intro key hne
    rwa [eq_of_update_ne hne]
  · intro key p hne heq
    obtain rfl := eq_of_update_ne hne
    rw [update_self] at heq
    obtain rfl : row = p := by simpa [Cell.write] using congrArg pending heq
    exact hins
  · intro _ key p c _ hne heq
    obtain rfl := eq_of_update_ne hne
    rw [update_self] at heq
    exact absurd (congrArg pending heq) (by simp [Cell.write])

theorem Owes.insert_path {new : List ℕ} (h : w.Owes i new []) (hfre : (w.paths fold).Free i)
    (hsee : (w.paths fold).seen i = none) (hnew : ∀ id ∈ new, id = row.content_id) :
    (w.write_path i fold (some row)).Owes i [] [] := by
  have hcel := Rewrites.update hfre (some row)
  have hher : ((w.write_path i fold (some row)).paths fold).pending = some (i, some row) := by
    show (update w.paths fold _ fold).pending = _
    rw [update_self]
    rfl
  constructor
  · intro id c hp hnone
    right
    rcases h.created id c hp hnone with hid | ⟨key, p, hkey, rfl⟩
    · exact ⟨fold, row, hher, (hnew id hid).symm⟩
    · refine ⟨key, p, ?_, rfl⟩
      have hne : key ≠ fold := by
        rintro rfl
        rw [seen_of_pending hkey] at hsee
        simp at hsee
      show (update w.paths fold _ key).pending = _
      rwa [update_of_ne hne]
  · intro key p hp hm
    replace hp := (hcel.committed key).symm.trans hp
    have hmin : (w.paths key).Mine i := by
      by_contra hnot
      obtain ⟨v, hv⟩ := hm
      rcases hcel.pending hv with hv | ⟨_, hne, _⟩
      · exact hnot ⟨v, hv⟩
      · obtain rfl := eq_of_update_ne hne
        rw [seen_of_not_mine hnot, hp] at hsee
        simp at hsee
    refine (h.removed key p hp hmin).imp_right fun ⟨hloc, hres⟩ => ⟨hloc, ?_⟩
    refine hres.imp_right ?_
    rintro ⟨other, ⟨r, hr, hid⟩, hnot⟩
    refine ⟨other, ⟨r, (hcel.committed other).trans hr, hid⟩, ?_⟩
    rintro ⟨v, hv⟩
    rcases hcel.pending hv with hv | ⟨_, hne, _⟩
    · exact hnot ⟨v, hv⟩
    · obtain rfl := eq_of_update_ne hne
      rw [seen_of_not_mine hnot, hr] at hsee
      simp at hsee

theorem safe_insert_created (hE : Fact i E) (path : Text) (id : ℕ) (now : OffsetDateTime)
    (hcov : ∀ w, E w → w.Covers i (to_ascii_lowercase path)) :
    Safe replaces i (store.insert_path path id now) (Knows i fun w => E w ∧ w.Created i id)
      fun _ => Knows i fun w => E w ∧ w.Creating i := by
  refine safe_statement (by simp) (fun _ _ _ hx => hx.1) hE (lasting_created id) ?_
  rintro w _ w' hw hope hEw hcre ⟨_, hop, hnone, hfre, hsee, hund, rfl⟩
  obtain ⟨c, hc⟩ := hcre.content
  have hins : w.Insertable i (to_ascii_lowercase path) ⟨path, id, now, now⟩ := by
    refine ⟨⟨rfl, hop⟩, hsee, fun k hk => ?_, fun c' hc' => ?_⟩
    · obtain rfl := hund k hk
      exact pending_ne_of_seen hsee hk
    · exact absurd (hcre.absent.symm.trans hc') (by simp)
  exact ⟨.insert_path hw hope hfre (hcov w hEw) hins hcre.faithful,
    hcre.faithful, hcre.owes.insert_path hfre hnone fun x hx => mem_singleton.mp hx⟩

theorem safe_insert_alias (hE : Fact i E) (path source : Text) (id : ℕ) (now : OffsetDateTime)
    (hcov : ∀ w, E w → w.Covers i (to_ascii_lowercase path))
    (hsou : ∀ w, E w → w.Covers i source ∧ w.HasPath source id) :
    Safe replaces i (store.insert_path path id now) (Knows i fun w => E w ∧ w.Clean i)
      fun _ => Knows i fun w => E w ∧ w.Owes i [] [] := by
  refine safe_statement (by simp) (fun _ _ _ hx => hx.1) hE lasting_clean ?_
  rintro w _ w' hw hope hEw hcle ⟨_, hop, hnone, hfre, hsee, hund, rfl⟩
  have hins : w.Insertable i (to_ascii_lowercase path) ⟨path, id, now, now⟩ := by
    refine ⟨⟨rfl, hop⟩, hsee, fun k hk => ?_, fun _ _ => ⟨source, hsou w hEw⟩⟩
    obtain rfl := hund k hk
    exact pending_ne_of_seen hsee hk
  exact ⟨.insert_path hw hope hfre (hcov w hEw) hins hcle.faithful,
    hcle.owes.insert_path hfre hnone fun x hx => absurd hx not_mem_nil⟩

end Shared

end SovereignConfig.Values
