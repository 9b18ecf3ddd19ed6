/-
What a step of a pool may do to the shared store (`Allowed`), and what one transaction can
therefore go on knowing (`Lasting`).
-/
import SovereignConfig.Values.Discipline

namespace SovereignConfig.Values

open Lib Text List Function Cell

variable {ι : Type}

namespace Shared

structure SameFor (i : ι) (w w' : Shared ι) : Prop where
  opened : w'.opened i = w.opened i
  path_locks : w'.path_locks i = w.path_locks i
  content_locks : w'.content_locks i = w.content_locks i
  recorded : w'.recorded i = w.recorded i
  paths : ∀ fold v, (w'.paths fold).pending = some (i, v) ↔ (w.paths fold).pending = some (i, v)
  contents : ∀ id v, (w'.contents id).pending = some (i, v) ↔ (w.contents id).pending = some (i, v)

structure Quiet (w w' : Shared ι) : Prop where
  next : w.next_content_id ≤ w'.next_content_id
  paths : ∀ fold, (w'.paths fold).committed = (w.paths fold).committed
  contents : ∀ id, (w'.contents id).committed = (w.contents id).committed
  audit : w'.audit = w.audit

/-- The step makes `j` overwrite or unlink no committed value that is a secret. -/
structure Spares (j : ι) (w w' : Shared ι) : Prop where
  contents : ∀ id c c', (w.contents id).committed = some c →
    (w'.contents id).pending = some (j, some c') →
    (w'.contents id).pending ≠ (w.contents id).pending → c.classification = .PLAIN
  paths : ∀ fold row c, (w.paths fold).committed = some row →
    (w'.paths fold).pending = some (j, none) → (w'.paths fold).pending ≠ (w.paths fold).pending →
    (w.contents row.content_id).committed = some c → c.classification = .PLAIN

section

variable [DecidableEq ι]

/-- What a step may do. A request touches only what belongs to its transaction, and commits
nothing, unless it commits a transaction that has nothing left to do. The transactions `replaces`
spare secrets. -/
def Allowed (replaces : ι → Prop) (w : Shared ι) :
    Label ι Request Request.Answer → Shared ι → Prop
  | .asked j _ _, w' => (∀ i, i ≠ j → SameFor i w w') ∧
      (Quiet w w' ∨ w' = w.commit j ∧ w.Owes j [] []) ∧ (replaces j → Spares j w w')
  | .crashed _, w' => w' = w
  | .idled, w' => ∃ k, w' = w.abort k

def discipline (replaces : ι → Prop) : Discipline ι (Shared ι) Request Request.Answer :=
  ⟨Consistent, Allowed replaces⟩

theorem discipline_sound (replaces : ι → Prop) : (discipline replaces).Sound (system ι) where
  crash := by
    rintro i w w' hinv rfl
    exact ⟨hinv, rfl⟩
  idle := by
    rintro w w' hinv ⟨i, rfl⟩
    exact ⟨hinv.abort i, i, rfl⟩

omit [DecidableEq ι] in
theorem SameFor.refl (i : ι) (w : Shared ι) : SameFor i w w :=
  ⟨rfl, rfl, rfl, rfl, fun _ _ => Iff.rfl, fun _ _ => Iff.rfl⟩

omit [DecidableEq ι] in
theorem Quiet.refl (w : Shared ι) : Quiet w w := ⟨le_rfl, fun _ => rfl, fun _ => rfl, rfl⟩

variable {i : ι} {w w' : Shared ι} {replaces : ι → Prop} {F : Shared ι → Prop}

omit [DecidableEq ι] in
theorem SameFor.mine_path (h : SameFor i w w') (fold : Text) :
    (w'.paths fold).Mine i ↔ (w.paths fold).Mine i := exists_congr fun v => h.paths fold v

omit [DecidableEq ι] in
theorem SameFor.mine_content (h : SameFor i w w') (id : ℕ) :
    (w'.contents id).Mine i ↔ (w.contents id).Mine i := exists_congr fun v => h.contents id v

omit [DecidableEq ι] in
theorem Quiet.hasPath (h : Quiet w w') (fold : Text) (id : ℕ) :
    w'.HasPath fold id ↔ w.HasPath fold id := by
  simp only [HasPath, h.paths]

structure Env (i : ι) (w w' : Shared ι) : Prop where
  same : SameFor i w w'
  next : w.next_content_id ≤ w'.next_content_id
  path_same : ∀ fold, w.Covers i fold → (w'.paths fold).committed = (w.paths fold).committed
  mine_same : ∀ id, (w.contents id).Mine i →
    (w'.contents id).committed = (w.contents id).committed
  locked_path : ∀ fold id, id ∈ w.content_locks i → w.HasPath fold id → w'.HasPath fold id
  sole : ∀ fold id, w.Covers i fold → w.HasPath fold id → w.Sole fold id → w'.Sole fold id
  class_same : ∀ fold id c, w.Covers i fold → w.HasPath fold id →
    (w.contents id).committed = some c →
    ∃ c', (w'.contents id).committed = some c' ∧ c'.classification = c.classification

omit [DecidableEq ι] in
theorem Env.of_quiet (hsam : SameFor i w w') (h : Quiet w w') :
    Env i w w' where
  same := hsam
  next := h.next
  path_same := fun fold _ => h.paths fold
  mine_same := fun id _ => h.contents id
  locked_path := fun fold id _ hher => (h.hasPath fold id).mpr hher
  sole := fun _ id _ _ honly other hoth => honly other ((h.hasPath other id).mp hoth)
  class_same := fun _ id c _ _ hc => ⟨c, (h.contents id).trans hc, rfl⟩

theorem Env.of_commit {j : ι} (h : w.Consistent) (hj : i ≠ j) (hdon : w.Owes j [] [])
    (hsam : SameFor i w (w.commit j)) : Env i w (w.commit j) := by
  have hnot : ∀ {fold}, w.Covers i fold → ¬ (w.paths fold).Mine j :=
    fun hc hm => hj (h.compatible.covers_unique hc (h.covered _ j hm))
  constructor
  · exact hsam
  · exact le_rfl
  · intro fold hfol
    exact commit_committed.trans (seen_of_not_mine (hnot hfol))
  · intro id hmin
    exact commit_committed.trans
      (seen_of_not_mine fun hm => hj (hmin.unique hm))
  · intro fold id hloc hher
    refine hasPath_commit_of_kept (fun hm => ?_) hher
    obtain ⟨row, hrow, rfl⟩ := hher
    rcases hdon.removed fold row hrow hm with hno | ⟨hoth, _⟩
    · exact absurd hno not_mem_nil
    · exact h.content_locks i j hj _ hloc hoth
  · intro fold id hfol hher honly other hoth
    rcases hasPath_commit hoth with ⟨row, hins, rfl⟩ | ⟨_, hoth⟩
    · -- A new path to a stored content has a source, which can only be the path covered here.
      obtain ⟨row', hrow', hid⟩ := hher
      obtain ⟨c, hc⟩ := h.referenced fold row' hrow'
      obtain ⟨source, hs, hsou⟩ := h.aliased other j row c hins (hid ▸ hc)
      rw [honly source hsou] at hs
      exact absurd (h.compatible.covers_unique hfol hs) hj
    · exact honly other hoth
  · intro fold id c hfol hher hc
    have hcom : ((w.commit j).contents id).committed = (w.contents id).seen j :=
      commit_committed
    rcases seen_cases j (w.contents id) with hp | ⟨_, heq⟩
    · cases hsee : (w.contents id).seen j with
      | none =>
        rw [hsee] at hp
        exact absurd (h.deleted id j hp fold hher) (hnot hfol)
      | some c' =>
        refine ⟨c', hcom.trans hsee, ?_⟩
        rw [hsee] at hp
        by_contra hne
        obtain ⟨⟨g, hg, _, honly⟩, _⟩ := h.reclassified id j c c' hp hc (Ne.symm hne)
        rw [← honly fold hher] at hg
        exact hj (h.compatible.covers_unique hfol hg)
    · exact ⟨c, hcom.trans (heq.trans hc), rfl⟩

theorem sameFor_abort {k : ι} (h : i ≠ k) (w : Shared ι) : SameFor i w (w.abort k) where
  opened := update_of_ne h _ _
  path_locks := update_of_ne h _ _
  content_locks := update_of_ne h _ _
  recorded := update_of_ne h _ _
  paths := fun _ _ => abort_pending.trans (and_iff_left h)
  contents := fun _ _ => abort_pending.trans (and_iff_left h)

theorem quiet_abort (k : ι) (w : Shared ι) : Quiet w (w.abort k) :=
  ⟨le_rfl, fun _ => abort_committed, fun _ => abort_committed, rfl⟩

theorem Env.of_allowed {l : Label ι Request Request.Answer} (h : w.Consistent)
    (hfor : l.Foreign i) (hall : Allowed replaces w l w') (hope : w'.opened i = true) :
    Env i w w' := by
  cases l with
  | asked j q a =>
    obtain ⟨hsam, heff, _⟩ := hall
    have hj : i ≠ j := Ne.symm hfor
    rcases heff with hqui | ⟨rfl, hdon⟩
    · exact .of_quiet (hsam i hj) hqui
    · exact .of_commit h hj hdon (hsam i hj)
  | crashed j =>
    obtain rfl : w' = w := hall
    exact .of_quiet (.refl i w') (.refl w')
  | idled =>
    obtain ⟨k, rfl⟩ := hall
    have hk : i ≠ k := by
      rintro rfl
      simp [abort] at hope
    exact .of_quiet (sameFor_abort hk w) (quiet_abort k w)

def Knows (i : ι) (F : Shared ι → Prop) (w : Shared ι) : Prop := w.opened i = true → F w

def Lasting (i : ι) (F : Shared ι → Prop) : Prop :=
  ∀ w w', Consistent w → Consistent w' → Env i w w' → F w → F w'

theorem Lasting.stable (h : Lasting i F) : Stable (discipline replaces) i (Knows i F) := by
  intro w l w' hinv hinv' hF hfor hall hope
  have henv := Env.of_allowed hinv hfor hall hope
  exact h w w' hinv hinv' henv (hF (henv.same.opened ▸ hope))

theorem stable_closed (i : ι) : Stable (discipline replaces) i fun w => w.opened i = false := by
  intro w l w' _ _ hclo hfor hall
  cases l with
  | asked j q a => exact ((hall.1 i (Ne.symm hfor)).opened).trans hclo
  | crashed j =>
    obtain rfl : w' = w := hall
    exact hclo
  | idled =>
    obtain ⟨k, rfl⟩ := hall
    by_cases hk : i = k
    · subst hk
      simp [abort]
    · exact (sameFor_abort hk w).opened.trans hclo

theorem Lasting.and {G : Shared ι → Prop} (hF : Lasting i F) (hG : Lasting i G) :
    Lasting i fun w => F w ∧ G w :=
  fun w w' h h' henv hw => ⟨hF w w' h h' henv hw.1, hG w w' h h' henv hw.2⟩

end

end Shared

end SovereignConfig.Values
