/-
`Consistent`, the invariant of the shared store: which locks a transaction holds that writes a
path, adds a path to a content, or changes a classification.
-/
import SovereignConfig.Lib.Guarded
import SovereignConfig.Values.Collisions
import SovereignConfig.Values.Concurrent

namespace SovereignConfig.Values

open Lib Text List Function Cell

variable {ι : Type}

namespace Shared

def Holds (w : Shared ι) (i : ι) (p : ConfigPath) : Prop := ∀ r ∈ mutation_locks p, r ∈ w.path_locks i

def Covers (w : Shared ι) (i : ι) (fold : Text) : Prop :=
  ∃ p, w.Holds i p ∧ p.segs <+: segments fold

def Compatible (w : Shared ι) : Prop :=
  ∀ i j, i ≠ j → ∀ r ∈ w.path_locks i, ∀ r' ∈ w.path_locks j, ¬ r.Conflicts r'

variable {i : ι} {w : Shared ι} {fold : Text}

theorem Holds.covers {p : ConfigPath} (h : w.Holds i p) :
    w.Covers i p.fold := ⟨p, h, by rw [segments_fold]⟩

theorem Covers.mono {w' : Shared ι} (h : w.Covers i fold)
    (hloc : ∀ r ∈ w.path_locks i, r ∈ w'.path_locks i) : w'.Covers i fold := by
  obtain ⟨p, hp, hbel⟩ := h
  exact ⟨p, fun r hr => hloc r (hp r hr), hbel⟩

theorem Compatible.covers_unique (h : w.Compatible) {j : ι} (hi : w.Covers i fold)
    (hj : w.Covers j fold) : i = j := by
  obtain ⟨p, hp, hpbe⟩ := hi
  obtain ⟨q, hq, hqbe⟩ := hj
  obtain ⟨r, hr, r', hr', hcon⟩ :=
    exclude_iff_nested.mpr ( prefix_or_prefix_of_prefix hpbe hqbe)
  by_contra hne
  exact h i j hne r (hp r hr) r' (hq r' hr') hcon

def HasPath (w : Shared ι) (fold : Text) (id : ℕ) : Prop :=
  ∃ row, (w.paths fold).committed = some row ∧ row.content_id = id

/-- No other path leads to the content. -/
def Sole (w : Shared ι) (fold : Text) (id : ℕ) : Prop := ∀ other, w.HasPath other id → other = fold

def Keyed (fold : Text) (row : PathRow) : Prop :=
  row.lowercase_path = fold ∧ operation_path row.path = true

section

variable [DecidableEq ι]

structure Consistent (w : Shared ι) : Prop where
  path_key : ∀ fold row, (w.paths fold).committed = some row → Keyed fold row
  pending_key : ∀ fold j row, (w.paths fold).pending = some (j, some row) → Keyed fold row
  compatible : w.Compatible
  content_locks : ∀ i j, i ≠ j → ∀ id ∈ w.content_locks i, id ∉ w.content_locks j
  closed : ∀ i, w.opened i = false → w.path_locks i = [] ∧ w.content_locks i = [] ∧
    (∀ fold, ¬ (w.paths fold).Mine i) ∧ ∀ id, ¬ (w.contents id).Mine i
  fresh : ∀ id, (w.contents id).committed ≠ none ∨ (w.contents id).pending ≠ none →
    id < w.next_content_id
  referenced : ∀ fold row, (w.paths fold).committed = some row →
    ∃ c, (w.contents row.content_id).committed = some c
  owned : ∀ id c, (w.contents id).committed = some c → ∃ fold, w.HasPath fold id
  covered : ∀ fold j, (w.paths fold).Mine j → w.Covers j fold
  inserted : ∀ fold j row, (w.paths fold).pending = some (j, some row) →
    (w.contents row.content_id).seen j ≠ none ∧
    ∀ k, (w.contents row.content_id).pending ≠ some (k, none)
  deleted : ∀ id k, (w.contents id).pending = some (k, none) →
    ∀ fold, w.HasPath fold id → (w.paths fold).Mine k
  aliased : ∀ fold j row c, (w.paths fold).pending = some (j, some row) →
    (w.contents row.content_id).committed = some c →
    ∃ source, w.Covers j source ∧ w.HasPath source row.content_id
  reclassified : ∀ id j c c', (w.contents id).pending = some (j, some c') →
    (w.contents id).committed = some c → c.classification ≠ c'.classification →
    (∃ fold, w.Covers j fold ∧ w.HasPath fold id ∧ w.Sole fold id) ∧
    ∀ fold, ¬ (w.paths fold).Mine j

end

structure Owes (w : Shared ι) (i : ι) (new doomed : List ℕ) : Prop where
  created : ∀ id c, (w.contents id).pending = some (i, some c) → (w.contents id).committed = none →
    id ∈ new ∨ ∃ fold row, (w.paths fold).pending = some (i, some row) ∧ row.content_id = id
  removed : ∀ fold row, (w.paths fold).committed = some row → (w.paths fold).Mine i →
    row.content_id ∈ doomed ∨ row.content_id ∈ w.content_locks i ∧
      ((w.contents row.content_id).pending = some (i, none) ∨
        ∃ other, w.HasPath other row.content_id ∧ ¬ (w.paths other).Mine i)

/-- The transaction's pending writes keep every classification. -/
def Faithful (w : Shared ι) (i : ι) : Prop :=
  ∀ id c c', (w.contents id).committed = some c → (w.contents id).pending = some (i, some c') →
    c.classification = c'.classification

/-! ## What keeps the invariant -/

section

variable [DecidableEq ι] {w : Shared ι} {i : ι}

variable {w' : Shared ι} {j : ι} {fold : Text} {id : ℕ}

theorem Consistent.of_same_tables (h : w.Consistent) (hpat : w'.paths = w.paths)
    (hcon : w'.contents = w.contents) (hnex : w.next_content_id ≤ w'.next_content_id)
    (hloc : ∀ j, ∀ r ∈ w.path_locks j, r ∈ w'.path_locks j) (hcom : w'.Compatible)
    (hcont : ∀ i j, i ≠ j → ∀ id ∈ w'.content_locks i, id ∉ w'.content_locks j)
    (hclo : ∀ j, w'.opened j = false → w.opened j = false ∧ w'.path_locks j = w.path_locks j ∧
      w'.content_locks j = w.content_locks j) : w'.Consistent := by
  have hcov : ∀ {j fold}, w.Covers j fold → w'.Covers j fold := fun h => h.mono (hloc _)
  have hhas : ∀ fold id, w'.HasPath fold id ↔ w.HasPath fold id := by
    intro fold id
    simp only [HasPath, hpat]
  have hsol : ∀ fold id, w'.Sole fold id ↔ w.Sole fold id := by
    intro fold id
    simp only [Sole, hhas]
  constructor
  · simpa only [hpat] using h.path_key
  · simpa only [hpat] using h.pending_key
  · exact hcom
  · exact hcont
  · intro j hj
    obtain ⟨hope, hp, hc⟩ := hclo j hj
    rw [hp, hc, hpat, hcon]
    exact h.closed j hope
  · intro id hid
    rw [hcon] at hid
    exact lt_of_lt_of_le (h.fresh id hid) hnex
  · simpa only [hpat, hcon] using h.referenced
  · simpa only [hcon, hhas] using h.owned
  · intro fold j hmin
    rw [hpat] at hmin
    exact hcov (h.covered fold j hmin)
  · simpa only [hpat, hcon] using h.inserted
  · simpa only [hpat, hcon, hhas] using h.deleted
  · intro fold j row c hp hc
    rw [hpat] at hp
    rw [hcon] at hc
    obtain ⟨source, hs, hsou⟩ := h.aliased fold j row c hp hc
    exact ⟨source, hcov hs, (hhas _ _).mpr hsou⟩
  · intro id j c c' hp hc hne
    rw [hcon] at hp hc
    obtain ⟨⟨fold, hfol, hher, honly⟩, hnone⟩ := h.reclassified id j c c' hp hc hne
    rw [hpat]
    exact ⟨⟨fold, hcov hfol, (hhas _ _).mpr hher, (hsol _ _).mpr honly⟩, hnone⟩

def Rewrites {κ ρ : Type} (i : ι) (cells cells' : κ → Cell ι ρ) : Prop :=
  ∀ key, cells' key = cells key ∨
    (cells key).Free i ∧ ∃ v, cells' key = (cells key).write i v

omit [DecidableEq ι] in
theorem Rewrites.committed {κ ρ : Type} {cells cells' : κ → Cell ι ρ}
    (h : Rewrites i cells cells') (key : κ) : (cells' key).committed = (cells key).committed := by
  rcases h key with heq | ⟨_, v, heq⟩
  · rw [heq]
  · rw [heq]
    rfl

omit [DecidableEq ι] in
theorem Rewrites.pending {κ ρ : Type} {cells cells' : κ → Cell ι ρ} (h : Rewrites i cells cells')
    {key : κ} {v : Option ρ} (hp : (cells' key).pending = some (j, v)) :
    (cells key).pending = some (j, v) ∨
      j = i ∧ cells' key ≠ cells key ∧ cells' key = (cells key).write i v := by
  by_cases heq : cells' key = cells key
  · exact Or.inl (heq ▸ hp)
  · obtain ⟨_, u, hwri⟩ := (h key).resolve_left heq
    rw [hwri] at hp
    obtain ⟨rfl, rfl⟩ := write_pending.mp hp
    exact Or.inr ⟨rfl, heq, hwri⟩

omit [DecidableEq ι] in
theorem Rewrites.pending_other {κ ρ : Type} {cells cells' : κ → Cell ι ρ}
    (h : Rewrites i cells cells') (key : κ) (hj : j ≠ i) (v : Option ρ) :
    (cells' key).pending = some (j, v) ↔ (cells key).pending = some (j, v) := by
  rcases h key with heq | ⟨hfre, u, heq⟩
  · rw [heq]
  · rw [heq, write_pending_other hfre hj]

omit [DecidableEq ι] in
theorem Rewrites.mine {κ ρ : Type} {cells cells' : κ → Cell ι ρ} (h : Rewrites i cells cells')
    {key : κ} (hmin : (cells key).Mine j) : (cells' key).Mine j := by
  rcases h key with heq | ⟨hfre, u, heq⟩
  · rwa [heq]
  · obtain ⟨v, hv⟩ := hmin
    obtain rfl := hfre j v hv
    exact ⟨u, by rw [heq]; rfl⟩

theorem Rewrites.seen_other {κ ρ : Type} {cells cells' : κ → Cell ι ρ}
    (h : Rewrites i cells cells') (key : κ) (hj : j ≠ i) :
    (cells' key).seen j = (cells key).seen j := by
  rcases h key with heq | ⟨hfre, u, heq⟩
  · rw [heq]
  · rw [heq, seen_write hj hfre]

structure Insertable (w : Shared ι) (i : ι) (fold : Text) (row : PathRow) : Prop where
  key : Keyed fold row
  content : (w.contents row.content_id).seen i ≠ none
  undeleted : ∀ k, (w.contents row.content_id).pending ≠ some (k, none)
  source : ∀ c, (w.contents row.content_id).committed = some c →
    ∃ source, w.Covers i source ∧ w.HasPath source row.content_id

theorem Consistent.write_paths (h : w.Consistent) (hope : w.opened i = true)
    {paths' : Text → Cell ι PathRow} (hcel : Rewrites i w.paths paths')
    (hcov : ∀ fold, paths' fold ≠ w.paths fold → w.Covers i fold)
    (hins : ∀ fold row, paths' fold ≠ w.paths fold →
      paths' fold = (w.paths fold).write i (some row) → w.Insertable i fold row)
    (hfai : w.Faithful i) : Consistent { w with paths := paths' } := by
  have hhas : ∀ fold id, HasPath { w with paths := paths' } fold id ↔ w.HasPath fold id := by
    intro fold id
    simp only [HasPath, hcel.committed]
  have hmin : ∀ {fold j}, (paths' fold).Mine j → j = i ∨ (w.paths fold).Mine j := by
    rintro fold j ⟨v, hv⟩
    rcases hcel.pending hv with hv | ⟨hj, _⟩
    · exact Or.inr ⟨v, hv⟩
    · exact Or.inl hj
  constructor
  · intro fold row hrow
    exact h.path_key fold row (hcel.committed fold ▸ hrow)
  · intro fold j row hp
    rcases hcel.pending hp with hp | ⟨_, hne, heq⟩
    · exact h.pending_key fold j row hp
    · exact (hins fold row hne heq).key
  · exact h.compatible
  · exact h.content_locks
  · intro j hj
    obtain ⟨hp, hc, hpat, hcon⟩ := h.closed j hj
    refine ⟨hp, hc, fun fold hm => ?_, hcon⟩
    rcases hmin hm with rfl | hm
    · exact absurd hope (by simpa using hj)
    · exact hpat fold hm
  · exact h.fresh
  · intro fold row hrow
    exact h.referenced fold row (hcel.committed fold ▸ hrow)
  · intro id c hc
    simpa only [hhas] using h.owned id c hc
  · rintro fold j ⟨v, hv⟩
    rcases hcel.pending hv with hv | ⟨rfl, hne, _⟩
    · exact h.covered fold j ⟨v, hv⟩
    · exact hcov fold hne
  · intro fold j row hp
    rcases hcel.pending hp with hp | ⟨rfl, hne, heq⟩
    · exact h.inserted fold j row hp
    · exact ⟨(hins fold row hne heq).content, (hins fold row hne heq).undeleted⟩
  · intro id k hp fold hfol
    exact hcel.mine (h.deleted id k hp fold ((hhas _ _).mp hfol))
  · intro fold j row c hp hc
    simp only [hhas]
    rcases hcel.pending hp with hp | ⟨rfl, hne, heq⟩
    · exact h.aliased fold j row c hp hc
    · exact (hins fold row hne heq).source c hc
  · intro id j c c' hp hc hne
    obtain ⟨⟨fold, hfol, hher, honly⟩, hnone⟩ := h.reclassified id j c c' hp hc hne
    refine ⟨⟨fold, hfol, (hhas _ _).mpr hher, fun g hg => honly g ((hhas _ _).mp hg)⟩,
      fun fold hm => ?_⟩
    rcases hmin hm with rfl | hm
    · exact hne (hfai id c c' hc hp)
    · exact hnone fold hm

/-- **Writing contents.** A deleted one must have no path left but those the transaction has
deleted itself; one that changes its classification must be backed as the invariant asks. -/
theorem Consistent.write_contents (h : w.Consistent) (hope : w.opened i = true)
    {contents' : ℕ → Cell ι ContentRow} (hcel : Rewrites i w.contents contents')
    (hnex : ∀ id, contents' id ≠ w.contents id → id < w.next_content_id)
    (hdel : ∀ id, contents' id ≠ w.contents id → contents' id = (w.contents id).write i none →
      (∀ fold j row, (w.paths fold).pending = some (j, some row) → row.content_id ≠ id) ∧
      ∀ fold, w.HasPath fold id → (w.paths fold).Mine i)
    (hwri : ∀ id c c', contents' id ≠ w.contents id →
      contents' id = (w.contents id).write i (some c') → (w.contents id).committed = some c →
      c.classification ≠ c'.classification →
      (∃ fold, w.Covers i fold ∧ w.HasPath fold id ∧ w.Sole fold id) ∧
      ∀ fold, ¬ (w.paths fold).Mine i) : Consistent { w with contents := contents' } := by
  constructor
  · exact h.path_key
  · exact h.pending_key
  · exact h.compatible
  · exact h.content_locks
  · intro j hj
    obtain ⟨hp, hc, hpat, hcon⟩ := h.closed j hj
    refine ⟨hp, hc, hpat, fun id hm => ?_⟩
    obtain ⟨v, hv⟩ := hm
    rcases hcel.pending hv with hv | ⟨rfl, _⟩
    · exact hcon id ⟨v, hv⟩
    · exact absurd hope (by simpa using hj)
  · intro id hid
    rw [hcel.committed] at hid
    rcases hid with hid | hid
    · exact h.fresh id (Or.inl hid)
    · obtain ⟨⟨j, v⟩, hv⟩ := Option.ne_none_iff_exists'.mp hid
      rcases hcel.pending hv with hp | ⟨_, hne, _⟩
      · exact h.fresh id (Or.inr (by simp [hp]))
      · exact hnex id hne
  · intro fold row hrow
    obtain ⟨c, hc⟩ := h.referenced fold row hrow
    exact ⟨c, (hcel.committed _).trans hc⟩
  · intro id c hc
    exact h.owned id c (hcel.committed id ▸ hc)
  · exact h.covered
  · intro fold j row hp
    obtain ⟨hsee, hund⟩ := h.inserted fold j row hp
    show (contents' row.content_id).seen j ≠ none ∧
      ∀ k, (contents' row.content_id).pending ≠ some (k, none)
    constructor
    · by_cases hj : j = i
      · subst hj
        by_cases heq : contents' row.content_id = w.contents row.content_id
        · rwa [heq]
        · obtain ⟨_, v, hwri⟩ := (hcel row.content_id).resolve_left heq
          rw [hwri, seen_of_pending rfl]
          rintro rfl
          exact (hdel _ heq hwri).1 fold j row hp rfl
      · rwa [hcel.seen_other _ hj]
    · intro k hk
      rcases hcel.pending hk with hk | ⟨_, hne, heq⟩
      · exact hund k hk
      · exact (hdel _ hne heq).1 fold j row hp rfl
  · intro id k hk
    rcases hcel.pending hk with hk | ⟨rfl, hne, heq⟩
    · exact h.deleted id k hk
    · exact (hdel id hne heq).2
  · intro fold j row c hp hc
    exact h.aliased fold j row c hp (hcel.committed _ ▸ hc)
  · intro id j c c' hp hc hne
    replace hc := (hcel.committed id).symm.trans hc
    rcases hcel.pending hp with hp | ⟨rfl, hnew, heq⟩
    · exact h.reclassified id j c c' hp hc hne
    · exact hwri id c c' hnew heq hc hne

theorem hasPath_commit (h : (w.commit i).HasPath fold id) :
    (∃ row, (w.paths fold).pending = some (i, some row) ∧ row.content_id = id) ∨
      ¬ (w.paths fold).Mine i ∧ w.HasPath fold id := by
  obtain ⟨row, hrow, hid⟩ := h
  rw [commit, commit_committed] at hrow
  rcases seen_eq_some hrow with hp | ⟨hm, hc⟩
  · exact Or.inl ⟨row, hp, hid⟩
  · exact Or.inr ⟨hm, row, hc, hid⟩

theorem hasPath_commit_of_inserted {row : PathRow}
    (h : (w.paths fold).pending = some (i, some row)) :
    (w.commit i).HasPath fold row.content_id :=
  ⟨row, by rw [commit, commit_committed, seen_of_pending h], rfl⟩

theorem hasPath_commit_of_kept (hm : ¬ (w.paths fold).Mine i) (h : w.HasPath fold id) :
    (w.commit i).HasPath fold id := by
  obtain ⟨row, hrow, hid⟩ := h
  exact ⟨row, by rw [commit, commit_committed, seen_of_not_mine hm, hrow], hid⟩

theorem Covers.released (hloc : w'.path_locks = update w.path_locks i []) (hj : j ≠ i)
    (h : w.Covers j fold) : w'.Covers j fold :=
  h.mono fun r hr => by rwa [hloc, update_of_ne hj]

theorem Compatible.released (h : w.Compatible)
    (hloc : w'.path_locks = update w.path_locks i []) : w'.Compatible := by
  intro j k hjk r hr r' hr'
  rw [hloc] at hr hr'
  by_cases hj : j = i
  · subst hj
    simp at hr
  by_cases hk : k = i
  · subst hk
    simp at hr'
  rw [update_of_ne hj] at hr
  rw [update_of_ne hk] at hr'
  exact h j k hjk r hr r' hr'

theorem content_locks_released (h : w.Consistent) (j k : ι) (hjk : j ≠ k) :
    ∀ id ∈ update w.content_locks i [] j, id ∉ update w.content_locks i [] k := by
  intro id hj hk
  by_cases hji : j = i
  · subst hji
    simp at hj
  by_cases hki : k = i
  · subst hki
    simp at hk
  rw [update_of_ne hji] at hj
  rw [update_of_ne hki] at hk
  exact h.content_locks j k hjk id hj hk

theorem closed_released (h : w.Consistent)
    (hloc : w'.path_locks = update w.path_locks i [])
    (hcon : w'.content_locks = update w.content_locks i [])
    (hope : w'.opened = update w.opened i false)
    (hpat : ∀ fold j, (w'.paths fold).Mine j ↔ (w.paths fold).Mine j ∧ j ≠ i)
    (hcont : ∀ id j, (w'.contents id).Mine j ↔ (w.contents id).Mine j ∧ j ≠ i) (j : ι)
    (hj : w'.opened j = false) : w'.path_locks j = [] ∧ w'.content_locks j = [] ∧
      (∀ fold, ¬ (w'.paths fold).Mine j) ∧ ∀ id, ¬ (w'.contents id).Mine j := by
  simp only [hloc, hcon, hpat, hcont]
  by_cases hji : j = i
  · subst hji
    simp
  · rw [hope, update_of_ne hji] at hj
    obtain ⟨hp, hc, hmp, hmc⟩ := h.closed j hj
    rw [update_of_ne hji, update_of_ne hji]
    exact ⟨hp, hc, fun fold hm => hmp fold hm.1, fun id hm => hmc id hm.1⟩

theorem Consistent.abort (h : w.Consistent) (i : ι) : (w.abort i).Consistent := by
  have hhas : ∀ fold id, (w.abort i).HasPath fold id ↔ w.HasPath fold id := by
    intro fold id
    simp only [HasPath, Shared.abort, abort_committed]
  have hcov : ∀ {j fold}, j ≠ i → w.Covers j fold → (w.abort i).Covers j fold :=
    fun hj hc => hc.released rfl hj
  constructor
  · intro fold row hrow
    exact h.path_key fold row (abort_committed.symm.trans hrow)
  · intro fold j row hp
    exact h.pending_key fold j row (abort_pending.mp hp).1
  · exact h.compatible.released rfl
  · exact content_locks_released h
  · exact closed_released h rfl rfl rfl (fun _ _ => mine_abort) fun _ _ => mine_abort
  · intro id hid
    have hcom : ((w.abort i).contents id).committed = (w.contents id).committed :=
      abort_committed
    refine h.fresh id (hid.imp (fun hc => hcom ▸ hc) fun hp => ?_)
    obtain ⟨⟨j, v⟩, hv⟩ := Option.ne_none_iff_exists'.mp hp
    rw [(abort_pending.mp hv).1]
    simp
  · intro fold row hrow
    obtain ⟨c, hc⟩ := h.referenced fold row (abort_committed.symm.trans hrow)
    exact ⟨c, abort_committed.trans hc⟩
  · intro id c hc
    simpa only [hhas] using h.owned id c (abort_committed.symm.trans hc)
  · intro fold j hm
    obtain ⟨hm, hj⟩ := mine_abort.mp hm
    exact hcov hj (h.covered fold j hm)
  · intro fold j row hp
    obtain ⟨hp, hj⟩ := abort_pending.mp hp
    obtain ⟨hsee, hund⟩ := h.inserted fold j row hp
    exact ⟨fun hs => hsee ((seen_abort hj).symm.trans hs),
      fun k hk => hund k (abort_pending.mp hk).1⟩
  · intro id k hk fold hfol
    obtain ⟨hk, hne⟩ := abort_pending.mp hk
    exact mine_abort.mpr ⟨h.deleted id k hk fold ((hhas _ _).mp hfol), hne⟩
  · intro fold j row c hp hc
    obtain ⟨hp, hj⟩ := abort_pending.mp hp
    obtain ⟨source, hs, hsou⟩ := h.aliased fold j row c hp (abort_committed.symm.trans hc)
    exact ⟨source, hcov hj hs, (hhas _ _).mpr hsou⟩
  · intro id j c c' hp hc hne
    obtain ⟨hp, hj⟩ := abort_pending.mp hp
    obtain ⟨⟨fold, hfol, hher, honly⟩, hnone⟩ :=
      h.reclassified id j c c' hp (abort_committed.symm.trans hc) hne
    exact ⟨⟨fold, hcov hj hfol, (hhas _ _).mpr hher,
      fun g hg => honly g ((hhas _ _).mp hg)⟩, fun g hm => hnone g (mine_abort.mp hm).1⟩

theorem Consistent.commit (h : w.Consistent) (hdon : w.Owes i [] []) :
    (w.commit i).Consistent := by
  have hcov : ∀ {j fold}, j ≠ i → w.Covers j fold → (w.commit i).Covers j fold :=
    fun hj hc => hc.released rfl hj
  -- What another transaction covers, this one has not written.
  have hkep : ∀ {j fold}, j ≠ i → w.Covers j fold → ¬ (w.paths fold).Mine i :=
    fun hj hc hm => hj (h.compatible.covers_unique hc (h.covered _ i hm))
  constructor
  · intro fold row hrow
    rcases seen_eq_some (commit_committed.symm.trans hrow) with hp | ⟨_, hc⟩
    · exact h.pending_key fold i row hp
    · exact h.path_key fold row hc
  · intro fold j row hp
    exact h.pending_key fold j row (commit_pending.mp hp).1
  · exact h.compatible.released rfl
  · exact content_locks_released h
  · exact closed_released h rfl rfl rfl (fun _ _ => mine_commit) fun _ _ => mine_commit
  · intro id hid
    rcases hid with hc | hp
    · obtain ⟨c, hc⟩ := Option.ne_none_iff_exists'.mp hc
      rcases seen_eq_some (commit_committed.symm.trans hc) with hp | ⟨_, hc⟩
      · exact h.fresh id (Or.inr (by simp [hp]))
      · exact h.fresh id (Or.inl (by simp [hc]))
    · obtain ⟨⟨j, v⟩, hv⟩ := Option.ne_none_iff_exists'.mp hp
      exact h.fresh id (Or.inr (by simp [(commit_pending.mp hv).1]))
  · -- A path this transaction inserts has a content it sees; of any other, it has not deleted the
    -- content, since it has not written the path.
    intro fold row hrow
    refine Option.ne_none_iff_exists'.mp fun hnone => ?_
    replace hnone := commit_committed.symm.trans hnone
    rcases seen_eq_some (commit_committed.symm.trans hrow) with hp | ⟨hm, hc⟩
    · exact (h.inserted fold i row hp).1 hnone
    · obtain ⟨c, hcon⟩ := h.referenced fold row hc
      rcases seen_cases i (w.contents row.content_id) with hp | ⟨_, heq⟩
      · rw [hnone] at hp
        exact hm (h.deleted _ i hp fold ⟨row, hc, rfl⟩)
      · rw [heq, hcon] at hnone
        exact Option.some_ne_none c hnone
  · intro id c hc
    replace hc := commit_committed.symm.trans hc
    have hkee : ∀ c₀, (w.contents id).committed = some c₀ →
        ∃ fold, (w.commit i).HasPath fold id := by
      intro c₀ hc₀
      obtain ⟨fold, row, hrow, rfl⟩ := h.owned id c₀ hc₀
      by_cases hm : (w.paths fold).Mine i
      · rcases hdon.removed fold row hrow hm with hno | ⟨_, hgon | ⟨other, hoth, hnot⟩⟩
        · exact absurd hno not_mem_nil
        · rw [seen_of_pending hgon] at hc
          exact absurd hc (Option.some_ne_none c).symm
        · exact ⟨other, hasPath_commit_of_kept hnot hoth⟩
      · exact ⟨fold, hasPath_commit_of_kept hm ⟨row, hrow, rfl⟩⟩
    cases hc₀ : (w.contents id).committed with
    | some c₀ => exact hkee c₀ hc₀
    | none =>
      rcases seen_eq_some hc with hp | ⟨_, hc⟩
      · rcases hdon.created id c hp hc₀ with hno | ⟨fold, row, hrow, rfl⟩
        · exact absurd hno not_mem_nil
        · exact ⟨fold, hasPath_commit_of_inserted hrow⟩
      · exact absurd (hc₀.symm.trans hc) (by simp)
  · intro fold j hm
    obtain ⟨hm, hj⟩ := mine_commit.mp hm
    exact hcov hj (h.covered fold j hm)
  · intro fold j row hp
    obtain ⟨hp, hj⟩ := commit_pending.mp hp
    obtain ⟨hsee, hund⟩ := h.inserted fold j row hp
    refine ⟨?_, fun k hk => hund k (commit_pending.mp hk).1⟩
    show ((w.contents row.content_id).commit i).seen j ≠ none
    by_cases hm : (w.contents row.content_id).Mine i
    · obtain ⟨v, hv⟩ := hm
      rw [commit_of_pending hv]
      rintro rfl
      exact hund i hv
    · rwa [commit_of_not_mine hm]
  · intro id k hk fold hfol
    obtain ⟨hk, hne⟩ := commit_pending.mp hk
    rcases hasPath_commit hfol with ⟨row, hp, rfl⟩ | ⟨_, hher⟩
    · exact absurd hk ((h.inserted fold i row hp).2 k)
    · exact mine_commit.mpr ⟨h.deleted id k hk fold hher, hne⟩
  · intro fold j row c hp hc
    obtain ⟨hp, hj⟩ := commit_pending.mp hp
    cases hc₀ : (w.contents row.content_id).committed with
    | some c₀ =>
      obtain ⟨source, hs, hsou⟩ := h.aliased fold j row c₀ hp hc₀
      exact ⟨source, hcov hj hs, hasPath_commit_of_kept (hkep hj hs) hsou⟩
    | none =>
      -- Only its creator sees a content that is not committed.
      rcases seen_eq_some (commit_committed.symm.trans hc) with hmin | ⟨_, hc⟩
      · have hnot : ¬ (w.contents row.content_id).Mine j := fun hm => hj (hm.unique ⟨_, hmin⟩)
        exact absurd ((seen_of_not_mine hnot).trans hc₀) (h.inserted fold j row hp).1
      · exact absurd (hc₀.symm.trans hc) (by simp)
  · intro id j c c' hp hc hne
    obtain ⟨hp, hj⟩ := commit_pending.mp hp
    have hnot : ¬ (w.contents id).Mine i := fun hm => hj ((hm.unique ⟨_, hp⟩).symm)
    replace hc := (seen_of_not_mine hnot).symm.trans (commit_committed.symm.trans hc)
    obtain ⟨⟨fold, hfol, hher, honly⟩, hnone⟩ := h.reclassified id j c c' hp hc hne
    refine ⟨⟨fold, hcov hj hfol, hasPath_commit_of_kept (hkep hj hfol) hher, ?_⟩,
      fun g hm => hnone g (mine_commit.mp hm).1⟩
    intro g hg
    rcases hasPath_commit hg with ⟨row, hins, rfl⟩ | ⟨_, hg⟩
    · obtain ⟨source, hs, hsou⟩ := h.aliased g i row c hins hc
      rw [honly source hsou] at hs
      exact absurd (h.compatible.covers_unique hfol hs) hj
    · exact honly g hg

end

end Shared

end SovereignConfig.Values
