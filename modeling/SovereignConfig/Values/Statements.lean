/-
The statements of an open transaction, among others, one rule each. A `Fact` is about committed
rows and the transaction's own locks; the rest is where it has got to.
-/
import SovereignConfig.Values.Reliance

namespace SovereignConfig.Values

open Lib Text List Function

variable {ι : Type} [DecidableEq ι]

namespace Shared

structure Keeps (replaces : ι → Prop) (i : ι) (w w' : Shared ι) : Prop where
  consistent : w'.Consistent
  others : ∀ j, j ≠ i → SameFor j w w'
  quiet : Quiet w w'
  locks : ∀ r ∈ w.path_locks i, r ∈ w'.path_locks i
  spares : replaces i → Spares i w w'

variable {replaces : ι → Prop} {i : ι} {w w' : Shared ι}

theorem Keeps.allowed (h : Keeps replaces i w w') (q : Request) (a : q.Answer) :
    Allowed replaces w (.asked i q a) w' := ⟨h.others, Or.inl h.quiet, h.spares⟩

theorem Keeps.refl (h : w.Consistent) : Keeps replaces i w w where
  consistent := h
  others := fun j _ => .refl j w
  quiet := .refl w
  locks := fun _ hr => hr
  spares := fun _ => ⟨fun _ _ _ _ _ hne => absurd rfl hne, fun _ _ _ _ _ hne => absurd rfl hne⟩

theorem Keeps.of_same_tables (hcons : w'.Consistent) (hpat : w'.paths = w.paths)
    (hcon : w'.contents = w.contents) (hnex : w.next_content_id ≤ w'.next_content_id)
    (haud : w'.audit = w.audit)
    (hoth : ∀ j, j ≠ i → w'.opened j = w.opened j ∧ w'.path_locks j = w.path_locks j ∧
      w'.content_locks j = w.content_locks j ∧ w'.recorded j = w.recorded j)
    (hloc : ∀ r ∈ w.path_locks i, r ∈ w'.path_locks i) : Keeps replaces i w w' where
  consistent := hcons
  others := fun j hj =>
    ⟨(hoth j hj).1, (hoth j hj).2.1, (hoth j hj).2.2.1, (hoth j hj).2.2.2,
      by simp [hpat], by simp [hcon]⟩
  quiet := ⟨hnex, by simp [hpat], by simp [hcon], haud⟩
  locks := hloc
  spares := fun _ =>
    ⟨fun _ _ _ _ _ hne => absurd (by rw [hcon]) hne,
      fun _ _ _ _ _ hne => absurd (by rw [hpat]) hne⟩

theorem Keeps.of_paths {paths' : Text → Cell ι PathRow}
    (hcon : Consistent { w with paths := paths' }) (hcel : Rewrites i w.paths paths')
    (hpla : replaces i → ∀ fold row c, (w.paths fold).committed = some row →
      paths' fold ≠ w.paths fold → paths' fold = (w.paths fold).write i none →
      (w.contents row.content_id).committed = some c → c.classification = .PLAIN) :
    Keeps replaces i w { w with paths := paths' } where
  consistent := hcon
  others := fun j hj => ⟨rfl, rfl, rfl, rfl, fun fold v => hcel.pending_other fold hj v,
    fun _ _ => Iff.rfl⟩
  quiet := ⟨le_rfl, fun fold => hcel.committed fold, fun _ => rfl, rfl⟩
  locks := fun _ hr => hr
  spares := by
    refine fun hrep => ⟨fun _ _ _ _ _ hne => absurd rfl hne, ?_⟩
    intro fold row c hrow hp hne hc
    rcases hcel.pending hp with hold | ⟨_, hnew, heq⟩
    · exact absurd (hp.trans hold.symm) hne
    · exact hpla hrep fold row c hrow hnew heq hc

theorem Keeps.of_contents {contents' : ℕ → Cell ι ContentRow}
    (hcon : Consistent { w with contents := contents' })
    (hcel : Rewrites i w.contents contents')
    (hpla : replaces i → ∀ id c c', (w.contents id).committed = some c →
      contents' id ≠ w.contents id → contents' id = (w.contents id).write i (some c') →
      c.classification = .PLAIN) :
    Keeps replaces i w { w with contents := contents' } where
  consistent := hcon
  others := fun j hj => ⟨rfl, rfl, rfl, rfl, fun _ _ => Iff.rfl,
    fun id v => hcel.pending_other id hj v⟩
  quiet := ⟨le_rfl, fun _ => rfl, fun id => hcel.committed id, rfl⟩
  locks := fun _ hr => hr
  spares := by
    refine fun hrep => ⟨?_, fun _ _ _ _ _ hne => absurd rfl hne⟩
    intro id c c' hc hp hne
    rcases hcel.pending hp with hold | ⟨_, hnew, heq⟩
    · exact absurd (hp.trans hold.symm) hne
    · exact hpla hrep id c c' hc hnew heq

omit [DecidableEq ι] in
theorem Rewrites.update {κ ρ : Type} [DecidableEq κ] {cells : κ → Cell ι ρ} {key : κ}
    (hfre : (cells key).Free i) (v : Option ρ) :
    Rewrites i cells (update cells key ((cells key).write i v)) := by
  intro k
  by_cases hk : k = key
  · subst hk
    exact Or.inr ⟨hfre, v, by simp⟩
  · exact Or.inl (update_of_ne hk _ _)

/-! ## Facts -/

structure Fact (i : ι) (E : Shared ι → Prop) : Prop where
  lasting : Lasting i E
  own : ∀ w w', Quiet w w' → (∀ r ∈ w.path_locks i, r ∈ w'.path_locks i) → E w → E w'

variable {E F T : Shared ι → Prop} {q : Request}

theorem Fact.and {E' : Shared ι → Prop} (h : Fact i E) (h' : Fact i E') :
    Fact i fun w => E w ∧ E' w :=
  ⟨h.lasting.and h'.lasting, fun w w' hq hl hw => ⟨h.own w w' hq hl hw.1, h'.own w w' hq hl hw.2⟩⟩

theorem Fact.exists {κ : Sort*} {E : κ → Shared ι → Prop} (h : ∀ k, Fact i (E k)) :
    Fact i fun w => ∃ k, E k w :=
  ⟨fun w w' hc hc' henv ⟨k, hw⟩ => ⟨k, (h k).lasting w w' hc hc' henv hw⟩,
    fun w w' hq hl ⟨k, hw⟩ => ⟨k, (h k).own w w' hq hl hw⟩⟩

theorem Fact.forall {κ : Sort*} {E : κ → Shared ι → Prop} (h : ∀ k, Fact i (E k)) :
    Fact i fun w => ∀ k, E k w :=
  ⟨fun w w' hc hc' henv hw k => (h k).lasting w w' hc hc' henv (hw k),
    fun w w' hq hl hw k => (h k).own w w' hq hl (hw k)⟩

theorem fact_of {P : Prop} : Fact i fun _ => P := ⟨fun _ _ _ _ _ h => h, fun _ _ _ _ h => h⟩

theorem fact_holds (p : ConfigPath) : Fact i fun w => w.Holds i p := by
  constructor
  · intro w w' _ _ henv h r hr
    rw [henv.same.path_locks]
    exact h r hr
  · intro w w' _ hloc h r hr
    exact hloc r (h r hr)

theorem fact_next (id : ℕ) : Fact i fun w => id < w.next_content_id :=
  ⟨fun _ _ _ _ henv h => lt_of_lt_of_le h henv.next,
    fun _ _ hqui _ h => lt_of_lt_of_le h hqui.next⟩

theorem fact_covered (fold : Text) (id : ℕ) : Fact i fun w => w.Covers i fold ∧ w.HasPath fold id := by
  constructor
  · rintro w w' _ _ henv ⟨hcov, hher⟩
    refine ⟨hcov.mono fun r hr => henv.same.path_locks ▸ hr, ?_⟩
    simpa only [HasPath, henv.path_same fold hcov] using hher
  · rintro w w' hqui hloc ⟨hcov, hher⟩
    exact ⟨hcov.mono hloc, (hqui.hasPath fold id).mpr hher⟩

def Classified (w : Shared ι) (i : ι) (fold : Text) (id : ℕ) (cls : Classification) : Prop :=
  (w.Covers i fold ∧ w.HasPath fold id) ∧
    ∃ c, (w.contents id).committed = some c ∧ c.classification = cls

theorem fact_classified (fold : Text) (id : ℕ) (cls : Classification) :
    Fact i fun w => w.Classified i fold id cls := by
  constructor
  · rintro w w' h h' henv ⟨hpat, c, hc, rfl⟩
    exact ⟨(fact_covered fold id).lasting w w' h h' henv hpat,
      henv.class_same fold id c hpat.1 hpat.2 hc⟩
  · rintro w w' hqui hloc ⟨hpat, c, hc, rfl⟩
    exact ⟨(fact_covered fold id).own w w' hqui hloc hpat, c, (hqui.contents id).trans hc, rfl⟩

theorem fact_sole (fold : Text) (id : ℕ) :
    Fact i fun w => (w.Covers i fold ∧ w.HasPath fold id) ∧ w.Sole fold id := by
  constructor
  · rintro w w' h h' henv ⟨hpat, hsol⟩
    exact ⟨(fact_covered fold id).lasting w w' h h' henv hpat,
      henv.sole fold id hpat.1 hpat.2 hsol⟩
  · rintro w w' hqui hloc ⟨hpat, hsol⟩
    exact ⟨(fact_covered fold id).own w w' hqui hloc hpat,
      fun other hoth => hsol other ((hqui.hasPath other id).mp hoth)⟩

def SecretsAmong (w : Shared ι) (i : ι) (root : ConfigPath) (folds : List Text) : Prop :=
  w.Holds i root ∧ ∀ fold id c, root.segs <+: segments fold → w.HasPath fold id →
    (w.contents id).committed = some c → c.classification = .SECRET → fold ∈ folds

theorem fact_secrets (root : ConfigPath) (folds : List Text) :
    Fact i fun w => w.SecretsAmong i root folds := by
  constructor
  · rintro w w' h h' henv ⟨hhol, hamo⟩
    refine ⟨(fact_holds root).lasting w w' h h' henv hhol, ?_⟩
    intro fold id c' hbel hher' hc' hsec
    have hcov : w.Covers i fold := ⟨root, hhol, hbel⟩
    have hher : w.HasPath fold id := by
      simpa only [HasPath, henv.path_same fold hcov] using hher'
    obtain ⟨row, hrow, rfl⟩ := hher
    obtain ⟨c, hc⟩ := h.referenced fold row hrow
    obtain ⟨c'', hc'', hcla⟩ := henv.class_same fold _ c hcov ⟨row, hrow, rfl⟩ hc
    obtain rfl : c'' = c' := Option.some.inj (hc''.symm.trans hc')
    exact hamo fold _ c hbel ⟨row, hrow, rfl⟩ hc (hcla ▸ hsec)
  · rintro w w' hqui hloc ⟨hhol, hamo⟩
    refine ⟨(fact_holds root).own w w' hqui hloc hhol, ?_⟩
    intro fold id c hbel hher hc
    exact hamo fold id c hbel ((hqui.hasPath fold id).mp hher) ((hqui.contents id).symm.trans hc)

/-! ## Where a transaction has got to -/

/-- The transaction has written nothing that is still pending. -/
def Clean (w : Shared ι) (i : ι) : Prop :=
  (∀ fold, ¬ (w.paths fold).Mine i) ∧ ∀ id, ¬ (w.contents id).Mine i

def OnlyDeletes (w : Shared ι) (i : ι) : Prop :=
  ∀ fold row, (w.paths fold).pending ≠ some (i, some row)

structure Cleared (w : Shared ι) (i : ι) (ids : List ℕ) : Prop where
  only : w.OnlyDeletes i
  contents : ∀ id, ¬ (w.contents id).Mine i
  owes : w.Owes i [] ids

structure Pruned (w : Shared ι) (i : ι) : Prop where
  only : w.OnlyDeletes i
  contents : ∀ id c, (w.contents id).pending ≠ some (i, some c)
  owes : w.Owes i [] []

structure Updating (w : Shared ι) (i : ι) : Prop where
  only : w.OnlyDeletes i
  faithful : w.Faithful i
  owes : w.Owes i [] []

structure Creating (w : Shared ι) (i : ι) : Prop where
  faithful : w.Faithful i
  owes : w.Owes i [] []

structure Created (w : Shared ι) (i : ι) (id : ℕ) : Prop where
  faithful : w.Faithful i
  owes : w.Owes i [id] []
  absent : (w.contents id).committed = none
  content : ∃ c, (w.contents id).pending = some (i, some c)

omit [DecidableEq ι] in
theorem Clean.faithful (h : w.Clean i) : w.Faithful i :=
  fun id _ _ _ hp => absurd ⟨_, hp⟩ (h.2 id)

omit [DecidableEq ι] in
theorem Clean.owes (h : w.Clean i) : w.Owes i [] [] :=
  ⟨fun id _ hp _ => absurd ⟨_, hp⟩ (h.2 id), fun fold _ _ hm => absurd hm (h.1 fold)⟩

omit [DecidableEq ι] in
theorem Clean.creating (h : w.Clean i) : w.Creating i := ⟨h.faithful, h.owes⟩

omit [DecidableEq ι] in
theorem Cleared.pruned (h : w.Cleared i []) : w.Pruned i :=
  ⟨h.only, fun id _ hp => h.contents id ⟨_, hp⟩, h.owes⟩

omit [DecidableEq ι] in
theorem Pruned.updating (h : w.Pruned i) : w.Updating i :=
  ⟨h.only, fun id _ c' _ hp => absurd hp (h.contents id c'), h.owes⟩

omit [DecidableEq ι] in
theorem Updating.creating (h : w.Updating i) : w.Creating i := ⟨h.faithful, h.owes⟩

theorem lasting_own (h : ∀ w w', SameFor i w w' → F w → F w') :
    Lasting i F := fun w w' _ _ henv hw => h w w' henv.same hw

theorem lasting_clean : Lasting i fun w => w.Clean i :=
  lasting_own fun _ _ hsam h =>
    ⟨fun fold hm => h.1 fold ((hsam.mine_path fold).mp hm),
      fun id hm => h.2 id ((hsam.mine_content id).mp hm)⟩

theorem lasting_unwritten (id : ℕ) : Lasting i fun w => ¬ (w.contents id).Mine i :=
  lasting_own fun _ _ hsam h hm => h ((hsam.mine_content id).mp hm)

theorem lasting_locking (locks left : List (LockRequest Text)) :
    Lasting i fun w => ∀ r ∈ locks, r ∈ left ∨ r ∈ w.path_locks i :=
  lasting_own fun w w' hsam h r hr => by
    rw [hsam.path_locks]
    exact h r hr

theorem lasting_only : Lasting i fun w => w.OnlyDeletes i :=
  lasting_own fun _ _ hsam h fold row hp => h fold row ((hsam.paths fold _).mp hp)

theorem lasting_faithful : Lasting i fun w => w.Faithful i := by
  intro w w' _ _ henv h id c c' hc hp
  replace hp := (henv.same.contents id _).mp hp
  exact h id c c' ((henv.mine_same id ⟨_, hp⟩).symm.trans hc) hp

theorem lasting_owes (new doomed : List ℕ) : Lasting i fun w => w.Owes i new doomed := by
  intro w w' hw _ henv h
  constructor
  · intro id c hp hnone
    replace hp := (henv.same.contents id _).mp hp
    refine (h.created id c hp ((henv.mine_same id ⟨_, hp⟩).symm.trans hnone)).imp_right ?_
    rintro ⟨fold, row, hrow, hid⟩
    exact ⟨fold, row, (henv.same.paths fold _).mpr hrow, hid⟩
  · intro fold row hrow hm
    replace hm := (henv.same.mine_path fold).mp hm
    replace hrow := (henv.path_same fold (hw.covered fold i hm)).symm.trans hrow
    rw [henv.same.content_locks, henv.same.contents]
    refine (h.removed fold row hrow hm).imp_right fun ⟨hloc, hres⟩ => ⟨hloc, ?_⟩
    refine hres.imp_right ?_
    rintro ⟨other, hoth, hnot⟩
    exact ⟨other, henv.locked_path other _ hloc hoth,
      fun hm => hnot ((henv.same.mine_path other).mp hm)⟩

theorem lasting_cleared (ids : List ℕ) : Lasting i fun w => w.Cleared i ids :=
  fun w w' hw hw' henv h => ⟨lasting_only w w' hw hw' henv h.only,
    fun id => lasting_unwritten id w w' hw hw' henv (h.contents id),
    lasting_owes [] ids w w' hw hw' henv h.owes⟩

theorem lasting_pruned : Lasting i fun w => w.Pruned i :=
  fun w w' hw hw' henv h => ⟨lasting_only w w' hw hw' henv h.only,
    fun id c hp => h.contents id c ((henv.same.contents id _).mp hp),
    lasting_owes [] [] w w' hw hw' henv h.owes⟩

theorem lasting_updating : Lasting i fun w => w.Updating i :=
  fun w w' hw hw' henv h => ⟨lasting_only w w' hw hw' henv h.only,
    lasting_faithful w w' hw hw' henv h.faithful, lasting_owes [] [] w w' hw hw' henv h.owes⟩

theorem lasting_creating : Lasting i fun w => w.Creating i :=
  fun w w' hw hw' henv h => ⟨lasting_faithful w w' hw hw' henv h.faithful,
    lasting_owes [] [] w w' hw hw' henv h.owes⟩

theorem lasting_created (id : ℕ) : Lasting i fun w => w.Created i id := by
  intro w w' hw hw' henv h
  obtain ⟨c, hc⟩ := h.content
  exact ⟨lasting_faithful w w' hw hw' henv h.faithful,
    lasting_owes [id] [] w w' hw hw' henv h.owes,
    (henv.mine_same id ⟨_, hc⟩).trans h.absent, c, (henv.same.contents id _).mpr hc⟩

/-! ## Rules -/

abbrev Safe (replaces : ι → Prop) (i : ι) {α : Type} (x : Service α) (P : Shared ι → Prop)
    (R : α → Shared ι → Prop) : Prop :=
  Guarded (system ι) (fun _ _ _ => True) (discipline replaces) i x P R

omit [DecidableEq ι] in
theorem guarded_query {W : Type} {S : System ι W Request Request.Answer}
    {cond : W → Label ι Request Request.Answer → W → Prop} {D : Discipline ι W Request Request.Answer}
    {P : W → Prop} {R : q.Row → W → Prop} (hsta : Stable D i P)
    (herr : ∀ e, Serves S cond D i P q (.error e) fun _ => True)
    (hrow : ∀ row, Serves S cond D i P q (.ok row) (R row)) : Guarded S cond D i (query q) P R := by
  refine ⟨P, fun _ _ hw => hw, hsta, fun a => ?_⟩
  cases a with
  | error e => exact ⟨fun _ => True, herr e, trivial⟩
  | ok row => exact ⟨R row, hrow row, fun _ _ hw => hw⟩

theorem serves_error (hcom : q ≠ .commit) (e : Status) (P : Shared ι → Prop) :
    Serves (system ι) (fun _ _ _ => True) (discipline replaces) i P q (.error e) fun _ => True := by
  rintro w w' hw _ (rfl | ⟨rfl, _⟩) _
  · exact ⟨hw, (Keeps.refl hw).allowed q (.error e), trivial⟩
  · exact absurd rfl hcom

theorem safe_statement {T' : q.Row → Shared ι → Prop} (hcom : q ≠ .commit)
    (hopen : ∀ w row w', Executes i q w row w' → w.opened i = true) (hE : Fact i E)
    (hT : Lasting i T)
    (h : ∀ w row w', w.Consistent → w.opened i = true → E w → T w → Executes i q w row w' →
      Keeps replaces i w w' ∧ T' row w') :
    Safe replaces i (query q) (Knows i fun w => E w ∧ T w)
      fun row => Knows i fun w => E w ∧ T' row w := by
  refine guarded_query (hE.lasting.and hT).stable (fun e => serves_error hcom e _) fun row => ?_
  intro w w' hw hkno hser _
  have hope := hopen w row w' hser
  obtain ⟨hEw, hTw⟩ := hkno hope
  obtain ⟨hkee, hT'⟩ := h w row w' hw hope hEw hTw hser
  exact ⟨hkee.consistent, hkee.allowed q (.ok row),
    fun _ => ⟨hE.own w w' hkee.quiet hkee.locks hEw, hT'⟩⟩

theorem safe_read (q : Request) (G : q.Row → Shared ι → Prop) (hcom : q ≠ .commit)
    (hrea : ∀ w row w', Executes i q w row w' → w.opened i = true ∧ w' = w) (hE : Fact i E)
    (hT : Lasting i T) (h : ∀ w row, w.Consistent → E w → T w → Executes i q w row w → G row w) :
    Safe replaces i (query q) (Knows i fun w => E w ∧ T w)
      fun row => Knows i fun w => (E w ∧ G row w) ∧ T w := by
  have hste : Safe replaces i (query q) (Knows i fun w => E w ∧ T w)
      fun row => Knows i fun w => E w ∧ G row w ∧ T w := by
    refine safe_statement hcom (fun w row w' hx => (hrea w row w' hx).1) hE hT ?_
    intro w row w' hw _ hEw hTw hx
    obtain rfl := (hrea w row w' hx).2
    exact ⟨.refl hw, h w' row hw hEw hTw hx, hTw⟩
  refine hste.conseq (fun _ _ hw => hw) fun row w _ hw hope => ?_
  obtain ⟨hEw, hG, hTw⟩ := hw hope
  exact ⟨⟨hEw, hG⟩, hTw⟩

theorem safe_silent (q : Request) (hcom : q ≠ .commit)
    (hsil : ∀ w row w', Executes i q w row w' → w' = w) (hF : Lasting i F) :
    Safe replaces i (query q) (Knows i F) fun _ => Knows i F := by
  refine guarded_query hF.stable (fun e => serves_error hcom e _) fun row => ?_
  intro w w' hw hkno hser _
  obtain rfl := hsil w row w' hser
  exact ⟨hw, (Keeps.refl hw).allowed q (.ok row), hkno⟩

theorem safe_begin :
    Safe replaces i store.begin (fun w => w.opened i = false) fun _ => Knows i fun w => w.Clean i := by
  refine guarded_query (stable_closed i) (fun e => serves_error (by simp) e _) fun row => ?_
  rintro w w' (hw : w.Consistent) hclo ⟨_, rfl⟩ _
  have hcons : Consistent { w with opened := update w.opened i true } := by
    refine hw.of_same_tables rfl rfl le_rfl (fun _ _ hr => hr) hw.compatible hw.content_locks ?_
    intro j hj
    refine ⟨?_, rfl, rfl⟩
    by_cases hji : j = i
    · subst hji
      simp at hj
    · simpa [update_of_ne hji] using hj
  have hkee : Keeps replaces i w { w with opened := update w.opened i true } :=
    .of_same_tables hcons rfl rfl le_rfl rfl
      (fun j hj => ⟨update_of_ne hj _ _, rfl, rfl, rfl⟩) fun _ hr => hr
  obtain ⟨_, _, hpat, hcon⟩ := hw.closed i hclo
  exact ⟨hcons, hkee.allowed .begin (.ok row), fun _ => ⟨hpat, hcon⟩⟩

theorem consistent_lock_path (hw : w.Consistent) (hope : w.opened i = true)
    {r : LockRequest Text} (hgra : ∀ j, j ≠ i → ∀ r' ∈ w.path_locks j, ¬ r'.Conflicts r) :
    Consistent { w with path_locks := update w.path_locks i (r :: w.path_locks i) } := by
  refine hw.of_same_tables rfl rfl le_rfl ?_ ?_ hw.content_locks ?_
  · intro j r' hr'
    show r' ∈ update w.path_locks i (r :: w.path_locks i) j
    by_cases hj : j = i
    · subst hj
      rw [update_self]
      exact mem_cons_of_mem r hr'
    · rwa [update_of_ne hj]
  · exact granted hw.compatible hgra fun j hj r' hr' hc => hgra j hj r' hr' ⟨hc.1.symm, hc.2.symm⟩
  · intro j hj
    refine ⟨hj, update_of_ne ?_ _ _, rfl⟩
    rintro rfl
    exact absurd hope (by simpa using hj)

theorem safe_lock_mutation_path (hE : Fact i E) (p : ConfigPath) :
    Safe replaces i (lock_mutation_path p) (Knows i fun w => E w ∧ w.Clean i)
      fun _ => Knows i fun w => (E w ∧ w.Holds i p) ∧ w.Clean i := by
  -- Each round moves a lock from those still to take to those held.
  let T : List (LockRequest Text) → Shared ι → Prop := fun l w =>
    (∀ r ∈ mutation_locks p, r ∈ l ∨ r ∈ w.path_locks i) ∧ w.Clean i
  have hT : ∀ l, Lasting i (T l) := fun l => (lasting_locking (mutation_locks p) l).and lasting_clean
  have hrou : ∀ (lock : LockRequest Text) (l : List (LockRequest Text)),
      Safe replaces i (store.lock_path lock.key lock.exclusive)
        (Knows i fun w => E w ∧ T (lock :: l) w) fun _ => Knows i fun w => E w ∧ T l w := by
    intro lock l
    refine safe_statement (by simp) (fun _ _ _ hx => hx.1) hE (hT _) ?_
    rintro w row w' hw hope _ ⟨hloc, hcle⟩ ⟨_, hgra, rfl⟩
    refine ⟨Keeps.of_same_tables (consistent_lock_path hw hope hgra) rfl rfl le_rfl
      rfl (fun j hj => ⟨rfl, update_of_ne hj _ _, rfl, rfl⟩) fun r hr => ?_, ?_, hcle⟩
    · simp [hr]
    · intro r hr
      show r ∈ l ∨ r ∈ update w.path_locks i (lock :: w.path_locks i) i
      rw [update_self, mem_cons]
      rcases hloc r hr with hl | hhel
      · rcases mem_cons.mp hl with rfl | hl
        · exact Or.inr (Or.inl rfl)
        · exact Or.inl hl
      · exact Or.inr (Or.inr hhel)
  refine (Guarded.forM (I := fun l => Knows i fun w => E w ∧ T l w) (mutation_locks p)
    fun lock _ => hrou lock).conseq ?_ ?_
  · intro w _ hw hope
    exact ⟨(hw hope).1, fun r hr => Or.inl hr, (hw hope).2⟩
  · intro _ w _ hw hope
    obtain ⟨hEw, hhel, hcle⟩ := hw hope
    exact ⟨⟨hEw, fun r hr => (hhel r hr).resolve_left not_mem_nil⟩, hcle⟩

theorem safe_record_in (actor : Actor) (time : OffsetDateTime) (events : List AuditEvent) :
    Safe replaces i (record_in actor time events) (Knows i fun w => w.Owes i [] [])
      fun _ => Knows i fun w => w.Owes i [] [] := by
  have hste : Safe replaces i (record_in actor time events)
      (Knows i fun w => True ∧ w.Owes i [] []) fun _ => Knows i fun w => True ∧ w.Owes i [] [] := by
    refine safe_statement (by simp) (fun _ _ _ hx => hx.1) fact_of (lasting_owes [] []) ?_
    rintro w row w' hw _ _ howe ⟨_, rfl⟩
    refine ⟨Keeps.of_same_tables ?_ rfl rfl le_rfl rfl
      (fun j hj => ⟨rfl, rfl, rfl, update_of_ne hj _ _⟩) fun _ hr => hr,
      howe.created, howe.removed⟩
    exact hw.of_same_tables rfl rfl le_rfl (fun _ _ hr => hr) hw.compatible hw.content_locks
      fun _ hj => ⟨hj, rfl, rfl⟩
  exact hste.conseq (fun _ _ hw hope => ⟨trivial, hw hope⟩) fun _ _ _ hw hope => (hw hope).2

theorem sameFor_commit {j : ι} (h : j ≠ i) (w : Shared ι) : SameFor j w (w.commit i) where
  opened := update_of_ne h _ _
  path_locks := update_of_ne h _ _
  content_locks := update_of_ne h _ _
  recorded := update_of_ne h _ _
  paths := fun _ _ => Cell.commit_pending.trans (and_iff_left h)
  contents := fun _ _ => Cell.commit_pending.trans (and_iff_left h)

theorem safe_commit :
    Safe replaces i store.commit (Knows i fun w => w.Owes i [] []) fun _ _ => True := by
  refine ⟨_, fun _ _ hw => hw, (lasting_owes [] []).stable, fun a => ⟨fun _ => True, ?_, ?_⟩⟩
  · intro w w' (hw : w.Consistent) howe hser _
    have hcom : w.opened i = true → w' = w.commit i →
        w'.Consistent ∧ Allowed replaces w (.asked i .commit a) w' := by
      rintro hope rfl
      refine ⟨hw.commit (howe hope), fun j hj => sameFor_commit hj w,
        Or.inr ⟨rfl, howe hope⟩, fun _ => ⟨?_, ?_⟩⟩
      · intro id c c' _ hp _
        exact absurd rfl (Cell.commit_pending.mp hp).2
      · intro fold row c _ hp _ _
        exact absurd rfl (Cell.commit_pending.mp hp).2
    suffices w'.Consistent ∧ Allowed replaces w (.asked i .commit a) w' from ⟨this.1, this.2, trivial⟩
    cases a with
    | ok row => exact hcom hser.1 hser.2
    | error e =>
      rcases hser with rfl | ⟨_, hope, heq⟩
      · exact ⟨hw, (Keeps.refl hw).allowed .commit (.error e)⟩
      · exact hcom hope heq
  · cases a with
    | ok row => exact fun _ _ _ => trivial
    | error e => trivial

end Shared

end SovereignConfig.Values
