/-
Whether the trail says what was overwritten. Two puts through different paths of one content share
no lock. A history variable remembers which content each open transaction has read.
-/
import SovereignConfig.Values.Interleaved

namespace SovereignConfig.Values

open Lib Text List Cell

variable {ι : Type} [DecidableEq ι]

def ContentRow.recorded (c : ContentRow) : Option Text := (Recorded.of c.classification c.value).plain

/-- Each event names as the old value the one the event before it wrote, the first of them
`value`. -/
def Chained (value : Option Text) : List AuditEvent → Prop
  | [] => True
  | event :: events => event.old_value = value ∧ Chained event.new_value events

instance Chained.decidable (value : Option Text) : ∀ events, Decidable (Chained value events)
  | [] => isTrue trivial
  | event :: events =>
    have := Chained.decidable event.new_value events
    inferInstanceAs (Decidable (event.old_value = value ∧ Chained event.new_value events))

namespace Shared

/-- The events of a kind about the paths of a content, in the order they were recorded. -/
def filed (w : Shared ι) (kind : EventKind) (id : ℕ) : List AuditEvent :=
  (w.audit.map AuditRow.event).filter fun event => event.kind == kind &&
    (w.paths (to_ascii_lowercase event.path)).committed.map PathRow.content_id == some id

/-- The value before the first recorded update. -/
def initial_value (t : Tables) (w : Shared ι) (id : ℕ) : Option Text :=
  match t.content_row id with
  | some content => content.recorded
  | none => (w.filed .ValueCreated id).head?.bind AuditEvent.new_value

end Shared

def plain_puts (puts : ι → Text × Text) (i : ι) : Mutation :=
  .put_value (puts i).1 (some (.Plain (puts i).2))

/-- No `put_value` reads a content while another call holds the lock of a different path of it. -/
def ReadsAlone (w : Shared ι) (l : Label ι Request Request.Answer) (_ : Shared ι) : Prop :=
  ∀ i fold (row : PathContentClassRow), l = .asked i (.path_content_class fold) (.ok (some row)) →
    ∀ j, j ≠ i → ∀ other, w.HasPath other row.content_id → ⟨other, true⟩ ∉ w.path_locks j

def ChainTo (value : Option Text) : List AuditEvent → Option Text → Prop
  | [], last => value = last
  | event :: events, last => event.old_value = value ∧ ChainTo event.new_value events last

variable {events : List AuditEvent} {last value new : Option Text} {id : ℕ} {j : ι}
  {l : Label ι Request Request.Answer} {replaces : ι → Prop} {row : AuditRow}
  {a : Request.Answer .commit} {p : ConfigPath}

theorem ChainTo.chained (h : ChainTo value events last) : Chained value events := by
  induction events generalizing value with
  | nil => trivial
  | cons event events ih => exact ⟨h.1, ih h.2⟩

theorem ChainTo.concat (h : ChainTo value events last) {event : AuditEvent}
    (hold : event.old_value = last) : ChainTo value (events ++ [event]) event.new_value := by
  induction events generalizing value with
  | nil => exact ⟨hold.trans (Eq.symm h), rfl⟩
  | cons first events ih => exact ⟨h.1, ih h.2⟩

/-! ## What each transaction has read -/

def looked_up : Label ι Request Request.Answer → Option (ι × ℕ)
  | .asked i (.path_content_class _) (.ok (some (row : PathContentClassRow))) =>
      some (i, row.content_id)
  | _ => none

omit [DecidableEq ι] in
theorem looked_up_eq_some (h : looked_up l = some (j, id)) : ∃ fold, ∃ row : PathContentClassRow,
      l = .asked j (.path_content_class fold) (.ok (some row)) ∧ row.content_id = id := by
  unfold looked_up at h
  split at h
  · rename_i i fold row
    simp only [Option.some.injEq, Prod.mk.injEq] at h
    obtain ⟨rfl, hid⟩ := h
    exact ⟨fold, row, rfl, hid⟩
  · simp at h

def note_reads (_ : Shared ι) (l : Label ι Request Request.Answer) (w' : Shared ι)
    (reads : ι → Option ℕ) : ι → Option ℕ := fun i =>
  if w'.opened i = true then
    match looked_up l with
    | some (j, id) => if j = i then some id else reads i
    | none => reads i
  else none

abbrev Noted (ι : Type) := Shared ι × (ι → Option ℕ)

/-- The invariant: besides the store's own, only one transaction at a time has read a content, only
one that has read it overwrites it, and the trail is a chain from what each content was to what it
is. -/
structure Chaining (t : Tables) (u : Noted ι) : Prop where
  consistent : u.1.Consistent
  reading : ∀ j id, u.2 j = some id →
    u.1.opened j = true ∧ ∃ fold, ⟨fold, true⟩ ∈ u.1.path_locks j ∧ u.1.HasPath fold id
  alone : ∀ i j id, u.2 i = some id → u.2 j = some id → i = j
  writing : ∀ id j, (u.1.contents id).Mine j → (u.1.contents id).committed ≠ none → u.2 j = some id
  unrecorded : ∀ j, u.1.opened j = false → u.1.recorded j = []
  resolved : ∀ row ∈ u.1.audit, ∃ id, u.1.HasPath (to_ascii_lowercase row.event.path) id
  kept : ∀ id, t.content_row id ≠ none → (u.1.contents id).committed ≠ none
  created : ∀ id, t.content_row id = none → (u.1.contents id).committed ≠ none →
    u.1.filed .ValueCreated id ≠ []
  chain : ∀ id c, (u.1.contents id).committed = some c →
    ChainTo (u.1.initial_value t id) (u.1.filed .ValueUpdated id) c.recorded

omit [DecidableEq ι] in
theorem Shared.Quiet.filed {w w' : Shared ι} (h : Shared.Quiet w w') (kind : EventKind) (id : ℕ) :
    w'.filed kind id = w.filed kind id := by
  simp only [Shared.filed, h.audit, h.paths]

omit [DecidableEq ι] in
theorem Shared.Quiet.initial_value {w w' : Shared ι} (h : Shared.Quiet w w') (t : Tables) (id : ℕ) :
    w'.initial_value t id = w.initial_value t id := by
  simp only [Shared.initial_value, h.filed]

variable {t : Tables} {i : ι} {w w' : Shared ι} {r r' : ι → Option ℕ}

theorem Chaining.of_quiet (h : Chaining t (w, r)) (hcon : w'.Consistent) (hq : Shared.Quiet w w')
    (hrea : ∀ j id, r' j = some id → (w'.opened j = true ∧
      ∃ fold, ⟨fold, true⟩ ∈ w'.path_locks j ∧ w.HasPath fold id))
    (halo : ∀ i j id, r' i = some id → r' j = some id → i = j)
    (hwri : ∀ id j, (w'.contents id).Mine j → (w.contents id).committed ≠ none →
      r' j = some id)
    (hunr : ∀ j, w'.opened j = false → w'.recorded j = []) : Chaining t (w', r') where
  consistent := hcon
  reading := by
    intro j id hj
    obtain ⟨hope, fold, hloc, hher⟩ := hrea j id hj
    exact ⟨hope, fold, hloc, (hq.hasPath fold id).mpr hher⟩
  alone := halo
  writing := by
    intro id j hm hc
    rw [hq.contents] at hc
    exact hwri id j hm hc
  unrecorded := hunr
  resolved := by
    intro row hrow
    rw [hq.audit] at hrow
    obtain ⟨id, hid⟩ := h.resolved row hrow
    exact ⟨id, (hq.hasPath _ id).mpr hid⟩
  kept := by
    intro id hid
    rw [hq.contents]
    exact h.kept id hid
  created := by
    intro id hid hc
    rw [hq.contents] at hc
    rw [hq.filed]
    exact h.created id hid hc
  chain := by
    intro id c hc
    rw [hq.contents] at hc
    rw [hq.filed, hq.initial_value]
    exact h.chain id c hc

theorem Chaining.reads_none (h : Chaining t (w, r)) (hj : w.opened j = false) : r j = none := by
  by_contra hne
  obtain ⟨id, hid⟩ := Option.ne_none_iff_exists'.mp hne
  exact absurd (hj.symm.trans (h.reading j id hid).1) (by simp)

/-! ## The discipline of plain puts -/

def chain_discipline (t : Tables) (replaces : ι → Prop) :
    Discipline ι (Noted ι) Request Request.Answer where
  inv := Chaining t
  allowed u l u' := Shared.Allowed replaces u.1 l u'.1 ∧ u'.2 = note_reads u.1 l u'.1 u.2

theorem Chaining.abort (h : Chaining t (w, r)) (k : ι) :
    Chaining t (w.abort k, note_reads w .idled (w.abort k) r) := by
  have hopen : ∀ j, (w.abort k).opened j = true → j ≠ k ∧ w.opened j = true := by
    intro j hj
    by_cases hjk : j = k
    · subst hjk
      simp [Shared.abort] at hj
    · exact ⟨hjk, (Shared.sameFor_abort hjk w).opened ▸ hj⟩
  have hread : ∀ {j id}, note_reads w .idled (w.abort k) r j = some id → j ≠ k ∧ r j = some id := by
    intro j id hj
    simp only [note_reads, looked_up] at hj
    split at hj
    · rename_i hope
      exact ⟨(hopen j hope).1, hj⟩
    · simp at hj
  refine h.of_quiet (h.consistent.abort k) (Shared.quiet_abort k w) ?_ ?_ ?_ ?_
  · intro j id hj
    obtain ⟨hjk, hid⟩ := hread hj
    obtain ⟨hope, fold, hloc, hher⟩ := h.reading j id hid
    have hsam := Shared.sameFor_abort hjk w
    exact ⟨hsam.opened.trans hope, fold, hsam.path_locks ▸ hloc, hher⟩
  · intro i j id hi hj
    exact h.alone i j id (hread hi).2 (hread hj).2
  · intro id j hm hc
    obtain ⟨hm, hjk⟩ := mine_abort.mp hm
    have hid := h.writing id j hm hc
    have hope := (h.reading j id hid).1
    have hope' : (w.abort k).opened j = true := (Shared.sameFor_abort hjk w).opened.trans hope
    simp only [note_reads, looked_up, if_pos hope']
    exact hid
  · intro j hj
    by_cases hjk : j = k
    · subst hjk
      simp [Shared.abort]
    · have hsam := Shared.sameFor_abort hjk w
      exact hsam.recorded.trans (h.unrecorded j (hsam.opened ▸ hj))

theorem note_reads_silent (h : Chaining t (w, r)) (hl : looked_up l = none)
    (hope : ∀ j, w.opened j = true → w'.opened j = true) : note_reads w l w' r = r := by
  funext j
  simp only [note_reads, hl]
  by_cases hj : w.opened j = true
  · rw [if_pos (hope j hj)]
  · rw [h.reads_none (by simpa using hj)]
    simp

theorem chain_discipline_sound (t : Tables) (replaces : ι → Prop) :
    (chain_discipline t replaces).Sound ((Shared.system ι).remember note_reads) where
  crash := by
    rintro i ⟨w, r⟩ ⟨w', r'⟩ hinv ⟨hw, hr⟩
    obtain rfl : w' = w := hw
    obtain rfl : r' = note_reads w' (.crashed i) w' r := hr
    refine ⟨?_, rfl, rfl⟩
    rw [note_reads_silent hinv rfl fun _ hj => hj]
    exact hinv
  idle := by
    rintro ⟨w, r⟩ ⟨w', r'⟩ hinv ⟨⟨k, hw⟩, hr⟩
    obtain rfl : w' = w.abort k := hw
    obtain rfl : r' = note_reads w .idled (w.abort k) r := hr
    exact ⟨hinv.abort k, ⟨k, rfl⟩, rfl⟩

structure ChainEnv (i : ι) (u u' : Noted ι) : Prop where
  env : Shared.Env i u.1 u'.1
  reads : u'.2 i = u.2 i
  value : ∀ id, u.2 i = some id → (u'.1.contents id).committed = (u.1.contents id).committed

theorem ChainEnv.of_allowed {u u' : Noted ι} (h : Chaining t u) (hfor : l.Foreign i)
    (hall : (chain_discipline t replaces).allowed u l u') (hope : u'.1.opened i = true) :
    ChainEnv i u u' := by
  obtain ⟨hste, hnot⟩ := hall
  refine ⟨.of_allowed h.consistent hfor hste hope, ?_, fun id hid => ?_⟩
  · rw [hnot]
    simp only [note_reads, if_pos hope]
    split
    · rename_i j id hl
      obtain ⟨fold, row, rfl, _⟩ := looked_up_eq_some hl
      exact if_neg hfor
    · rfl
  · cases l with
    | crashed k =>
      rw [show u'.1 = u.1 from hste]
    | idled =>
      obtain ⟨k, hk⟩ := hste
      rw [hk]
      exact abort_committed
    | asked j q a =>
      rcases hste.2.1 with hqui | ⟨hcom, _⟩
      · exact hqui.contents id
      · -- Whoever has overwritten the content has read it, and only one transaction has.
        rw [hcom]
        refine commit_committed.trans (seen_of_not_mine fun hm => ?_)
        obtain ⟨_, fold, _, row, hrow, hrid⟩ := h.reading i id hid
        obtain ⟨c, hc⟩ := h.consistent.referenced fold row hrow
        have hj := h.writing id j hm (by rw [← hrid, hc]; simp)
        exact hfor (h.alone j i id hj hid)

/-- The transaction has overwritten one content and no other, and recorded `rows`. -/
structure WroteOnly (i : ι) (id : ℕ) (new : Option Text) (rows : List AuditRow) (u : Noted ι) :
    Prop where
  only : ∀ key, (u.1.contents key).Mine i → key = id
  after : ∃ c, (u.1.contents id).pending = some (i, some c) ∧ c.recorded = new
  recorded : u.1.recorded i = rows

structure PutOver (i : ι) (p : ConfigPath) (id : ℕ) (old new : Option Text)
    (rows : List AuditRow) (u : Noted ι) : Prop extends WroteOnly i id new rows u where
  holds : u.1.Holds i p
  path : u.1.HasPath p.fold id
  paths : ∀ fold, ¬ (u.1.paths fold).Mine i
  reads : u.2 i = some id
  before : ∃ c, (u.1.contents id).committed = some c ∧ c.recorded = old

structure PutContentOnly (i : ι) (p : ConfigPath) (id : ℕ) (new : Option Text) (u : Noted ι) :
    Prop extends WroteOnly i id new [] u where
  holds : u.1.Holds i p
  paths : ∀ fold, ¬ (u.1.paths fold).Mine i
  absent : (u.1.contents id).committed = none

structure PutNew (i : ι) (p : ConfigPath) (id : ℕ) (new : Option Text) (rows : List AuditRow)
    (u : Noted ι) : Prop extends WroteOnly i id new rows u where
  path : ∃ row, (u.1.paths p.fold).pending = some (i, some row) ∧ row.content_id = id
  unpathed : (u.1.paths p.fold).committed = none
  paths : ∀ fold, (u.1.paths fold).Mine i → fold = p.fold
  absent : (u.1.contents id).committed = none

section WroteOnly

variable {rows : List AuditRow} (h : WroteOnly i id new rows (w, r))
include h

theorem WroteOnly.commit_other {key : ℕ} (hne : key ≠ id) :
    ((w.commit i).contents key).committed = (w.contents key).committed :=
  commit_committed.trans (seen_of_not_mine fun hm => hne (h.only key hm))

omit [DecidableEq ι] in
theorem WroteOnly.not_deleted (key : ℕ) : (w.contents key).pending ≠ some (i, none) := by
  intro hp
  obtain ⟨c, hc, -⟩ := h.after
  obtain rfl := h.only key ⟨_, hp⟩
  exact absurd (hc.symm.trans hp) (by simp)

theorem WroteOnly.commit_own :
    ∃ c, ((w.commit i).contents id).committed = some c ∧ c.recorded = new := by
  obtain ⟨c, hc, hnew⟩ := h.after
  exact ⟨c, commit_committed.trans (seen_of_pending hc), hnew⟩

end WroteOnly

/-- The trail after a commit of one event filed on a path of the content `id`, when no committed
path has been written: one event more, of its kind and on that content. -/
theorem filed_commit (h : Chaining t (w, r))
    (hkee : ∀ fold id, w.HasPath fold id → ¬ (w.paths fold).Mine i) (hrow : w.recorded i = [row])
    (hsee : ((w.paths (to_ascii_lowercase row.event.path)).seen i).map PathRow.content_id =
      some id) (kind : EventKind) (key : ℕ) :
    (w.commit i).filed kind key =
      w.filed kind key ++ if kind = row.event.kind ∧ key = id then [row.event] else [] := by
  have hpat : ∀ fold, ((w.commit i).paths fold).committed = (w.paths fold).seen i :=
    fun _ => commit_committed
  have haud : (w.commit i).audit = w.audit ++ [row] := by rw [← hrow]; rfl
  simp only [Shared.filed, haud, hpat, map_append, map_cons, map_nil,
    filter_append]
  congr 1
  · refine filter_congr fun event heve => ?_
    obtain ⟨row', hrow', rfl⟩ := mem_map.mp heve
    obtain ⟨id', hid'⟩ := h.resolved row' hrow'
    rw [seen_of_not_mine (hkee _ _ hid')]
  · by_cases hher : kind = row.event.kind ∧ key = id
    · simp [hsee, hher]
    · rw [if_neg hher, filter_eq_nil_iff]
      simp only [mem_singleton, forall_eq, hsee, Bool.and_eq_true, beq_iff_eq,
        Option.some.injEq]
      rintro ⟨hkin, hkey⟩
      exact hher ⟨hkin.symm, hkey.symm⟩

/-- What a commit of a `put_value` keeps, apart from the trail: it has written no committed path,
and deleted no content. -/
theorem Chaining.commit_of (h : Chaining t (w, r)) (hcon : (w.commit i).Consistent)
    (hkee : ∀ fold id, w.HasPath fold id → ¬ (w.paths fold).Mine i)
    (hsom : ∀ id, (w.contents id).pending ≠ some (i, none))
    (hres : ∀ row ∈ w.recorded i, ∃ id,
      (w.commit i).HasPath (to_ascii_lowercase row.event.path) id)
    (hcre : ∀ id, t.content_row id = none → ((w.commit i).contents id).committed ≠ none →
      (w.commit i).filed .ValueCreated id ≠ [])
    (hcha : ∀ id c, ((w.commit i).contents id).committed = some c →
      ChainTo ((w.commit i).initial_value t id) ((w.commit i).filed .ValueUpdated id) c.recorded)
    :
    Chaining t (w.commit i, note_reads w (.asked i .commit a) (w.commit i) r) := by
  have hread : ∀ {j id}, note_reads w (.asked i .commit a) (w.commit i) r j = some id →
      j ≠ i ∧ r j = some id := by
    intro j id hj
    have hloo : looked_up (.asked i .commit a : Label ι Request Request.Answer) = none := rfl
    simp only [note_reads, hloo] at hj
    split at hj
    · rename_i hope
      refine ⟨?_, hj⟩
      rintro rfl
      simp [Shared.commit] at hope
    · simp at hj
  constructor
  · exact hcon
  · intro j id hj
    obtain ⟨hji, hid⟩ := hread hj
    obtain ⟨hope, fold, hloc, hher⟩ := h.reading j id hid
    have hsam := Shared.sameFor_commit hji w
    exact ⟨hsam.opened.trans hope, fold, hsam.path_locks ▸ hloc,
      Shared.hasPath_commit_of_kept (hkee fold id hher) hher⟩
  · intro j k id hj hk
    exact h.alone j k id (hread hj).2 (hread hk).2
  · intro id j hm hc
    obtain ⟨hm, hji⟩ := mine_commit.mp hm
    have hnot : ¬ (w.contents id).Mine i := fun hmi => hji (hm.unique hmi)
    have hid := h.writing id j hm
      fun hnone => hc ((commit_committed.trans (seen_of_not_mine hnot)).trans hnone)
    have hope : (w.commit i).opened j = true :=
      (Shared.sameFor_commit hji w).opened.trans (h.reading j id hid).1
    have hloo : looked_up (.asked i .commit a : Label ι Request Request.Answer) = none := rfl
    simp only [note_reads, hloo, if_pos hope]
    exact hid
  · intro j hj
    by_cases hji : j = i
    · subst hji
      simp [Shared.commit]
    · have hsam := Shared.sameFor_commit hji w
      exact hsam.recorded.trans (h.unrecorded j (hsam.opened ▸ hj))
  · intro row hrow
    rcases mem_append.mp hrow with hrow | hrow
    · obtain ⟨id, hid⟩ := h.resolved row hrow
      exact ⟨id, Shared.hasPath_commit_of_kept (hkee _ id hid) hid⟩
    · exact hres row hrow
  · intro id hid hnone
    replace hnone := commit_committed.symm.trans hnone
    rcases seen_cases i (w.contents id) with hp | ⟨_, heq⟩
    · rw [hnone] at hp
      exact hsom id hp
    · exact h.kept id hid (heq.symm.trans hnone)
  · exact hcre
  · exact hcha

theorem PutOver.commit {old : Option Text} (h : Chaining t (w, r))
    (hput : PutOver i p id old new [row] (w, r)) (hcon : (w.commit i).Consistent)
    (hkin : row.event.kind = .ValueUpdated) (hpat : to_ascii_lowercase row.event.path = p.fold)
    (hold : row.event.old_value = old) (hnew : row.event.new_value = new) :
    Chaining t (w.commit i, note_reads w (.asked i .commit a) (w.commit i) r) := by
  obtain ⟨c, hc, hcol⟩ := hput.before
  obtain ⟨c', hc', hcne⟩ := hput.commit_own
  obtain ⟨prow, hpro, hpid⟩ := hput.path
  have hkee : ∀ fold key, w.HasPath fold key → ¬ (w.paths fold).Mine i :=
    fun fold _ _ => hput.paths fold
  have hsee : ((w.paths (to_ascii_lowercase row.event.path)).seen i).map PathRow.content_id =
      some id := by
    rw [hpat, seen_of_not_mine (hput.paths _)]
    exact Option.map_eq_some_iff.mpr ⟨prow, hpro, hpid⟩
  -- Only the updates of this content have one more event.
  have hfil := filed_commit h hkee hput.recorded hsee
  rw [hkin] at hfil
  have hcre : ∀ key, (w.commit i).filed .ValueCreated key = w.filed .ValueCreated key := by
    intro key
    rw [hfil, if_neg (by simp), append_nil]
  have hini : ∀ key, (w.commit i).initial_value t key = w.initial_value t key := by
    intro key
    simp only [Shared.initial_value, hcre]
  refine h.commit_of hcon hkee hput.not_deleted ?_ ?_ ?_
  · intro row' hrow'
    rw [hput.recorded, mem_singleton] at hrow'
    subst hrow'
    rw [hpat]
    exact ⟨id, Shared.hasPath_commit_of_kept (hput.paths _) hput.path⟩
  · intro key hkey hne
    rw [hcre]
    refine h.created key hkey ?_
    by_cases heq : key = id
    · rw [heq, hc]
      simp
    · rwa [hput.commit_other heq] at hne
  · intro key last hlas
    rw [hini, hfil]
    by_cases heq : key = id
    · subst heq
      obtain rfl := Option.some.inj (hc'.symm.trans hlas)
      rw [if_pos ⟨rfl, rfl⟩, hcne, ← hnew]
      exact (h.chain key c hc).concat (hold.trans hcol.symm)
    · rw [if_neg fun hbot => heq hbot.2, append_nil]
      exact h.chain key last ((hput.commit_other heq).symm.trans hlas)

theorem PutNew.commit (h : Chaining t (w, r)) (hput : PutNew i p id new [row] (w, r))
    (hcon : (w.commit i).Consistent) (hkin : row.event.kind = .ValueCreated)
    (hpat : to_ascii_lowercase row.event.path = p.fold) (hnew : row.event.new_value = new) :
    Chaining t (w.commit i, note_reads w (.asked i .commit a) (w.commit i) r) := by
  obtain ⟨c', hc', hcne⟩ := hput.commit_own
  obtain ⟨prow, hpro, hpid⟩ := hput.path
  have hkee : ∀ fold key, w.HasPath fold key → ¬ (w.paths fold).Mine i := by
    rintro fold key ⟨prow', hpro', _⟩ hm
    rw [hput.paths fold hm, hput.unpathed] at hpro'
    simp at hpro'
  have hsee : ((w.paths (to_ascii_lowercase row.event.path)).seen i).map PathRow.content_id =
      some id := by
    rw [hpat, seen_of_pending hpro, Option.map_some, hpid]
  have hfil := filed_commit h hkee hput.recorded hsee
  rw [hkin] at hfil
  -- Nothing was filed on the new content: it had no path.
  have hnone : ∀ kind, w.filed kind id = [] := by
    intro kind
    refine filter_eq_nil_iff.mpr fun event _ => ?_
    simp only [Bool.and_eq_true, beq_iff_eq, not_and, Option.map_eq_some_iff, not_exists]
    rintro _ prow' hpro' hid
    obtain ⟨c, hc⟩ := h.consistent.referenced _ prow' hpro'
    rw [hid] at hc
    exact absurd (hput.absent.symm.trans hc) (by simp)
  have hsta : t.content_row id = none := by
    by_contra hne
    exact h.kept id hne hput.absent
  have hsam : ∀ kind key, key ≠ id → (w.commit i).filed kind key = w.filed kind key := by
    intro kind key hne
    rw [hfil, if_neg fun hbot => hne hbot.2, append_nil]
  refine h.commit_of hcon hkee hput.not_deleted ?_ ?_ ?_
  · intro row' hrow'
    rw [hput.recorded, mem_singleton] at hrow'
    subst hrow'
    rw [hpat]
    exact ⟨_, Shared.hasPath_commit_of_inserted hpro⟩
  · intro key hkey hne
    by_cases heq : key = id
    · rw [heq, hfil, if_pos ⟨rfl, rfl⟩]
      simp
    · rw [hsam _ key heq]
      rw [hput.commit_other heq] at hne
      exact h.created key hkey hne
  · intro key last hlas
    by_cases heq : key = id
    · subst heq
      obtain rfl := Option.some.inj (hc'.symm.trans hlas)
      rw [hfil, hnone, if_neg (by simp), hcne]
      simp only [Shared.initial_value, hsta, hfil, hnone, nil_append, and_self, if_true,
        head?_cons, Option.bind_some, hnew]
      rfl
    · rw [hsam _ key heq]
      simp only [Shared.initial_value, hsam _ key heq]
      exact h.chain key last ((hput.commit_other heq).symm.trans hlas)

/-! ## Lasting knowledge -/

def KnowsNoted (i : ι) (F : Noted ι → Prop) (u : Noted ι) : Prop := u.1.opened i = true → F u

def LastingNoted (t : Tables) (i : ι) (F : Noted ι → Prop) : Prop :=
  ∀ u u', Chaining t u → Chaining t u' → ChainEnv i u u' → F u → F u'

variable {F : Noted ι → Prop}

theorem LastingNoted.stable (h : LastingNoted t i F) :
    Stable (chain_discipline t replaces) i (KnowsNoted i F) := by
  intro u l u' hinv hinv' hF hfor hall hope
  have henv := ChainEnv.of_allowed hinv hfor hall hope
  exact h u u' hinv hinv' henv (hF (henv.env.same.opened ▸ hope))

theorem LastingNoted.and {G : Noted ι → Prop} (hF : LastingNoted t i F) (hG : LastingNoted t i G) :
    LastingNoted t i fun u => F u ∧ G u :=
  fun u u' h h' henv hu => ⟨hF u u' h h' henv hu.1, hG u u' h h' henv hu.2⟩

theorem Shared.Lasting.noted {F : Shared ι → Prop} (h : Shared.Lasting i F) :
    LastingNoted t i fun u => F u.1 :=
  fun u u' hu hu' henv hF => h u.1 u'.1 hu.consistent hu'.consistent henv.env hF

def Untouched (i : ι) (u : Noted ι) : Prop := u.1.Clean i ∧ u.1.recorded i = []

theorem lasting_untouched : LastingNoted t i (Untouched i) :=
  Shared.Lasting.noted (Shared.lasting_clean.and
    (Shared.lasting_own fun _ _ hsam h => hsam.recorded.trans h))

theorem lasting_wrote_only (id : ℕ) (new : Option Text) (rows : List AuditRow) :
    LastingNoted t i (WroteOnly i id new rows) := by
  intro u u' _ _ henv h
  have hsam := henv.env.same
  obtain ⟨c, hc, hnew⟩ := h.after
  exact ⟨fun key hm => h.only key ((hsam.mine_content key).mp hm),
    ⟨c, (hsam.contents id _).mpr hc, hnew⟩, hsam.recorded.trans h.recorded⟩

theorem lasting_put_over (p : ConfigPath) (id : ℕ) (old new : Option Text) (rows : List AuditRow) :
    LastingNoted t i (PutOver i p id old new rows) := by
  intro u u' hu hu' henv h
  refine ⟨lasting_wrote_only id new rows u u' hu hu' henv h.toWroteOnly, ?_, ?_, ?_, ?_, ?_⟩
  · exact (Shared.fact_holds p).lasting _ _ hu.consistent hu'.consistent henv.env h.holds
  · exact ((Shared.fact_covered p.fold id).lasting _ _ hu.consistent hu'.consistent henv.env
      ⟨h.holds.covers, h.path⟩).2
  · exact fun fold hm => h.paths fold ((henv.env.same.mine_path fold).mp hm)
  · exact henv.reads.trans h.reads
  · obtain ⟨c, hc, hold⟩ := h.before
    exact ⟨c, (henv.value id h.reads).trans hc, hold⟩

theorem lasting_put_content (p : ConfigPath) (id : ℕ) (new : Option Text) :
    LastingNoted t i (PutContentOnly i p id new) := by
  intro u u' hu hu' henv h
  obtain ⟨c, hc, -⟩ := h.after
  refine ⟨lasting_wrote_only id new [] u u' hu hu' henv h.toWroteOnly, ?_, ?_, ?_⟩
  · exact (Shared.fact_holds p).lasting _ _ hu.consistent hu'.consistent henv.env h.holds
  · exact fun fold hm => h.paths fold ((henv.env.same.mine_path fold).mp hm)
  · exact (henv.env.mine_same id ⟨_, hc⟩).trans h.absent

theorem lasting_put_new (p : ConfigPath) (id : ℕ) (new : Option Text) (rows : List AuditRow) :
    LastingNoted t i (PutNew i p id new rows) := by
  intro u u' hu hu' henv h
  have hsam := henv.env.same
  obtain ⟨c, hc, -⟩ := h.after
  obtain ⟨row, hrow, hid⟩ := h.path
  refine ⟨lasting_wrote_only id new rows u u' hu hu' henv h.toWroteOnly, ?_, ?_, ?_, ?_⟩
  · exact ⟨row, (hsam.paths p.fold _).mpr hrow, hid⟩
  · exact (henv.env.path_same p.fold (hu.consistent.covered p.fold i ⟨_, hrow⟩)).trans h.unpathed
  · exact fun fold hm => h.paths fold ((hsam.mine_path fold).mp hm)
  · exact (henv.env.mine_same id ⟨_, hc⟩).trans h.absent

structure ReadBy (i : ι) (p : ConfigPath) (row : PathContentClassRow) (u : Noted ι) : Prop where
  holds : u.1.Holds i p
  untouched : Untouched i u
  path : u.1.HasPath p.fold row.content_id
  reads : u.2 i = some row.content_id
  value : ∃ c, (u.1.contents row.content_id).committed = some c ∧
    c.recorded = (Recorded.of row.classification row.value).plain

theorem lasting_read_by (p : ConfigPath) (row : PathContentClassRow) :
    LastingNoted t i (ReadBy i p row) := by
  intro u u' hu hu' henv h
  obtain ⟨c, hc, hval⟩ := h.value
  exact ⟨(Shared.fact_holds p).lasting _ _ hu.consistent hu'.consistent henv.env h.holds,
    lasting_untouched u u' hu hu' henv h.untouched,
    ((Shared.fact_covered p.fold row.content_id).lasting _ _ hu.consistent hu'.consistent henv.env
      ⟨h.holds.covers, h.path⟩).2,
    henv.reads.trans h.reads, c, (henv.value _ h.reads).trans hc, hval⟩

end SovereignConfig.Values
