/-
Overlapping rotations. One that has overstayed its lease can take a later one's mark for its own;
under `InOrder` the rotations take turns.
-/
import SovereignConfig.Managed.Stages

namespace SovereignConfig.Managed

open Lib Text Function

/-! ## What is remembered of a run -/

/-- When each rotation marked the row, and which one did last. -/
structure Marks where
  marked : CallId → Option OffsetDateTime
  last : Option CallId

def no_marks : Marks := ⟨fun _ => none, none⟩

def mark_of : Turn → Option CallId
  | .asked i (.storage (.begin_rotation _)) (.ok _) => some i
  | _ => none

def note_mark (w : World) (l : Turn) (_ : World) (marks : Marks) :
    Marks :=
  match mark_of l with
  | some i => ⟨update marks.marked i (some w.now), some i⟩
  | none => marks

def Statement.ends_rotation : Statement → Bool
  | transition_state .. | transition_state_recorded .. => true
  | _ => false

/-- Only rotations take steps; each replaces the credential within the lease of its own mark, or
at least before another has marked; and none is served its last statement after another has
marked. -/
structure InOrder (settings : ManagedSettings) (u : World × Marks)
    (l : Turn) (_ : World × Marks) : Prop where
  rotations : ∀ i q a, l = .asked i q a → i.role = .rotate
  timely : ∀ i credential answer,
    l = .asked i (.provider (.replace_credential credential)) answer →
      (∃ t, u.2.marked i = some t ∧ u.1.now - t < settings.rotation_lease) ∨ u.2.last = some i
  ended : ∀ i statement answer, l = .asked i (.storage statement) answer →
    statement.ends_rotation = true → u.2.last = some i

/-- What is assumed of the provider's pace: only rotations take steps, and each replaces the
credential within the lease of its own mark. -/
structure Timely (settings : ManagedSettings) (u : World × Marks)
    (l : Turn) (_ : World × Marks) : Prop where
  rotations : ∀ i q a, l = .asked i q a → i.role = .rotate
  timely : ∀ i credential answer,
    l = .asked i (.provider (.replace_credential credential)) answer →
      ∃ t, u.2.marked i = some t ∧ u.1.now - t < settings.rotation_lease

def Stage.rotating : Stage → Bool
  | replacing .. | confirming _ | settling _ | publishing .. => true
  | _ => false

variable {settings : ManagedSettings} {connection : Connection}

section Invariant

variable {callers : Callers}
  {d d' : (machine settings connection).Staged CallId (World × Marks)}
  {l : Turn}

structure InTurn (d : (machine settings connection).Staged CallId (World × Marks)) : Prop where
  cast : Cast d
  marked : ∀ i s, d.stage i = some s → s.rotating = true →
    ∃ t, d.world.2.marked i = some t ∧
      (d.world.2.last = some i ∨ settings.rotation_lease ≤ d.world.1.now - t)
  held : ∀ i s, d.stage i = some s → s.rotating = true → d.world.2.last = some i →
    ∃ columns, d.world.1.db.columns = some columns ∧ columns.state = .RotationUnknown ∧
      d.world.2.marked i = some columns.updated_at
  replaced : ∀ i actor row v url, d.stage i = some (.publishing actor row v url) →
    url.Carries v ∧ (d.world.2.last = some i →
      ∃ account, d.world.1.account = some account ∧ account.current = v)

theorem in_turn_initial {w : World} {marks : Marks} :
    InTurn (staged settings connection callers (w, marks)) := by
  have hsta : ∀ i s, (staged settings connection callers (w, marks)).stage i = some s →
      s.rotating = false := by
    intro i s hs
    obtain rfl := Option.some.inj hs
    cases i <;> rw [start] <;> split <;> rfl
  refine ⟨staged_cast, fun i s hs hrot => ?_, fun i s hs hrot => ?_,
    fun i actor row v url hs => ?_⟩
  · exact absurd hrot (by simp [hsta i s hs])
  · exact absurd hrot (by simp [hsta i s hs])
  · exact absurd (hsta i _ hs) (by simp [Stage.rotating])

/-! ## What a rotation's step does -/

variable {q : Request} {s s' : Stage} {actor : Actor} {i : CallId} {row : ConnectionRow}

variable {a : q.Answer}

theorem Next.has_role (h : Next settings connection s q a s') : ∃ r, s.role = some r := by
  cases h <;> exact ⟨_, rfl⟩

theorem Next.rotation_statement {statement : Statement} {answer : statement.Answer}
    (h : Next settings connection s (.storage statement) answer s')
    (hrol : s.role = some .rotate) :
    (∃ principal, statement = .begin_rotation principal) ∨
      statement.ends_rotation = true ∧ s.rotating = true ∧ ∃ r, s' = .finished r := by
  cases h <;> simp_all [Stage.role, Statement.ends_rotation, Stage.rotating]

theorem Next.rotating (h : Next settings connection s q a s') (hs' : s'.rotating = true) :
    s.rotating = true ∨ ∀ i, mark_of (.asked i q a) = some i := by
  cases h <;> first
    | exact Or.inr fun _ => rfl
    | simp_all [Stage.rotating]

theorem Next.marking {principal : AuthenticatedPrincipal}
    {answer : (Statement.begin_rotation principal).Answer}
    (h : Next settings connection s (.storage (.begin_rotation principal)) answer s') :
    s.rotating = false := by
  cases h <;> rfl

inductive RowStep (d : (machine settings connection).Staged CallId (World × Marks))
    (d' : (machine settings connection).Staged CallId (World × Marks)) :
    Turn → Prop
  | quiet {l : Turn} : mark_of l = none →
      d'.world.1.db.columns = d.world.1.db.columns → d'.world.2 = d.world.2 → RowStep d d' l
  | marked {j : CallId} {l : Turn} {columns : Columns} {s : Stage} :
      mark_of l = some j → d.stage j = some s → s.rotating = false →
      (∀ i, i ≠ j → d'.stage i = d.stage i) → d.world.1.db.columns = some columns →
      (columns.state = .Active ∨ columns.state = .RotationUnknown ∧
        settings.rotation_lease ≤ d.world.1.now - columns.updated_at) →
      d'.world.1.db.columns = some (columns.moved .RotationUnknown d.world.1.now) →
      d'.world.2 = ⟨update d.world.2.marked j (some d.world.1.now), some j⟩ →
      d'.world.1.now = d.world.1.now → RowStep d d' l
  | ended {j : CallId} {l : Turn} {s : Stage}
      {r : Except Status Reply} : mark_of l = none → d.world.2.last = some j →
      d.stage j = some s → d'.stage j = some (.finished r) →
      d'.world.2 = d.world.2 → RowStep d d' l

theorem now_step {H : Type} {note : World → Turn → World → H → H}
    {e e' : (machine settings connection).Staged CallId (World × H)}
    (h : (machine settings connection).Step ((system settings connection false
      (documented connection.username)).remember note) e l e') :
    e.world.1.now ≤ e'.world.1.now := by
  cases h with
  | @asked i s s' q a v hi hnex hser =>
    cases q with
    | storage statement => exact le_of_eq hser.1.1.symm
    | provider call => exact le_of_eq hser.1.1.symm
  | crashed hi hope hcra => exact le_of_eq (congrArg World.now hcra.1).symm
  | idled hidl => exact hidl.1.1

theorem InTurn.replaces (hd : InTurn d) (hc : InOrder settings d.world l d'.world)
    {credential : CredentialId} {answer : (ProviderCall.replace_credential credential).Answer}
    (hl : l = .asked i (.provider (.replace_credential credential)) answer)
    (hi : d.stage i = some (.replacing actor row credential)) : d.world.2.last = some i := by
  rcases hc.timely i credential answer hl with ⟨t, ht, hlea⟩ | hlas
  · obtain ⟨t', ht', hlas | hexp⟩ := hd.marked i _ hi rfl
    · exact hlas
    · obtain rfl := Option.some.inj (ht.symm.trans ht')
      exact absurd hlea (not_lt.mpr hexp)
  · exact hlas

section Step

variable (h : (machine settings connection).Step ((system settings connection false
  (documented connection.username)).remember note_mark) d l d')
include h

theorem rotating_step (hs' : d'.stage i = some s') (hrot : s'.rotating = true)
    (hl : mark_of l ≠ some i) :
    ∃ s, d.stage i = some s ∧ s.rotating = true := by
  rcases h.stage hs' with hbef | ⟨s, q, a, rfl, hs, hnex, -⟩
  · exact ⟨s', hbef, hrot⟩
  · exact ⟨s, hs, (hnex.rotating hrot).resolve_right fun hmar => hl (hmar i)⟩

variable (hc : InOrder settings d.world l d'.world)
include hc

theorem row_step (hd : Cast d) : RowStep d d' l := by
  cases h with
  | @asked i s s' q a v hi hnex hser =>
    obtain ⟨hser, hnot⟩ := hser
    have hrol : s.role = some .rotate := by
      obtain ⟨r, hr⟩ := Next.has_role hnex
      rw [hr, ← hd i s hi r hr, hc.rotations i q a rfl]
    cases q with
    | provider call => exact .quiet rfl (congrArg Db.columns hser.2.1) hnot
    | storage statement =>
      rcases Next.rotation_statement hnex hrol with ⟨principal, rfl⟩ | ⟨hend, -, r, rfl⟩
      · cases a with
        | error e =>
          refine .quiet rfl ?_ hnot
          exact congrArg Db.columns (Stored.effect hser).of_error
        | ok row =>
          obtain ⟨columns, hcol, hstate, -, hdb⟩ := Stored.marked hser
          exact .marked rfl hi (Next.marking hnex) (fun j hj => update_of_ne hj _ _)
            hcol hstate (congrArg Db.columns hdb) hnot hser.1
      · have hnone : mark_of (.asked i (.storage statement) a) = none := by
          cases statement <;> first | rfl | exact absurd hend (by simp [Statement.ends_rotation])
        refine .ended hnone (hc.ended i statement a rfl hend) hi (update_self ..) ?_
        rw [hnot, note_mark, hnone]
  | crashed hi hope hcra =>
    exact .quiet rfl (congrArg (fun w => w.db.columns) hcra.1) hcra.2
  | idled hidl => exact .quiet rfl (congrArg Db.columns hidl.1.2.1) hidl.2

theorem replace_step (hd : Cast d) :
    d'.world.1.account = d.world.1.account ∨ ∃ i actor row credential answer,
      l = .asked i (.provider (.replace_credential credential)) answer ∧
      d.stage i = some (.replacing actor row credential) := by
  cases h with
  | @asked i s s' q a v hi hnex hser =>
    have hrol : s.role = some .rotate := by
      obtain ⟨r, hr⟩ := Next.has_role hnex
      rw [hr, ← hd i s hi r hr, hc.rotations i q a rfl]
    cases q with
    | storage statement => exact Or.inl hser.1.2.1
    | provider call =>
      cases call with
      | replace_credential credential =>
        have hrep : ∃ actor row, s = .replacing actor row credential := by
          cases hnex <;> exact ⟨_, _, rfl⟩
        obtain ⟨actor, row, rfl⟩ := hrep
        exact Or.inr ⟨i, actor, row, credential, a, rfl, hi⟩
      | find_credentials name => exact Or.inl hser.1.2.2.1
      | _ =>
        -- The other calls are made by creations and revocations.
        cases hnex <;> exact absurd hrol (by simp [Stage.role])
  | crashed hi hope hcra => exact Or.inl (congrArg World.account hcra.1)
  | idled hidl => exact Or.inl hidl.1.2.2

theorem InTurn.marked_step (hd : InTurn d) (hs' : d'.stage i = some s')
    (hrot : s'.rotating = true) :
    ∃ t, d'.world.2.marked i = some t ∧
      (d'.world.2.last = some i ∨ settings.rotation_lease ≤ d'.world.1.now - t) := by
  have hnow := now_step h
  have hkep : mark_of l ≠ some i → d'.world.2 = d.world.2 →
      ∃ t, d'.world.2.marked i = some t ∧
        (d'.world.2.last = some i ∨ settings.rotation_lease ≤ d'.world.1.now - t) := by
    intro hl hmar
    obtain ⟨s, hs, hbef⟩ := rotating_step h hs' hrot hl
    obtain ⟨t, ht, htur⟩ := hd.marked i s hs hbef
    rw [hmar]
    exact ⟨t, ht, htur.imp_right fun hexp => le_trans hexp (Int.sub_le_sub_right hnow t)⟩
  cases row_step h hc hd.cast with
  | quiet hl _ hmar => exact hkep (by simp [hl]) hmar
  | ended hl _ _ _ hmar => exact hkep (by simp [hl]) hmar
  | @marked j _ columns s hl hj hidl hoth hcol hstate _ hmar hsam =>
    by_cases hij : i = j
    · subst hij
      rw [hmar]
      exact ⟨d.world.1.now, update_self .., Or.inl rfl⟩
    · rw [hoth i hij] at hs'
      obtain ⟨t, ht, htur⟩ := hd.marked i s' hs' hrot
      rw [hmar, hsam]
      refine ⟨t, (update_of_ne hij _ _).trans ht, Or.inr ?_⟩
      -- The row was marked over, so the one who had held it has overstayed.
      rcases htur with hlas | hexp
      · obtain ⟨columns', hcol', hunk, hmark⟩ := hd.held i s' hs' hrot hlas
        obtain rfl := Option.some.inj (hcol.symm.trans hcol')
        obtain rfl := Option.some.inj (ht.symm.trans hmark)
        rcases hstate with hactive | ⟨-, hlea⟩
        · exact absurd (hactive.symm.trans hunk) (by simp)
        · exact hlea
      · exact hexp

theorem InTurn.held_step (hd : InTurn d) (hs' : d'.stage i = some s')
    (hrot : s'.rotating = true) (hlas : d'.world.2.last = some i) :
    ∃ columns, d'.world.1.db.columns = some columns ∧ columns.state = .RotationUnknown ∧
      d'.world.2.marked i = some columns.updated_at := by
  cases row_step h hc hd.cast with
  | quiet hl hcol hmar =>
    obtain ⟨s, hs, hbef⟩ := rotating_step h hs' hrot (by simp [hl])
    rw [hmar] at hlas ⊢
    rw [hcol]
    exact hd.held i s hs hbef hlas
  | marked hl hj hidl hoth hcol hstate hcol' hmar hsam =>
    rw [hmar] at hlas ⊢
    obtain rfl := Option.some.inj hlas
    exact ⟨_, hcol', rfl, update_self ..⟩
  | ended hl hlas' hj hfin hmar =>
    -- The rotation that marked last is the one that has just ended.
    rw [hmar, hlas'] at hlas
    obtain rfl := Option.some.inj hlas
    obtain rfl := Option.some.inj (hfin.symm.trans hs')
    exact absurd hrot (by simp [Stage.rotating])

theorem InTurn.replaced_step (hd : InTurn d) {v : ClientCredential} {url : ConnectionUrl}
    (hs' : d'.stage i = some (.publishing actor row v url)) :
    url.Carries v ∧ (d'.world.2.last = some i →
      ∃ account, d'.world.1.account = some account ∧ account.current = v) := by
  rcases h.stage hs' with hbef | ⟨s, q, a, -, hs, hnex, hser⟩
  · obtain ⟨hcar, hcur⟩ := hd.replaced i actor row v url hbef
    refine ⟨hcar, fun hlas' => ?_⟩
    have hlas : d.world.2.last = some i := by
      cases row_step h hc hd.cast with
      | quiet _ _ hmar => rw [← hmar, hlas']
      | ended _ _ _ _ hmar => rw [← hmar, hlas']
      | marked hl hj hidl _ _ _ _ hmar _ =>
        rw [hmar] at hlas'
        obtain rfl := Option.some.inj hlas'
        obtain rfl := Option.some.inj (hj.symm.trans hbef)
        exact absurd hidl (by simp [Stage.rotating])
    rcases replace_step h hc hd.cast with hsam | ⟨j, _, _, _, _, hl, hj⟩
    · rw [hsam]
      exact hcur hlas
    · obtain rfl := Option.some.inj (hlas.symm.trans (hd.replaces hc hl hj))
      exact absurd (hj.symm.trans hbef) (by simp)
  · cases hnex with
    | replaced hurl =>
      refine ⟨managed_carries hurl, fun _ => ?_⟩
      obtain ⟨account, u, -, -, hu, haft⟩ := hser.1.2.2
      exact ⟨account.replaced u, haft, hu v rfl⟩

theorem InTurn.step (hd : InTurn d) : InTurn d' where
  cast := hd.cast.step h
  marked _ _ := hd.marked_step h hc
  held _ _ := hd.held_step h hc
  replaced _ _ _ _ _ := hd.replaced_step h hc

end Step

end Invariant

/-! ## A rotation returns the current credential -/

/-- **Overlapping rotations.** -/
theorem rotation_returns_current (settings : ManagedSettings) (connection : Connection)
    (callers : Callers) (w : World)
    (c : Config CallId (World × Marks) Request Request.Answer Status Reply)
    (hc : Reach ((system settings connection false
        (documented connection.username)).remember note_mark) (InOrder settings)
      (initial settings connection callers (w, no_marks)) c)
    (l : Label CallId Request Request.Answer)
    (c' : Config CallId (World × Marks) Request Request.Answer Status Reply)
    (hstep : Step ((system settings connection false
        (documented connection.username)).remember note_mark) c l c')
    (horder : InOrder settings c.world l c'.world) (i : CallId) (p : ProvisionedConnection)
    (hreturned : c'.pool i = .live (.done (.ok (.provisioned p))))
    (hrunning : (c.pool i).running = true) :
    ∃ account, c.world.1.account = some account ∧ p.connection_url.Carries account.current := by
  obtain ⟨d, hd, hfollows⟩ := initial_follows.reach hc
  have htur : InTurn d :=
    hd.invariant in_turn_initial fun _ _ _ hd hstep horder => hd.step hstep horder
  obtain ⟨d', hstep', hfollows'⟩ := hfollows.step hstep
  rw [hfollows.world, hfollows'.world] at horder
  rw [hfollows.world]
  rcases hstep'.stage (hfollows'.done hreturned) with hbef | ⟨s, q, a, rfl, hs, hnex, hser⟩
  · obtain ⟨r, hr, -⟩ := hfollows.returned hbef
    rw [hr] at hrunning
    exact absurd hrunning (by simp [Thread.running])
  · cases hnex with
    | published =>
      obtain ⟨hcar, hcur⟩ := htur.replaced i _ _ _ _ hs
      obtain ⟨account, hacc, hval⟩ := hcur (horder.ended i _ _ rfl rfl)
      exact ⟨account, hacc, hval ▸ hcar⟩
    | completed =>
      -- A creation's completion is not a step of a rotation.
      have hrol := htur.cast i _ hs .create rfl
      rw [horder.rotations i _ _ rfl] at hrol
      simp at hrol

abbrev noted : System CallId (World × Marks) Request Request.Answer :=
  (system sample_settings sample_connection false
    (documented sample_connection.username)).remember note_mark

section Playing

variable {cond : World × Marks → Turn → World × Marks → Prop}
  {c₀ c : Config CallId (World × Marks) Request Request.Answer Status Reply}

theorem noted_stored (_ : Reach noted cond c₀ c) (i : CallId) (statement : Statement)
    (answer : statement.Answer) (db : Db) {k : statement.Answer → Service Reply}
    (hp : c.pool i = .live (.ask (.storage statement) k))
    (hexe : (answer, db) = exec sample_settings sample_connection c.world.1.now statement
      c.world.1.db) :
    Step noted c (.asked i (.storage statement) answer)
      ⟨({ c.world.1 with db := db },
          note_mark c.world.1 (.asked i (.storage statement) answer) { c.world.1 with db := db }
            c.world.2),
        update c.pool i (.live (k answer))⟩ :=
  .asked hp ⟨⟨rfl, rfl, Or.inl hexe⟩, rfl⟩

theorem noted_called (_ : Reach noted cond c₀ c) (i : CallId) (call : ProviderCall)
    (answer : call.Answer) (account : Option ProviderAccount) {k : call.Answer → Service Reply}
    (hp : c.pool i = .live (.ask (.provider call) k))
    (hs : documented sample_connection.username i call c.world.1.account answer account) :
    Step noted c (.asked i (.provider call) answer)
      ⟨({ c.world.1 with account := account }, c.world.2), update c.pool i (.live (k answer))⟩ :=
  .asked hp ⟨⟨rfl, rfl, hs⟩, rfl⟩

theorem noted_idled (_ : Reach noted cond c₀ c) (now : OffsetDateTime)
    (hnow : c.world.1.now ≤ now) :
    Step noted c .idled ⟨({ c.world.1 with now := now }, c.world.2), c.pool⟩ :=
  .idled ⟨⟨hnow, rfl, rfl⟩, rfl⟩

variable {u v : World × Marks} {n : ℕ}

theorem timely_stored {statement : Statement} {answer : statement.Answer} :
    Timely settings u (.asked (.rotate n) (.storage statement) answer) v where
  rotations := by
    rintro i q a hl
    cases hl
    rfl
  timely := by
    rintro i credential a hl
    cases hl

theorem timely_replaced {credential : CredentialId}
    {answer : (ProviderCall.replace_credential credential).Answer} (t : OffsetDateTime)
    (ht : u.2.marked (.rotate n) = some t) (hlea : u.1.now - t < settings.rotation_lease) :
    Timely settings u (.asked (.rotate n) (.provider (.replace_credential credential)) answer)
      v where
  rotations := by
    rintro i q a hl
    cases hl
    rfl
  timely := by
    rintro i credential' a hl
    cases hl
    exact ⟨t, ht, hlea⟩

theorem Timely.in_order {i : CallId} {q : Request} {a : q.Answer}
    (h : Timely settings u (.asked i q a) v)
    (hend : ∀ statement, q = .storage statement → statement.ends_rotation = true →
      u.2.last = some i) : InOrder settings u (.asked i q a) v where
  rotations := h.rotations
  timely j credential answer hl := Or.inl (h.timely j credential answer hl)
  ended := by
    rintro j statement answer hl hends
    cases hl
    exact hend statement rfl hends

end Playing

theorem replaced_with (v : ClientCredential) {account : ProviderAccount} {creator : Bool}
    (h : account.credential = sample_credential) :
    Contract sample_connection.username creator (.replace_credential sample_credential)
      (some account) (.ok v) (some (account.replaced v)) :=
  ⟨account, v, rfl, h, fun _ hu => Option.some.inj hu, rfl⟩

def sample_rotated : Statement :=
  .transition_state_recorded .RotationUnknown .Active operator_actor
    (.connection_rotated operator_actor sample_connection.subject)

def marked_at (t : OffsetDateTime) : Columns := active_columns.moved .RotationUnknown t

def rotated_at (t : OffsetDateTime) : Db :=
  ⟨some (active_columns.moved .Active t),
    [⟨operator_actor, t, .connection_rotated operator_actor sample_connection.subject⟩]⟩

/-- What a rotation returns that was given `v` and moved the row back at `t`. -/
def returned_at (t : OffsetDateTime) (v : ClientCredential) : ProvisionedConnection :=
  ⟨metadata ⟨sample_connection, active_columns.moved .Active t⟩, sample_url v⟩

def InOrderTimely (u : World × Marks) (l : Turn) (v : World × Marks) : Prop :=
  InOrder sample_settings u l v ∧ Timely sample_settings u l v

variable {u v : World × Marks} {n : ℕ}

theorem idled_in_order : InOrderTimely u .idled v := by
  refine ⟨⟨?_, ?_, ?_⟩, ?_, ?_⟩
  all_goals
    rintro i q a hl
    cases hl

theorem marked_in_order {principal : AuthenticatedPrincipal}
    {answer : (Statement.begin_rotation principal).Answer} :
    InOrderTimely u (.asked (.rotate n) (.storage (.begin_rotation principal)) answer) v :=
  ⟨timely_stored.in_order (by rintro statement hq hend; cases hq; cases hend), timely_stored⟩

theorem replaced_in_order {credential : CredentialId}
    {answer : (ProviderCall.replace_credential credential).Answer} (t : OffsetDateTime)
    (ht : u.2.marked (.rotate n) = some t) (hlea : u.1.now - t < sample_settings.rotation_lease) :
    InOrderTimely u (.asked (.rotate n) (.provider (.replace_credential credential)) answer) v :=
  ⟨(timely_replaced t ht hlea).in_order (by rintro statement hq; cases hq),
    timely_replaced t ht hlea⟩

/-- The first rotation's last statement is delayed past its lease. The second marks the row and
replaces the credential. -/
theorem overtaken : ∃ c, Reach noted InOrderTimely
      (initial sample_settings sample_connection sample_callers (active_world, no_marks)) c ∧
    c.world.1 = ⟨10, ⟨some (marked_at 10), []⟩,
      some (sample_provider_account.replaced second_replacement)⟩ ∧
    c.world.2.last = some (.rotate 1) ∧
    ∀ n v, (n = 0 ∧ v = first_replacement ∨ n = 1 ∧ v = second_replacement) →
      ∃ k, c.pool (.rotate n) = .live (.ask (.storage sample_rotated) k) ∧
        k (.ok (some ⟨sample_connection, active_columns.moved .Active 10⟩)) =
          .done (.ok (.provisioned (returned_at 10 v))) := by
  have h₀ : Reach noted InOrderTimely
    (initial sample_settings sample_connection sample_callers (active_world, no_marks)) _ := .refl
  have h₁ := h₀.step (noted_stored h₀ (.rotate 0) (.begin_rotation operator_principal)
    (.ok ⟨sample_connection, active_columns⟩) ⟨some (marked_at 0), []⟩ rfl rfl) marked_in_order
  have h₂ := h₁.step (noted_called h₁ (.rotate 0) (.replace_credential sample_credential)
      (.ok first_replacement) (some (sample_provider_account.replaced first_replacement)) rfl
      (replaced_with _ rfl)) (replaced_in_order 0 rfl (by decide))
  have h₃ := h₂.step (noted_idled h₂ 10 (by decide)) idled_in_order
  have h₄ := h₃.step (noted_stored h₃ (.rotate 1) (.begin_rotation operator_principal)
    (.ok ⟨sample_connection, marked_at 0⟩) ⟨some (marked_at 10), []⟩ rfl rfl) marked_in_order
  have h₅ := h₄.step (noted_called h₄ (.rotate 1) (.replace_credential sample_credential)
      (.ok second_replacement) (some (sample_provider_account.replaced second_replacement)) rfl
      (replaced_with _ rfl)) (replaced_in_order 10 rfl (by decide))
  refine ⟨_, h₅, rfl, rfl, ?_⟩
  rintro n v (⟨rfl, rfl⟩ | ⟨rfl, rfl⟩)
  all_goals
    exact ⟨_, congrArg (fun c => Thread.live (Call.bind c _)) (sample_given (by simp)), rfl⟩

theorem publishes {c : Config CallId (World × Marks) Request Request.Answer Status Reply}
    {v : ClientCredential} {k : sample_rotated.Answer → Service Reply}
    (hwor : c.world.1 = ⟨10, ⟨some (marked_at 10), []⟩,
      some (sample_provider_account.replaced second_replacement)⟩)
    (hp : c.pool (.rotate n) = .live (.ask (.storage sample_rotated) k))
    (hk : k (.ok (some ⟨sample_connection, active_columns.moved .Active 10⟩)) =
      .done (.ok (.provisioned (returned_at 10 v)))) :
    ∃ c', Step noted c (.asked (.rotate n) (.storage sample_rotated)
        (.ok (some ⟨sample_connection, active_columns.moved .Active 10⟩))) c' ∧
      c'.pool (.rotate n) = .live (.done (.ok (.provisioned (returned_at 10 v)))) := by
  refine ⟨_, .asked (w := ({ c.world.1 with db := rotated_at 10 }, _)) hp
    ⟨⟨rfl, rfl, Or.inl ?_⟩, rfl⟩, ?_⟩
  · rw [hwor]
    rfl
  · rw [← hk]
    exact update_self ..

/-- Two rotations overlap, and the one that marked last returns first. -/
theorem rotation_returns_current_overlapped :
    ∃ (c c' : Config CallId (World × Marks) Request Request.Answer Status Reply)
      (l : Label CallId Request Request.Answer) (p : ProvisionedConnection),
      Reach noted (InOrder sample_settings)
        (initial sample_settings sample_connection sample_callers (active_world, no_marks)) c ∧
      (c.pool (.rotate 0)).running = true ∧ Step noted c l c' ∧
      c'.pool (.rotate 1) = .live (.done (.ok (.provisioned p))) ∧
      ∃ account, c.world.1.account = some account ∧ p.connection_url.Carries account.current := by
  obtain ⟨c, hc, hwor, hlas, hpub⟩ := overtaken
  obtain ⟨k₀, hp₀, -⟩ := hpub 0 _ (.inl ⟨rfl, rfl⟩)
  obtain ⟨k, hp, hk⟩ := hpub 1 _ (.inr ⟨rfl, rfl⟩)
  obtain ⟨c', hste, hret⟩ := publishes hwor hp hk
  have hord := hc.imp fun _ _ _ => And.left
  refine ⟨c, c', _, _, hord, by rw [hp₀]; rfl, hste, hret, ?_⟩
  exact rotation_returns_current sample_settings sample_connection sample_callers active_world c
    hord _ c' hste (timely_stored.in_order fun _ _ _ => hlas) (.rotate 1) _ hret (by rw [hp]; rfl)

/-- The first rotation is served there: it takes the second's mark for its own and returns a
credential that no longer works. -/
theorem rotation_returns_stale :
    ∃ (c c' : Config CallId (World × Marks) Request Request.Answer Status Reply)
      (l : Label CallId Request Request.Answer) (p : ProvisionedConnection)
      (account : ProviderAccount),
      Reach ((system sample_settings sample_connection false
          (documented sample_connection.username)).remember note_mark) (Timely sample_settings)
        (initial sample_settings sample_connection sample_callers (active_world, no_marks)) c ∧
      Step ((system sample_settings sample_connection false
          (documented sample_connection.username)).remember note_mark) c l c' ∧
      Timely sample_settings c.world l c'.world ∧
      (c.pool (.rotate 0)).running = true ∧
      c'.pool (.rotate 0) = .live (.done (.ok (.provisioned p))) ∧
      c.world.1.account = some account ∧ ¬ p.connection_url.Carries account.current := by
  obtain ⟨c, hc, hwor, -, hpub⟩ := overtaken
  obtain ⟨k, hp, hk⟩ := hpub 0 _ (.inl ⟨rfl, rfl⟩)
  obtain ⟨c', hste, hret⟩ := publishes hwor hp hk
  refine ⟨c, c', _, _, _, hc.imp fun _ _ _ => And.right, hste, timely_stored, by rw [hp]; rfl, hret,
    congrArg World.account hwor, ?_⟩
  intro hcar
  exact absurd (carries_secret (sample_carries (by simp)) hcar) (by decide)

end SovereignConfig.Managed
