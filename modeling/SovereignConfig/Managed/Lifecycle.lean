/-
The lifecycle of a connection's row, over every interleaving, with any provider, storage that may
fail anywhere, and crashes. `StateChange` lists what one step can do.
-/
import SovereignConfig.Managed.Stages

namespace SovereignConfig.Managed

open Lib

/-! ## What one step can do to the row -/

def Moves : ManagedConnectionState → ManagedConnectionState → Bool
  | .Provisioning, .Active => true
  | .Provisioning, .CleanupRequired => true
  | .Active, .RotationUnknown => true
  | .RotationUnknown, .Active => true
  | .RotationUnknown, .CleanupRequired => true
  | _, _ => false

/-- **The state changes of a row.** A row in rotation whose other columns alone are written does
not occur: there, any write is a new mark, and needs the lease to have passed. -/
inductive StateChange (lease : ℤ) (now : OffsetDateTime) :
    Option Columns → Option Columns → Prop
  | kept {old : Option Columns} : StateChange lease now old old
  | noted {old new : Columns} : new.state = old.state → old.state ≠ .RotationUnknown →
      StateChange lease now (some old) (some new)
  | inserted {new : Columns} : new.state = .Provisioning → StateChange lease now none (some new)
  | moved {old new : Columns} : Moves old.state new.state = true →
      StateChange lease now (some old) (some new)
  | remarked {old new : Columns} : old.state = .RotationUnknown → new.state = .RotationUnknown →
      lease ≤ now - old.updated_at → StateChange lease now (some old) (some new)
  | claimed {old new : Columns} : new.state = .Revoking → StateChange lease now (some old) (some new)
  | deleted {old : Columns} : StateChange lease now (some old) none

theorem StateChange.of_revoking {lease : ℤ} {now : OffsetDateTime} {old : Columns}
    {new : Option Columns} (h : StateChange lease now (some old) new)
    (hold : old.state = .Revoking) : ∀ columns, new = some columns → columns.state = .Revoking := by
  rintro columns rfl
  cases h with
  | kept => exact hold
  | noted hsam _ => rw [hsam, hold]
  | moved hmov =>
    rw [hold] at hmov
    simp [Moves] at hmov
  | remarked hrot _ _ =>
    rw [hold] at hrot
    simp at hrot
  | claimed hcla => exact hcla

def Statement.lawful : Statement → Bool
  | transition_state expected state => Moves expected state
  | transition_state_recorded expected state _ _ => Moves expected state
  | _ => true

def Statement.notes : Statement → Bool
  | record_provider_user _ | record_credential_identifier _ => true
  | _ => false

variable {settings : ManagedSettings} {connection : Connection}

section Effects

variable {now : OffsetDateTime} {db : Db} {set : Columns → Columns}

theorem update_change {lease : ℤ} (hset : ∀ columns, (set columns).state = columns.state)
    (hrow : ∀ columns, db.columns = some columns → columns.state ≠ .RotationUnknown) :
    StateChange lease now db.columns (db.update set).columns := by
  rw [Db.update]
  cases hc : db.columns with
  | none => exact .kept
  | some columns => exact .noted (hset columns) (hrow columns hc)

theorem Effect.change {statement : Statement} {answer : statement.Answer} {db' : Db}
    (h : Effect settings connection now statement db answer db') (hlaw : statement.lawful = true)
    (hrow : statement.notes = true →
      ∀ columns, db.columns = some columns → columns.state ≠ .RotationUnknown) :
    StateChange settings.rotation_lease now db.columns db'.columns := by
  cases h with
  | inserted hnone =>
    rw [hnone]
    exact .inserted rfl
  | user_noted => exact update_change (fun _ => rfl) (hrow rfl)
  | credential_noted => exact update_change (fun _ => rfl) (hrow rfl)
  | moved hcol hstate | moved_recorded hcol hstate =>
    rw [hcol]
    exact .moved (hstate ▸ hlaw)
  | deleted =>
    rw [Db.delete]
    cases db.columns with
    | none => exact .kept
    | some columns => exact .deleted
  | deleted_recorded hcol =>
    rw [hcol]
    exact .deleted
  | marked hcol hstate =>
    rw [hcol]
    rcases hstate with hactive | ⟨hunk, hlea⟩
    · exact .moved (by rw [hactive]; rfl)
    · exact .remarked hunk rfl hlea
  | claimed hcol =>
    rw [hcol]
    exact .claimed rfl
  | _ => exact .kept

def Statement.of_rotation : Statement → Bool
  | transition_state expected _ => expected = .RotationUnknown
  | transition_state_recorded expected _ _ _ => expected = .RotationUnknown
  | _ => true

def Open (db : Db) : Prop :=
  ∀ columns, db.columns = some columns →
    columns.state = .Provisioning ∨ columns.state = .Revoking

theorem Open.update (hdb : Open db) (hset : ∀ columns, (set columns).state = columns.state) :
    Open (db.update set) := by
  intro columns' hcol'
  obtain ⟨columns, hcol, rfl⟩ := Option.map_eq_some_iff.mp hcol'
  rw [hset]
  exact hdb columns hcol

theorem Open.not_rotating (hdb : Open db) {columns : Columns} (hc : db.columns = some columns) :
    columns.state ≠ .RotationUnknown := by
  intro hstate
  have hope := hdb columns hc
  simp [hstate] at hope

theorem Open.effect (hdb : Open db) {statement : Statement} {answer : statement.Answer} {db' : Db}
    (h : Effect settings connection now statement db answer db')
    (hrot : statement.of_rotation = true) : Open db' := by
  cases h with
  | inserted hnone =>
    rintro columns hcol
    obtain rfl := Option.some.inj hcol
    exact Or.inl rfl
  | user_noted => exact hdb.update fun _ => rfl
  | credential_noted => exact hdb.update fun _ => rfl
  | moved hcol hstate | moved_recorded hcol hstate =>
    exact absurd (hstate.trans (of_decide_eq_true hrot)) (hdb.not_rotating hcol)
  | deleted => simp [Db.delete, Open]
  | deleted_recorded _ => simp [Open]
  | marked hcol hstate =>
    have hope := hdb _ hcol
    rcases hstate with hstate | ⟨hstate, -⟩ <;> simp [hstate] at hope
  | claimed hcol =>
    rintro _ hcol'
    obtain rfl := Option.some.inj hcol'
    exact Or.inr rfl
  | _ => exact hdb

theorem Effect.row_none {statement : Statement} {answer : statement.Answer} {db' : Db}
    (h : Effect settings connection now statement db answer db')
    (hins : ∀ c, statement ≠ .insert_provisioning c) (hdb : db.columns = none) :
    db'.columns = none := by
  cases h with
  | inserted => exact absurd rfl (hins _)
  | _ => simp_all [Db.update, Db.delete]

end Effects

/-! ## The invariant -/

def Stage.opening : Stage → Bool
  | inserting _ | calling _ | recording .. | listing .. | identifying .. | granting ..
  | grouping .. | completing .. => true
  | _ => false

section Invariant

variable {faulty : Bool} {provider : Provider} {callers : Callers}

variable {s s' : Stage} {q : Request} {S : System CallId World Request Request.Answer}
  {d d' : Staged settings connection}
  {l : Turn} {i : CallId} {w : World}
  {cond : World → Turn → World → Prop}

theorem Next.statement {statement : Statement} {answer : statement.Answer}
    (h : Next settings connection s (.storage statement) answer s') :
    statement.lawful = true ∧
      (statement.notes = true → s.role = some .create ∧ s.opening = true) ∧
      (∀ c, statement = .insert_provisioning c → s.role = some .create ∧
        (∃ creation, s = .inserting creation) ∧ ∀ creation, s' ≠ .inserting creation) ∧
      (s.role ≠ some .create ∨ s'.opening = true → statement.of_rotation = true) := by
  cases h <;> simp [Statement.lawful, Statement.notes, Statement.of_rotation, Stage.role,
    Stage.opening, Moves, settled_state]
  case settled gone a e => cases gone <;> rfl

theorem Next.not_inserting {a : q.Answer} (h : Next settings connection s q a s') (c : Creation) :
    s' ≠ .inserting c := by
  cases h <;> simp

theorem Next.opening {a : q.Answer} (h : Next settings connection s q a s')
    (hs' : s'.opening = true) : s.opening = true := by
  cases h <;> simp_all [Stage.opening]

theorem started_step (h : (machine settings connection).Step S d l d')
    (hd : ∀ c, d.stage .create ≠ some (.inserting c)) (c : Creation) :
    d'.stage .create ≠ some (.inserting c) := by
  intro hc
  rcases h.stage hc with hbef | ⟨s, q, a, -, hs, hnex, -⟩
  · exact hd c hbef
  · exact hnex.not_inserting c rfl

theorem opening_step (h : (machine settings connection).Step S d l d') (hs : d'.stage i = some s)
    (hope : s.opening = true) : ∃ t, d.stage i = some t ∧ t.opening = true := by
  rcases h.stage hs with hbef | ⟨t, q, a, -, ht, hnex, -⟩
  · exact ⟨s, hbef, hope⟩
  · exact ⟨t, ht, hnex.opening hope⟩

structure Lifecycle (d : Staged settings connection) : Prop where
  cast : Cast d
  fresh : ∀ c, d.stage .create = some (.inserting c) → d.world.db.columns = none
  opened : ∀ s, d.stage .create = some s → s.opening = true → Open d.world.db

theorem lifecycle_initial (h : w.db.columns = none) :
    Lifecycle (staged settings connection callers w) where
  cast := staged_cast
  fresh _ _ := h
  opened _ _ _ columns hcol := by
    rw [staged, h] at hcol
    simp at hcol

theorem Cast.create {W : Type} {d : (machine settings connection).Staged CallId W} (h : Cast d)
    (hi : d.stage i = some s) (hs : s.role = some .create) : i = .create := by
  have hrol := h i s hi .create hs
  cases i <;> simp_all [CallId.role]

theorem Lifecycle.change (hd : Lifecycle d)
    (h : (machine settings connection).Step (system settings connection faulty provider) d l d') :
    StateChange settings.rotation_lease d.world.now d.world.db.columns d'.world.db.columns := by
  rcases step_db h with hkep | ⟨i, s, s', statement, answer, -, hi, hnex, -, answer', hdon⟩
  · rw [hkep]
    exact .kept
  · obtain ⟨hlaw, hnot, -, -⟩ := Next.statement hnex
    refine hdon.change hlaw fun hnote columns hcol => ?_
    obtain ⟨hrol, hope⟩ := hnot hnote
    obtain rfl := hd.cast.create hi hrol
    exact (hd.opened s hi hope).not_rotating hcol

theorem Lifecycle.not_inserted (hd : Cast d)
    (hcre : ∀ c, d.stage .create ≠ some (.inserting c)) {statement : Statement}
    {answer : statement.Answer} (hi : d.stage i = some s)
    (hnex : Next settings connection s (.storage statement) answer s') :
    ∀ c, statement ≠ .insert_provisioning c := by
  rintro c rfl
  obtain ⟨hrol, ⟨creation, rfl⟩, -⟩ := (Next.statement hnex).2.2.1 c rfl
  obtain rfl := hd.create hi hrol
  exact hcre creation hi

theorem Lifecycle.step (hd : Lifecycle d)
    (h : (machine settings connection).Step (system settings connection faulty provider) d l d') :
    Lifecycle d' where
  cast := hd.cast.step h
  fresh c hc := by
    rcases h.stage hc with hbef | ⟨s, q, a, -, hs, hnex, -⟩
    · have hnone := hd.fresh c hbef
      rcases step_db h with hkep | ⟨i, s, s', statement, answer, -, hi, hnex, hs', answer', hdon⟩
      · rw [hkep, hnone]
      · refine hdon.row_none ?_ hnone
        rintro inserted rfl
        obtain ⟨hrol, -, hlef⟩ := (Next.statement hnex).2.2.1 inserted rfl
        obtain rfl := hd.cast.create hi hrol
        exact hlef c (Option.some.inj (hs'.symm.trans hc))
    · exact absurd rfl (hnex.not_inserting c)
  opened s hs hope := by
    -- The creation was open before this step too, whoever made it.
    obtain ⟨u, hu, hopen⟩ := opening_step h hs hope
    have hbef : Open d.world.db := hd.opened u hu hopen
    rcases step_db h with hkep | ⟨i, t, t', statement, answer, -, hi, hnex, ht', answer', hdon⟩
    · rw [hkep]
      exact hbef
    · refine hbef.effect hdon ((Next.statement hnex).2.2.2 ?_)
      by_cases hrol : t.role = some .create
      · obtain rfl := hd.cast.create hi hrol
        obtain rfl := Option.some.inj (ht'.symm.trans hs)
        exact Or.inr hope
      · exact Or.inl hrol

theorem lifecycle_reach (hfre : w.db.columns = none)
    (h : (machine settings connection).Reach (system settings connection faulty provider) cond
      (staged settings connection callers w) d) : Lifecycle d :=
  h.invariant (lifecycle_initial hfre) fun _ _ _ hd hste _ => hd.step hste

structure Claimed (d : Staged settings connection) : Prop where
  cast : Cast d
  started : ∀ c, d.stage .create ≠ some (.inserting c)
  revoking : ∀ columns, d.world.db.columns = some columns → columns.state = .Revoking

theorem Lifecycle.started (hd : Lifecycle d) (hrow : d.world.db.columns.isSome = true)
    (c : Creation) : d.stage .create ≠ some (.inserting c) := by
  intro hc
  rw [hd.fresh c hc] at hrow
  simp at hrow

theorem Lifecycle.claimed (hd : Lifecycle d) {columns : Columns}
    (hcol : d.world.db.columns = some columns) (hstate : columns.state = .Revoking) :
    Claimed d where
  cast := hd.cast
  started := hd.started (by simp [hcol])
  revoking columns' hcol' := by
    obtain rfl := Option.some.inj (hcol.symm.trans hcol')
    exact hstate

theorem Claimed.step (hd : Claimed d)
    (h : (machine settings connection).Step (system settings connection faulty provider) d l d') :
    Claimed d' where
  cast := hd.cast.step h
  started := started_step h hd.started
  revoking := by
    rcases step_db h with hkep | ⟨i, s, s', statement, answer, -, hi, hnex, -, answer', hdon⟩
    · rw [hkep]
      exact hd.revoking
    · cases hrow : d.world.db.columns with
      | none =>
        rw [hdon.row_none (Lifecycle.not_inserted hd.cast hd.started hi hnex) hrow]
        exact fun columns hcol => absurd hcol (by simp)
      | some columns =>
        have hcha := hdon.change (Next.statement hnex).1 fun _ columns' hcol' => by
          rw [hd.revoking columns' hcol']
          simp
        rw [hrow] at hcha
        exact hcha.of_revoking (hd.revoking columns hrow)

theorem Claimed.no_url (hd : Claimed d)
    (h : (machine settings connection).Step (system settings connection faulty provider) d l d')
    {p : ProvisionedConnection} (hi : d'.stage i = some (.finished (.ok (.provisioned p)))) :
    d.stage i = some (.finished (.ok (.provisioned p))) := by
  -- Both completing transitions find their row in a state that is not the claimed one.
  have hcas : ∀ {expected state actor event row} {w' : World}, expected ≠ .Revoking →
      ¬ Stored settings connection faulty (.transition_state_recorded expected state actor event)
        d.world (.ok (some row)) w' := by
    intro expected state actor event row w' hne hsto
    obtain ⟨columns, hcol, hstate, -⟩ := hsto.moved
    exact hne (hstate ▸ hd.revoking columns hcol)
  rcases h.stage hi with hbef | ⟨s, q, a, -, hs, hnex, hser⟩
  · exact hbef
  · cases hnex with
    | completed => exact absurd hser (hcas (by simp))
    | published => exact absurd hser (hcas (by simp))

theorem Claimed.reach (hd : Claimed d)
    (h : (machine settings connection).Reach (system settings connection faulty provider) cond
      d d') :
    Claimed d' ∧ ∀ i p, d'.stage i = some (.finished (.ok (.provisioned p))) →
      d.stage i = some (.finished (.ok (.provisioned p))) := by
  induction h with
  | refl => exact ⟨hd, fun _ _ hi => hi⟩
  | step _ hste _ ih =>
    exact ⟨ih.1.step hste, fun i p hi => ih.2 i p (ih.1.no_url hste hi)⟩

end Invariant

/-- **Revoking is absorbing.** -/
theorem revoking_is_absorbing (settings : ManagedSettings) (connection : Connection)
    (callers : Callers) (faulty : Bool) (provider : Provider) (w : World)
    (hfresh : w.db.columns = none) (c : Config CallId World Request Request.Answer Status Reply)
    (hc : Reach (system settings connection faulty provider) (fun _ _ _ => True)
      (initial settings connection callers w) c) :
    (∀ l c', Step (system settings connection faulty provider) c l c' →
      StateChange settings.rotation_lease c.world.now c.world.db.columns c'.world.db.columns) ∧
    ∀ columns, c.world.db.columns = some columns → columns.state = .Revoking →
      ∀ c', Reach (system settings connection faulty provider) (fun _ _ _ => True) c c' →
        (∀ columns', c'.world.db.columns = some columns' → columns'.state = .Revoking) ∧
        ∀ i p, c'.pool i = .live (.done (.ok (.provisioned p))) →
          c.pool i = .live (.done (.ok (.provisioned p))) := by
  obtain ⟨d, hd, hfollows⟩ := initial_follows.reach hc
  have hlif := lifecycle_reach hfresh hd
  constructor
  · intro l c' hste
    obtain ⟨d', hste', hfollows'⟩ := hfollows.step hste
    rw [hfollows.world, hfollows'.world]
    exact hlif.change hste'
  · intro columns hcol hstate c' hc'
    obtain ⟨d', hd', hfollows'⟩ := hfollows.reach hc'
    rw [hfollows.world] at hcol
    obtain ⟨hcla, hurl⟩ := (hlif.claimed hcol hstate).reach hd'
    refine ⟨?_, fun i p hi => ?_⟩
    · rw [hfollows'.world]
      exact hcla.revoking
    · obtain ⟨r, hr, heq⟩ := hfollows.returned (hurl i p (hfollows'.done hi))
      rw [hr, ← Stage.finished.inj heq]

/-- A revocation claims the row of a creation that has only just inserted it. -/
theorem revoking_is_absorbing_at_early_claim :
    ∃ c, Reach (system sample_settings sample_connection true unconstrained) (fun _ _ _ => True)
        (initial sample_settings sample_connection sample_callers empty_world) c ∧
      c.world.db.columns = some ⟨none, none, none, .Revoking, 0, 0⟩ ∧
      ∀ c', Reach (system sample_settings sample_connection true unconstrained)
          (fun _ _ _ => True) c c' →
        ∀ p, c'.pool .create ≠ .live (.done (.ok (.provisioned p))) := by
  have h₀ : Reach (system sample_settings sample_connection true unconstrained) (fun _ _ _ => True)
    (initial sample_settings sample_connection sample_callers empty_world) _ := .refl
  have h₁ := reach_stored h₀ .create (.insert_provisioning sample_connection) rfl trivial
  have h₂ := reach_stored h₁ (.revoke 0) (.claim_for_revocation operator_principal) rfl trivial
  refine ⟨_, h₂, rfl, fun c' hc' p hp => ?_⟩
  have habs := revoking_is_absorbing sample_settings sample_connection sample_callers true
    unconstrained empty_world rfl _ h₂
  -- At the claim the creation is still waiting for the provider.
  have hurl := (habs.2 _ rfl rfl c' hc').2 .create p hp
  exact Bool.noConfusion (congrArg Thread.running hurl)

end SovereignConfig.Managed
