/-
The audit trail of a connection over every interleaving. A creation that undoes itself may take,
unrecorded, the row a revocation has claimed; `Undisturbed` is exactly that it does not.
-/
import SovereignConfig.Managed.Lifecycle

namespace SovereignConfig.Managed

open Lib List

/-! ## What a statement does to the trail -/

def events (kind : EventKind) (audit : List AuditRow) : ℕ :=
  audit.countP (fun row => row.event.kind = kind)

theorem events_append (kind : EventKind) (audit : List AuditRow) (row : AuditRow) :
    events kind (audit ++ [row]) = events kind audit + if row.event.kind = kind then 1 else 0 := by
  simp [events, countP_append, countP_singleton]

theorem events_append_other {kind kind' : EventKind} {audit : List AuditRow} {row : AuditRow}
    (h : row.event.kind = kind') (hne : kind' ≠ kind) :
    events kind (audit ++ [row]) = events kind audit := by
  rw [events_append, if_neg (h ▸ hne), Nat.add_zero]

inductive Writes (now : OffsetDateTime) : Statement → Db → Db → Prop
  | silent {statement : Statement} {db db' : Db} : db'.audit = db.audit →
      (statement ≠ .delete_connection → db.columns.isSome → db'.columns.isSome) →
      Writes now statement db db'
  | moved {expected state : ManagedConnectionState} {actor : Actor} {event : AuditEvent}
      {db db' : Db} : db.columns.isSome → db'.columns.isSome →
      db'.audit = db.audit ++ [⟨actor, now, event⟩] →
      Writes now (.transition_state_recorded expected state actor event) db db'
  | removed {actor : Actor} {event : AuditEvent} {db db' : Db} : db.columns.isSome →
      db'.columns = none → db'.audit = db.audit ++ [⟨actor, now, event⟩] →
      Writes now (.delete_connection_recorded actor event) db db'

variable {db : Db} {now : OffsetDateTime} {statement : Statement}

theorem Writes.nothing :
    Writes now statement db db := .silent rfl fun _ h => h

theorem Effect.writes {settings : ManagedSettings} {connection : Connection} {db' : Db}
    {answer : statement.Answer} (h : Effect settings connection now statement db answer db') :
    Writes now statement db db' := by
  cases h with
  | user_noted => exact .silent rfl fun _ h => by simpa [Db.update] using h
  | credential_noted => exact .silent rfl fun _ h => by simpa [Db.update] using h
  | deleted => exact .silent rfl fun h _ => absurd rfl h
  | moved_recorded hcol => exact .moved (by simp [hcol]) rfl rfl
  | deleted_recorded hcol => exact .removed (by simp [hcol]) rfl rfl
  | inserted | moved | marked | claimed => exact .silent rfl fun _ _ => rfl
  | _ => exact .nothing

variable {settings : ManagedSettings} {connection : Connection}

section Events

variable {s s' : Stage} {actor : Actor} {event : AuditEvent} {answer : Except Status Unit}

theorem Next.move {expected state : ManagedConnectionState}
    {answer : Except Status (Option ConnectionRow)}
    (h : Next settings connection s
      (.storage (.transition_state_recorded expected state actor event)) answer s') :
    (event.kind = .ConnectionCreated ∧ s.role = some .create ∧ s.opening = true ∧
      s'.opening = false) ∨ event.kind = .ConnectionRotated := by
  cases h with
  | completed | overtaken | not_completed => exact Or.inl ⟨rfl, rfl, rfl, rfl⟩
  | published | outrun | not_published => exact Or.inr rfl

theorem Next.removal
    (h : Next settings connection s (.storage (.delete_connection_recorded actor event)) answer
      s') : event.kind = .ConnectionRevoked := by
  cases h <;> rfl

theorem Next.discard (h : Next settings connection s (.storage .delete_connection) answer s') :
    s.role = some .create := by
  cases h <;> rfl

end Events

/-! ## One creation, one revocation, and nothing after it -/

section Invariant

variable {faulty : Bool} {provider : Provider} {callers : Callers}

structure Gone (d : Staged settings connection) : Prop where
  cast : Cast d
  started : ∀ c, d.stage .create ≠ some (.inserting c)
  row : d.world.db.columns = none

variable {d d' : Staged settings connection}
  {l : Turn} {w : World}
  {cond : World → Turn → World → Prop} {audit : List AuditRow}

def Closed (audit : List AuditRow) : Prop :=
  ∃ before last, audit = before ++ [last] ∧ last.event.kind = .ConnectionRevoked ∧
    events .ConnectionRevoked before = 0

structure Trail (d : Staged settings connection) : Prop where
  life : Lifecycle d
  created : events .ConnectionCreated d.world.db.audit ≤ 1
  uncreated : ∀ s, d.stage .create = some s → s.opening = true →
    events .ConnectionCreated d.world.db.audit = 0
  revoked : events .ConnectionRevoked d.world.db.audit = 0 ∨ Gone d ∧ Closed d.world.db.audit

theorem trail_initial (h : w.db = ⟨none, []⟩) :
    Trail (staged settings connection callers w) where
  life := lifecycle_initial (by rw [h])
  created := by simp [staged, h, events]
  uncreated _ _ _ := by simp [staged, h, events]
  revoked := Or.inl (by simp [staged, h, events])

section Step

variable (h : (machine settings connection).Step (system settings connection faulty provider) d l
  d')
include h

theorem Gone.step (hd : Gone d) : Gone d' ∧ d'.world.db.audit = d.world.db.audit := by
  have hsta := started_step h hd.started
  rcases step_db h with hkep | ⟨i, s, s', statement, answer, -, hi, hnex, -, answer', hdon⟩
  · exact ⟨⟨hd.cast.step h, hsta, hkep ▸ hd.row⟩, by rw [hkep]⟩
  · have hnone := hdon.row_none (Lifecycle.not_inserted hd.cast hd.started hi hnex) hd.row
    refine ⟨⟨hd.cast.step h, hsta, hnone⟩, ?_⟩
    cases hdon.writes with
    | silent haud _ => exact haud
    | moved hsom => simp [hd.row] at hsom
    | removed hsom => simp [hd.row] at hsom

/-- Nothing has happened to the record of the creation. -/
theorem Trail.created_kept (hd : Trail d)
    (hsam : events .ConnectionCreated d'.world.db.audit
      = events .ConnectionCreated d.world.db.audit)
    (hrev : events .ConnectionRevoked d'.world.db.audit = 0 ∨ Gone d' ∧ Closed d'.world.db.audit) :
    Trail d' where
  life := hd.life.step h
  created := hsam ▸ hd.created
  uncreated s hs hope := by
    obtain ⟨t, ht, hopen⟩ := opening_step h hs hope
    rw [hsam]
    exact hd.uncreated t ht hopen
  revoked := hrev

theorem Trail.unwritten (hd : Trail d) (haud : d'.world.db.audit = d.world.db.audit) :
    Trail d' := by
  refine hd.created_kept h (by rw [haud]) ?_
  rw [haud]
  exact hd.revoked.imp_right fun ⟨hgon, hclo⟩ => ⟨(hgon.step h).1, hclo⟩

omit h in
theorem Trail.unrevoked (hd : Trail d) (hsom : d.world.db.columns.isSome) :
    events .ConnectionRevoked d.world.db.audit = 0 :=
  hd.revoked.resolve_right fun ⟨hgon, _⟩ => by simp [hgon.row] at hsom

theorem Trail.step (hd : Trail d) : Trail d' := by
  rcases step_db h with hkep | ⟨i, s, s', statement, answer, -, hi, hnex, hs', answer', hdon⟩
  · exact hd.unwritten h (by rw [hkep])
  · cases hdon.writes with
    | silent haud _ => exact hd.unwritten h haud
    | moved hsom _ haud =>
      rcases Next.move hnex with ⟨hkin, hrol, hopen, hlef⟩ | hkin
      · obtain rfl := hd.life.cast.create hi hrol
        have hnone := hd.uncreated s hi hopen
        refine ⟨hd.life.step h, ?_, fun t ht hope => ?_, Or.inl ?_⟩
        · rw [haud, events_append, hnone, if_pos hkin]
        · obtain rfl := Option.some.inj (hs'.symm.trans ht)
          exact absurd hope (by simp [hlef])
        · rw [haud, events_append_other hkin (by decide), hd.unrevoked hsom]
      · refine hd.created_kept h ?_ (Or.inl ?_)
        · rw [haud, events_append_other hkin (by decide)]
        · rw [haud, events_append_other hkin (by decide), hd.unrevoked hsom]
    | removed hsom hnone haud =>
      have hkin := Next.removal hnex
      refine hd.created_kept h ?_ (Or.inr ⟨?_, ?_⟩)
      · rw [haud, events_append_other hkin (by decide)]
      · exact ⟨hd.life.cast.step h, started_step h (hd.life.started hsom), hnone⟩
      · exact ⟨_, _, haud, hkin, hd.unrevoked hsom⟩

end Step

theorem trail_reach (hfre : w.db = ⟨none, []⟩)
    (h : (machine settings connection).Reach (system settings connection faulty provider) cond
      (staged settings connection callers w) d) : Trail d :=
  h.invariant (trail_initial hfre) fun _ _ _ hd hste _ => hd.step hste

theorem Closed.once (h : Closed audit) : events .ConnectionRevoked audit = 1 := by
  obtain ⟨before, last, rfl, hkin, hnone⟩ := h
  rw [events_append, hnone, if_pos hkin]

theorem Closed.last (h : Closed audit) {before after : List AuditRow} {row : AuditRow}
    (haud : audit = before ++ row :: after) (hrow : row.event.kind = .ConnectionRevoked) :
    after = [] := by
  obtain ⟨init, last, rfl, -, hnone⟩ := h
  cases after using reverseRecOn with
  | nil => rfl
  | append_singleton after end' =>
    -- Otherwise the revocation is among the events before the last, where there is none.
    have hini : init = before ++ row :: after := by
      rw [← cons_append, ← append_assoc] at haud
      exact (append_inj' haud rfl).1
    have hpos : 0 < events .ConnectionRevoked init :=
      countP_pos_iff.mpr ⟨row, by simp [hini], by simpa using hrow⟩
    omega

/-! ## A revocation that returned -/

/-- A create call does not delete the row that a revocation has claimed. -/
def Undisturbed (w : World) (l : Turn) (w' : World) : Prop :=
  ∀ answer, l = .asked .create (.storage .delete_connection) answer →
    ∀ columns, w.db.columns = some columns → columns.state = .Revoking → w'.db.columns ≠ none

def Recordable (db : Db) : Prop :=
  (∃ columns, db.columns = some columns ∧ columns.state = .Revoking) ∨
    0 < events .ConnectionRevoked db.audit

structure Accounted (d : Staged settings connection) : Prop where
  life : Lifecycle d
  claimed : ∀ i s row, d.stage i = some s → s.claimed_row = some row → Recordable d.world.db
  returned : ∀ i, d.stage i = some (.finished (.ok .revoked)) →
    0 < events .ConnectionRevoked d.world.db.audit

section Step

variable (h : (machine settings connection).Step (system settings connection faulty provider) d l
  d')
include h

theorem events_step (kind : EventKind) :
    events kind d.world.db.audit ≤ events kind d'.world.db.audit := by
  rcases step_db h with hkep | ⟨i, s, s', statement, answer, -, hi, hnex, -, answer', hdon⟩
  · rw [hkep]
  · cases hdon.writes with
    | silent haud _ => rw [haud]
    | moved _ _ haud => rw [haud, events_append]; exact Nat.le_add_right _ _
    | removed _ _ haud => rw [haud, events_append]; exact Nat.le_add_right _ _

theorem Recordable.step (hdb : Recordable d.world.db) (hd : Lifecycle d)
    (hc : Undisturbed d.world l d'.world) : Recordable d'.world.db := by
  rcases hdb with ⟨columns, hcol, hstate⟩ | hrec
  · have hcha := hd.change h
    rw [hcol] at hcha
    cases hrow : d'.world.db.columns with
    | some columns' => exact Or.inl ⟨columns', hrow, hcha.of_revoking hstate _ hrow⟩
    | none =>
      rcases step_db h with hkep | ⟨i, s, s', statement, answer, hl, hi, hnex, -, answer', hdon⟩
      · rw [hkep, hcol] at hrow
        simp at hrow
      · cases hdon.writes with
        | silent haud hkee =>
          by_cases hdis : statement = .delete_connection
          · subst hdis
            obtain rfl := hd.cast.create hi (Next.discard hnex)
            exact absurd hrow (hc answer hl columns hcol hstate)
          · have hsom := hkee hdis (by simp [hcol])
            simp [hrow] at hsom
        | moved _ hsom => simp [hrow] at hsom
        | removed _ _ haud =>
          refine Or.inr ?_
          rw [haud, events_append, if_pos (Next.removal hnex)]
          exact Nat.succ_pos _
  · exact Or.inr (lt_of_lt_of_le hrec (events_step h _))

theorem Accounted.step (hd : Accounted d) (hc : Undisturbed d.world l d'.world) :
    Accounted d' where
  life := hd.life.step h
  claimed i s' row hs' hrow := by
    rcases h.stage hs' with hbef | ⟨s, q, a, -, hs, hnex, hser⟩
    · exact (hd.claimed i s' row hbef hrow).step h hd.life hc
    · rcases Next.claim hnex hrow with hbef | ⟨principal, answer, heq, rfl⟩
      · exact (hd.claimed i s row hs hbef).step h hd.life hc
      · cases heq
        obtain ⟨columns, -, -, hdb⟩ := Stored.claimed hser
        exact Or.inl ⟨_, congrArg Db.columns hdb, rfl⟩
  returned i hi := by
    rcases h.stage hi with hbef | ⟨s, q, a, -, hs, hnex, hser⟩
    · exact lt_of_lt_of_le (hd.returned i hbef) (events_step h _)
    · cases hnex with
      | removed =>
        rcases hd.claimed i _ _ hs rfl with ⟨columns, hcol, -⟩ | hrec
        · rw [Stored.removed hser (by simp [hcol]), events_append]
          exact Nat.succ_pos _
        · exact lt_of_lt_of_le hrec (events_step h _)

end Step

theorem accounted_initial (h : w.db.columns = none) :
    Accounted (staged settings connection callers w) := by
  refine ⟨lifecycle_initial h, fun i s row hs hrow => ?_, fun i hi => ?_⟩
  · obtain rfl := Option.some.inj hs
    exact absurd hrow (by simp [(start_unclaimed callers i).1])
  · exact absurd (Option.some.inj hi) ((start_unclaimed callers i).2 _)

theorem accounted_reach (hfre : w.db.columns = none)
    (h : (machine settings connection).Reach (system settings connection faulty provider)
      Undisturbed (staged settings connection callers w) d) : Accounted d :=
  h.invariant (accounted_initial hfre) fun _ _ _ hd hste hc => hd.step hste hc

theorem Gone.reach (hd : Gone d)
    (h : (machine settings connection).Reach (system settings connection faulty provider) cond
      d d') : Gone d' ∧ d'.world.db.audit = d.world.db.audit :=  by
  induction h with
  | refl => exact ⟨hd, rfl⟩
  | step _ hste _ ih => exact ⟨(ih.1.step hste).1, (ih.1.step hste).2.trans ih.2⟩

end Invariant

/-- **The audit trail of a connection's lifecycle.** -/
theorem lifecycle_audit (settings : ManagedSettings) (connection : Connection)
    (callers : Callers) (faulty : Bool) (provider : Provider) (w : World)
    (hfresh : w.db = ⟨none, []⟩) :
    (∀ c, Reach (system settings connection faulty provider) (fun _ _ _ => True)
        (initial settings connection callers w) c →
      events .ConnectionCreated c.world.db.audit ≤ 1 ∧
      events .ConnectionRevoked c.world.db.audit ≤ 1 ∧
      ∀ before row after, c.world.db.audit = before ++ row :: after →
        row.event.kind = .ConnectionRevoked → after = []) ∧
    (∀ c, Reach (system settings connection faulty provider) Undisturbed
        (initial settings connection callers w) c →
      ∀ n, c.pool (.revoke n) = .live (.done (.ok .revoked)) →
        events .ConnectionRevoked c.world.db.audit = 1) ∧
    (∀ c l c', Reach (system settings connection faulty provider) (fun _ _ _ => True)
        (initial settings connection callers w) c →
      Step (system settings connection faulty provider) c l c' →
      ¬ Undisturbed c.world l c'.world →
      ∀ c'', Reach (system settings connection faulty provider) (fun _ _ _ => True) c' c'' →
        events .ConnectionRevoked c''.world.db.audit = 0) := by
  refine ⟨fun c hc => ?_, fun c hc n hn => ?_, fun c l c' hc hste hdis c'' hc'' => ?_⟩
  · obtain ⟨d, hd, hfollows⟩ := initial_follows.reach hc
    have htra := trail_reach hfresh hd
    rw [hfollows.world]
    refine ⟨htra.created, ?_, fun before row after haud hrow => ?_⟩
    · rcases htra.revoked with hnone | ⟨-, hclo⟩
      · omega
      · exact le_of_eq hclo.once
    · rcases htra.revoked with hnone | ⟨-, hclo⟩
      · have hpos : 0 < events .ConnectionRevoked d.world.db.audit :=
          countP_pos_iff.mpr ⟨row, by simp [haud], by simpa using hrow⟩
        omega
      · exact hclo.last haud hrow
  · obtain ⟨d, hd, hfollows⟩ := initial_follows.reach hc
    have hpos := (accounted_reach (by rw [hfresh]) hd).returned (.revoke n) (hfollows.done hn)
    rw [hfollows.world]
    rcases (trail_reach hfresh hd).revoked with hnone | ⟨-, hclo⟩
    · omega
    · exact hclo.once
  · obtain ⟨d, hd, hfollows⟩ := initial_follows.reach hc
    have htra := trail_reach hfresh hd
    obtain ⟨d', hste', hfollows'⟩ := hfollows.step hste
    obtain ⟨d'', hd'', hfollows''⟩ := hfollows'.reach hc''
    rw [hfollows.world, hfollows'.world] at hdis
    simp only [Undisturbed, not_forall, not_not] at hdis
    obtain ⟨answer, rfl, columns, hcol, -, hnone⟩ := hdis
    have hgon : Gone d' := ⟨htra.life.cast.step hste',
      started_step hste' (htra.life.started (by simp [hcol])), hnone⟩
    have haud : d'.world.db.audit = d.world.db.audit := by
      rcases step_db hste' with hkep | ⟨i, s, s', statement, answer', hl, -, -, -, _, hdon⟩
      · rw [hkep]
      · cases hl
        cases hdon.writes with
        | silent haud _ => exact haud
    rw [hfollows''.world, (hgon.reach hd'').2, haud, htra.unrevoked (by simp [hcol])]

/-- A revocation that finds no account removes the row of a creation that has only inserted it,
and is in the trail. -/
theorem lifecycle_audit_of_early_revocation :
    ∃ c, Reach (system sample_settings sample_connection true unconstrained) Undisturbed
        (initial sample_settings sample_connection sample_callers empty_world) c ∧
      c.pool (.revoke 0) = .live (.done (.ok .revoked)) ∧
      events .ConnectionRevoked c.world.db.audit = 1 := by
  have hqui : ∀ {w w' : World} {i q a}, i ≠ CallId.create → Undisturbed w (.asked i q a) w' := by
    rintro w w' i q a hi answer hl
    cases hl
    exact absurd rfl hi
  have h₀ : Reach (system sample_settings sample_connection true unconstrained) Undisturbed
    (initial sample_settings sample_connection sample_callers empty_world) _ := .refl
  have h₁ := reach_stored h₀ .create (.insert_provisioning sample_connection) rfl nofun
  have h₂ := reach_stored h₁ (.revoke 0) (.claim_for_revocation operator_principal) rfl
    (hqui nofun)
  have h₃ := reach_called h₂ (.revoke 0) (.find_account sample_connection.username) (.ok none) none
    rfl trivial (hqui nofun)
  have h₄ := reach_stored h₃ (.revoke 0) (.delete_connection_recorded operator_actor
    (.connection_revoked operator_actor sample_connection.subject)) rfl (hqui nofun)
  exact ⟨_, h₄, rfl, (lifecycle_audit sample_settings sample_connection sample_callers true
    unconstrained empty_world rfl).2.1 _ h₄ 0 rfl⟩

def create_and_revoke : Callers where
  create := sample_callers.create
  rotate := fun _ => ⟨none, none⟩
  revoke := fun n => if n = 0 then operator else ⟨none, none⟩

/-- The creation has its account and loses its listing; the revocation has claimed the row by
then. The creation undoes itself, row included; the revocation finds no account and no row, and
returns. Storage never fails and the provider keeps its contract; every call has finished, and
nothing says that the connection was revoked. -/
theorem revocation_unrecorded :
    ∃ c, Reach (system sample_settings sample_connection false
          (documented sample_connection.username)) (fun _ _ _ => True)
        (initial sample_settings sample_connection create_and_revoke empty_world) c ∧
      c.pool (.revoke 0) = .live (.done (.ok .revoked)) ∧
      (∀ i, (c.pool i).running = false) ∧
      events .ConnectionRevoked c.world.db.audit = 0 := by
  have h₀ : Reach (system sample_settings sample_connection false
      (documented sample_connection.username)) (fun _ _ _ => True)
    (initial sample_settings sample_connection create_and_revoke empty_world) _ := .refl
  have h₁ := reach_stored h₀ .create (.insert_provisioning sample_connection) rfl trivial
  have h₂ := reach_called h₁ .create (.create_account sample_connection.username)
    (.ok sample_provisioned) (some sample_provider_account) rfl
    ⟨_, rfl, by simp [sample_provisioned, sample_provider_account],
      by simp [sample_provisioned, sample_provider_account]⟩ trivial
  have h₃ := reach_stored h₂ (.revoke 0) (.claim_for_revocation operator_principal) rfl trivial
  have h₄ := reach_stored h₃ .create (.record_provider_user sample_provisioned) rfl trivial
  have h₅ := reach_called h₄ .create (.find_credentials sample_connection.username)
    (.error .Unavailable) (some sample_provider_account) rfl ⟨rfl, fun _ => trivial⟩ trivial
  have h₆ := reach_called h₅ .create (.delete_account sample_account) (.ok ()) none rfl rfl trivial
  have h₇ := reach_stored h₆ .create .delete_connection rfl trivial
  have h₈ := reach_called h₇ (.revoke 0) (.find_account sample_connection.username) (.ok none) none
    rfl ⟨rfl, fun _ => trivial⟩ trivial
  have h₉ := reach_stored h₈ (.revoke 0) (.delete_connection_recorded operator_actor
    (.connection_revoked operator_actor sample_connection.subject)) rfl trivial
  refine ⟨_, h₉, rfl, fun i => ?_, rfl⟩
  match i with
  | .create => rfl
  | .rotate n => rfl
  | .revoke 0 => rfl
  | .revoke (n + 1) => rfl

end SovereignConfig.Managed
