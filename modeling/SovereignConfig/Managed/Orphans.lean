/-
Accounts without a row. A creation may make its account after a revocation has looked for it; the
invariant is that an account whose row is gone has a creation still `Responsible` for it.
-/
import SovereignConfig.Managed.Revocation
import SovereignConfig.Managed.Trail

namespace SovereignConfig.Managed

open Lib Text Function

def Taken (db : Db) : Prop :=
  ∀ columns, db.columns = some columns → columns.state = .Revoking

/-- No revocation is told there is no account while there is one; and a creation whose account
exists and whose row is taken is not lost: it does not crash, its lookup finds the account, and
its deletion is confirmed. -/
structure Careful (w : World) (l : Turn) (_ : World) : Prop where
  found : ∀ n u, l = .asked (.revoke n) (.provider (.find_account u)) (.ok none) →
    w.account = none
  alive : w.account.isSome = true → Taken w.db → l ≠ .crashed .create
  probed : w.account.isSome = true → Taken w.db → ∀ u answer,
    l = .asked .create (.provider (.find_account u)) answer →
      ∃ id, answer = (.ok (some id) : Except ProviderError (Option AccountId))
  undone : w.account.isSome = true → Taken w.db → ∀ id answer,
    l = .asked .create (.provider (.delete_account id)) answer →
      answer = (.ok () : Except ProviderError Unit) ∨
        answer = (.error .NotFound : Except ProviderError Unit)

def Identified (account : Option ProviderAccount) (id : AccountId) : Prop :=
  ∀ present, account = some present → present.account = id

theorem identified_none {id : AccountId} : Identified none id := by
  intro present hnone
  simp at hnone

def Stage.unborn : Stage → Bool
  | inserting _ | calling _ => true
  | _ => false

def Stage.target : Stage → Option AccountId
  | recording _ p | listing _ p | identifying _ p _ | granting _ p | grouping _ p
  | completing _ p _ => some p.account
  | undoing id => some id
  | _ => none

def Stage.responsible : Stage → Bool
  | recording .. | listing .. | identifying .. | granting .. | grouping .. | completing ..
  | undoing _ | probing .. => true
  | _ => false

section Invariant

variable {settings : ManagedSettings} {connection : Connection} {faulty : Bool}
  {callers : Callers} {d d' : Staged settings connection}
  {l : Turn}

def Responsible (d : Staged settings connection) : Prop :=
  ∃ s, d.stage .create = some s ∧ s.responsible = true

structure Kept (d : Staged settings connection) : Prop where
  life : Lifecycle d
  own : Own d
  claimed : ∀ i s row, d.stage i = some s → s.claimed_row = some row → Claimed d
  unborn : ∀ s, d.stage .create = some s → s.unborn = true → d.world.account = none ∧
    (∀ columns, d.world.db.columns = some columns → columns.provider_user_id = none) ∧
    ∀ i actor row id, d.stage i ≠ some (.deleting actor row id)
  recorded : ∀ columns id, d.world.db.columns = some columns →
    columns.provider_user_id.bind AccountId.parse = some id → Identified d.world.account id
  deleting : ∀ i actor row id, d.stage i = some (.deleting actor row id) →
    Identified d.world.account id
  creating : ∀ s id, d.stage .create = some s → s.target = some id →
    Identified d.world.account id
  probing : ∀ u n, d.stage .create = some (.probing u n) →
    d.world.account = none ∨ u = connection.username
  discarding : ∀ compensating, d.stage .create = some (.discarding compensating) →
    d.world.account = none
  removing : ∀ i actor row, d.stage i = some (.removing actor row) →
    d.world.account = none ∨ Responsible d
  gone : d.world.db.columns = none → d.world.account = none ∨ Responsible d

theorem kept_initial {w : World} (hrow : w.db.columns = none) (hacc : w.account = none) :
    Kept (staged settings connection callers w) := by
  have hsta : ∀ i s, (staged settings connection callers w).stage i = some s →
      s = start connection callers i := fun i s hs => (Option.some.inj hs).symm
  have hnone : ∀ id, Identified (staged settings connection callers w).world.account id := by
    intro id
    rw [staged, hacc]
    exact identified_none
  refine ⟨lifecycle_initial hrow, own_initial, fun i s row hs hcla => ?_,
    fun s hs hunb => ⟨hacc, fun columns hcol => ?_, fun i actor row id hi => ?_⟩,
    fun _ id _ _ => hnone id, fun _ _ _ id _ => hnone id, fun _ id _ _ => hnone id,
    fun _ _ _ => Or.inl hacc, fun _ _ => hacc, fun _ _ _ _ => Or.inl hacc,
    fun _ => Or.inl hacc⟩
  · rw [hsta i s hs, (start_unclaimed callers i).1] at hcla
    simp at hcla
  · rw [staged, hrow] at hcol
    simp at hcol
  · have hunc := (@start_unclaimed connection callers i).1
    rw [← hsta i _ hi] at hunc
    exact absurd hunc (by simp [Stage.claimed_row])

/-! ## What a step does to the account -/

theorem step_account (hd : Cast d)
    (h : (machine settings connection).Step
      (system settings connection faulty (documented connection.username)) d l d') :
    (∀ present', d'.world.account = some present' →
      ∃ present, d.world.account = some present ∧ present.account = present'.account) ∨
    ∃ c s' answer, d.stage .create = some (.calling c) ∧
      l = .asked .create (.provider (.create_account c.connection.username)) answer ∧
      d'.stage = Function.update d.stage .create (some s') ∧
      Next settings connection (.calling c)
        (.provider (.create_account c.connection.username)) answer s' ∧
      Contract connection.username true (.create_account c.connection.username) d.world.account
        answer d'.world.account ∧ d'.world.db = d.world.db := by
  have hsam : d'.world.account = d.world.account → ∀ present',
      d'.world.account = some present' →
        ∃ present, d.world.account = some present ∧ present.account = present'.account :=
    fun heq present' haft => ⟨present', heq ▸ haft, rfl⟩
  cases h with
  | @asked i s s' q a w hi hnex hser =>
    cases q with
    | storage statement => exact Or.inl (hsam hser.2.1)
    | provider call =>
      by_cases hcall : ∃ name, call = .create_account name
      · obtain ⟨name, rfl⟩ := hcall
        obtain rfl := hd.create hi (Next.create_account hnex)
        have hcal : ∃ c, s = .calling c ∧ name = c.connection.username := by
          cases hnex <;> exact ⟨_, rfl, rfl⟩
        obtain ⟨c, rfl, rfl⟩ := hcal
        exact Or.inr ⟨c, s', a, hi, rfl, rfl, hnex, hser.2.2, hser.2.1⟩
      · refine Or.inl fun present' haft => ?_
        obtain ⟨present, hbef, hid, -⟩ :=
          Contract.kept hser.2.2 (fun name hnam => hcall ⟨name, hnam⟩) haft
        exact ⟨present, hbef, hid⟩
  | crashed hi hope hcra => exact Or.inl (hsam (congrArg World.account hcra))
  | idled hidl => exact Or.inl (hsam hidl.2.2)

variable {account' : Option ProviderAccount} {id : AccountId} {columns' : Columns} {q : Request}
  {s s' : Stage} {answer : Except Status Unit} {actor : Actor} {i : CallId} {row : ConnectionRow}

theorem Identified.kept {account : Option ProviderAccount} (hd : Identified account id)
    (h : ∀ present', account' = some present' →
      ∃ present, account = some present ∧ present.account = present'.account) :
    Identified account' id := by
  intro present' haft
  obtain ⟨present, hbef, hid⟩ := h present' haft
  rw [← hid]
  exact hd present hbef

theorem none_kept
    (h : ∀ present', account' = some present' →
      ∃ present, (none : Option ProviderAccount) = some present ∧
        present.account = present'.account) : account' = none := by
  cases haft : account' with
  | none => rfl
  | some present' =>
    obtain ⟨present, hbef, -⟩ := h present' haft
    simp at hbef

theorem Effect.user_id {now : OffsetDateTime} {statement : Statement} {answer : statement.Answer}
    {db db' : Db} (h : Effect settings connection now statement db answer db')
    (hcol' : db'.columns = some columns') :
    columns'.provider_user_id = none ∨
      (∃ columns, db.columns = some columns ∧
        columns.provider_user_id = columns'.provider_user_id) ∨
      ∃ p, statement = .record_provider_user p ∧
        columns'.provider_user_id = some p.account.as_str := by
  cases h with
  | inserted =>
    obtain rfl := Option.some.inj hcol'
    exact Or.inl rfl
  | @user_noted account =>
    obtain ⟨columns, -, rfl⟩ := Option.map_eq_some_iff.mp hcol'
    exact Or.inr (Or.inr ⟨account, rfl, rfl⟩)
  | credential_noted =>
    obtain ⟨columns, hcol, rfl⟩ := Option.map_eq_some_iff.mp hcol'
    exact Or.inr (Or.inl ⟨columns, hcol, rfl⟩)
  | deleted | deleted_recorded => exact nomatch hcol'
  | moved hcol | moved_recorded hcol | marked hcol | claimed hcol =>
    obtain rfl := Option.some.inj hcol'
    exact Or.inr (Or.inl ⟨_, hcol, rfl⟩)
  | _ => exact Or.inr (Or.inl ⟨columns', hcol', rfl⟩)

theorem Next.unborn {a : q.Answer} (h : Next settings connection s q a s')
    (hs' : s'.unborn = true) : s.unborn = true := by
  cases h <;> simp_all [Stage.unborn]

theorem Next.target {a : q.Answer} (h : Next settings connection s q a s')
    (hs' : s'.target = some id) :
    s.target = some id ∨ (∃ c, s = .calling c) ∨ ∃ u n, s = .probing u n := by
  cases h <;> simp_all [Stage.target]

theorem Next.records {p : ProvisionedAccount}
    (h : Next settings connection s (.storage (.record_provider_user p)) answer s') :
    s.role = some .create ∧ s.unborn = false ∧ s.target = some p.account := by
  cases h <;> simp [Stage.role, Stage.unborn, Stage.target]

theorem Next.discards (h : Next settings connection s (.storage .delete_connection) answer s') :
    ∃ compensating, s = .discarding compensating := by
  cases h <;> exact ⟨_, rfl⟩

theorem Next.removes {event : AuditEvent}
    (h : Next settings connection s (.storage (.delete_connection_recorded actor event)) answer
      s') : ∃ row, s = .removing actor row := by
  cases h <;> exact ⟨_, rfl⟩

theorem Next.inserts {inserted : Connection}
    (h : Next settings connection s (.storage (.insert_provisioning inserted)) answer s') :
    ∃ c, s = .inserting c := by
  cases h <;> exact ⟨_, rfl⟩

/-- A creation is not responsible for anything before its first step. -/
theorem create_not_responsible
    (h : (machine settings connection).Conforms (operation settings connection callers .create) s) :
    s.responsible = false := by
  cases hc : authorize_create (.ok connection.connection_id) callers.create with
  | error e =>
    simp only [operation, create, hc] at h
    obtain rfl : s = .finished (.error e) := h
    rfl
  | ok c =>
    simp only [operation, create, hc] at h
    obtain ⟨s', hnex, -⟩ := h.2 (.ok ())
    obtain ⟨c, rfl⟩ := Next.inserts hnex
    rfl

/-! ## The step -/

theorem unborn_step
    (h : (machine settings connection).Step
      (system settings connection faulty (documented connection.username)) d l d')
    (hs : d'.stage .create = some s) (hunb : s.unborn = true) :
    ∃ t, d.stage .create = some t ∧ t.unborn = true := by
  rcases h.stage hs with hbef | ⟨t, q, a, -, ht, hnex, -⟩
  · exact ⟨s, hbef, hunb⟩
  · exact ⟨t, ht, hnex.unborn hunb⟩

theorem Kept.not_calling (hd : Kept d)
    (h : d.world.account ≠ none ∨
      (∃ columns, d.world.db.columns = some columns ∧ columns.provider_user_id ≠ none) ∨
      ∃ i actor row id, d.stage i = some (.deleting actor row id)) (c : Creation) :
    d.stage .create ≠ some (.calling c) := by
  intro hc
  obtain ⟨hacc, hids, hdel⟩ := hd.unborn _ hc rfl
  rcases h with hne | ⟨columns, hcol, hne⟩ | ⟨i, actor, row, id, hi⟩
  · exact hne hacc
  · exact hne (hids columns hcol)
  · exact hdel i actor row id hi

section Step

variable (hd : Kept d) (h : (machine settings connection).Step
  (system settings connection faulty (documented connection.username)) d l d')
include hd h

theorem Kept.account_unborn (hs : d'.stage .create = some s) (hunb : s.unborn = true) :
    d'.world.account = none := by
  obtain ⟨t, ht, htun⟩ := unborn_step h hs hunb
  rcases step_account hd.life.cast h with hkep | ⟨c, s', answer, -, -, hsta, hnex, -, -⟩
  · rw [(hd.unborn t ht htun).1] at hkep
    exact none_kept hkep
  · rw [hsta, update_self] at hs
    obtain rfl := Option.some.inj hs
    cases hnex <;> exact absurd hunb (by simp [Stage.unborn])

theorem Kept.keeps (hcal : ∀ c, d.stage .create ≠ some (.calling c)) :
    ∀ present', d'.world.account = some present' →
      ∃ present, d.world.account = some present ∧ present.account = present'.account := by
  rcases step_account hd.life.cast h with hkep | ⟨c, -, -, hc, -⟩
  · exact hkep
  · exact absurd hc (hcal c)

theorem Kept.claimed_step (hs' : d'.stage i = some s') (hrow : s'.claimed_row = some row) :
    Claimed d' := by
  rcases h.stage hs' with hbef | ⟨s, q, a, -, hs, hnex, hser⟩
  · exact (hd.claimed i s' row hbef hrow).step h
  · rcases Next.claim hnex hrow with hbef | ⟨principal, answer, heq, rfl⟩
    · exact (hd.claimed i s row hs hbef).step h
    · cases heq
      obtain ⟨columns, -, -, hdb⟩ := Stored.claimed hser
      exact (hd.life.step h).claimed (congrArg Db.columns hdb) rfl

theorem Kept.deletes (hs' : d'.stage i = some (.deleting actor row id)) :
    (∃ s, d.stage i = some s ∧ s = .deleting actor row id) ∨
      Identified d'.world.account id ∧ ((∃ columns, d.world.db.columns = some columns ∧
        columns.provider_user_id ≠ none) ∨ d.world.account ≠ none) := by
  rcases h.stage hs' with hbef | ⟨s, q, a, -, hs, hnex, hser⟩
  · exact Or.inl ⟨_, hbef, rfl⟩
  · refine Or.inr ?_
    cases hnex with
    | claimed_known hid =>
      obtain ⟨columns, hcol, rfl, -⟩ := Stored.claimed hser
      refine ⟨?_, Or.inl ⟨columns, hcol, fun hnone => ?_⟩⟩
      · rw [hser.2.1]
        exact hd.recorded columns id hcol hid
      · simp [ConnectionRow.account, hnone] at hid
    | located =>
      obtain ⟨present, hpre, rfl⟩ :=
        hser.2.2.2 (username_own (hd.own i _ row hs rfl))
      refine ⟨fun present' haft => ?_, Or.inr (by simp [hpre])⟩
      rw [hser.2.2.1, hpre] at haft
      exact congrArg ProviderAccount.account (Option.some.inj haft).symm

theorem Kept.unborn_next (hs : d'.stage .create = some s) (hunb : s.unborn = true) :
    d'.world.account = none ∧
      (∀ columns, d'.world.db.columns = some columns → columns.provider_user_id = none) ∧
      ∀ i actor row id, d'.stage i ≠ some (.deleting actor row id) := by
  obtain ⟨t, ht, htun⟩ := unborn_step h hs hunb
  obtain ⟨hacc, hids, hdel⟩ := hd.unborn t ht htun
  refine ⟨hd.account_unborn h hs hunb, fun columns' hcol' => ?_, fun i actor row id hi => ?_⟩
  · rcases step_db h with hkep | ⟨i, u, u', statement, answer, -, hi, hnex, -, answer', hdon⟩
    · rw [hkep] at hcol'
      exact hids columns' hcol'
    · rcases hdon.user_id hcol' with hnone | ⟨columns, hcol, heq⟩ | ⟨p, rfl, -⟩
      · exact hnone
      · rw [← heq]
        exact hids columns hcol
      · -- Recording an account is past asking for it.
        obtain ⟨hrol, hbor, -⟩ := Next.records hnex
        obtain rfl := hd.life.cast.create hi hrol
        obtain rfl := Option.some.inj (hi.symm.trans ht)
        exact absurd htun (by simp [hbor])
  · rcases hd.deletes h hi with ⟨u, hu, rfl⟩ | ⟨-, ⟨columns, hcol, hne⟩ | hne⟩
    · exact hdel i actor row id hu
    · exact hne (hids columns hcol)
    · exact hne hacc

theorem Kept.recorded_next (hcol' : d'.world.db.columns = some columns')
    (hid : columns'.provider_user_id.bind AccountId.parse = some id) :
    Identified d'.world.account id := by
  have hrec : ∀ columns, d.world.db.columns = some columns →
      columns.provider_user_id = columns'.provider_user_id → Identified d'.world.account id := by
    intro columns hcol heq
    rw [← heq] at hid
    refine (hd.recorded columns id hcol hid).kept (hd.keeps h (hd.not_calling ?_))
    refine Or.inr (Or.inl ⟨columns, hcol, fun hnone => ?_⟩)
    simp [hnone] at hid
  rcases step_db h with hkep | ⟨i, s, s', statement, answer, rfl, hi, hnex, -, answer', hdon⟩
  · rw [hkep] at hcol'
    exact hrec columns' hcol' rfl
  · rcases hdon.user_id hcol' with hnone | ⟨columns, hcol, heq⟩ | ⟨p, rfl, heq⟩
    · simp [hnone] at hid
    · exact hrec columns hcol heq
    · obtain ⟨hrol, hbor, htar⟩ := Next.records hnex
      obtain rfl := hd.life.cast.create hi hrol
      rw [heq, Option.bind_some, AccountId.parse_as_str] at hid
      obtain rfl := Option.some.inj hid
      refine (hd.creating s _ hi htar).kept (hd.keeps h fun c hc => ?_)
      obtain rfl := Option.some.inj (hi.symm.trans hc)
      exact absurd hbor (by simp [Stage.unborn])

theorem Kept.creating_next (hs' : d'.stage .create = some s') (htar : s'.target = some id) :
    Identified d'.world.account id := by
  have hkep : ∀ s, d.stage .create = some s → s.target = some id →
      Identified d'.world.account id := by
    intro s hs hbef
    refine (hd.creating s id hs hbef).kept (hd.keeps h fun c hc => ?_)
    obtain rfl := Option.some.inj (hs.symm.trans hc)
    exact absurd hbef (by simp [Stage.target])
  rcases h.stage hs' with hbef | ⟨s, q, a, -, hs, hnex, hser⟩
  · exact hkep s' hbef htar
  · rcases Next.target hnex htar with hbef | ⟨c, rfl⟩ | ⟨u, n, rfl⟩
    · exact hkep s hs hbef
    · obtain ⟨hnone, -, -⟩ := hd.unborn _ hs rfl
      cases hnex with
      | created =>
        obtain rfl := Option.some.inj htar
        intro present hpre
        by_cases hnam : c.connection.username = connection.username
        · obtain ⟨account, haft, hid, -⟩ := Contract.asked_and_given hser.2.2 hnam
          obtain rfl := Option.some.inj (haft.symm.trans hpre)
          exact hid
        · rw [Contract.asked_elsewhere hser.2.2 hnam, hnone] at hpre
          simp at hpre
      | create_unknown => exact absurd htar (by simp [Stage.target])
      | create_refused => exact absurd htar (by simp [Stage.target])
    · cases hnex with
      | probe_found =>
        obtain rfl := Option.some.inj htar
        rw [hser.2.2.1]
        rcases hd.probing _ _ hs with hnone | hnam
        · rw [hnone]
          exact identified_none
        · obtain ⟨present, hpre, rfl⟩ := hser.2.2.2 hnam
          intro present' haft
          exact congrArg ProviderAccount.account (Option.some.inj (haft.symm.trans hpre))
      | probe_empty => exact absurd htar (by simp [Stage.target])
      | probe_exhausted => exact absurd htar (by simp [Stage.target])
      | probe_failed => exact absurd htar (by simp [Stage.target])

theorem Kept.probing_next {u : Text} {n : ℕ} (hs' : d'.stage .create = some (.probing u n)) :
    d'.world.account = none ∨ u = connection.username := by
  rcases h.stage hs' with hbef | ⟨s, q, a, -, hs, hnex, hser⟩
  · refine (hd.probing u n hbef).imp_left fun hnone => ?_
    have hkee := hd.keeps h (by simp [hbef])
    rw [hnone] at hkee
    exact none_kept hkee
  · cases hnex with
    | @create_unknown c =>
      by_cases hnam : c.connection.username = connection.username
      · exact Or.inr hnam
      · exact Or.inl ((Contract.asked_elsewhere hser.2.2 hnam).trans (hd.unborn _ hs rfl).1)
    | probe_empty =>
      rw [hser.2.2.1]
      exact hd.probing _ _ hs

theorem Kept.discarding_next {compensating : Bool}
    (hs' : d'.stage .create = some (.discarding compensating)) :
    d'.world.account = none := by
  rcases h.stage hs' with hbef | ⟨s, q, a, -, hs, hnex, hser⟩
  · have hkee := hd.keeps h (by simp [hbef])
    rw [hd.discarding _ hbef] at hkee
    exact none_kept hkee
  · cases hnex with
    | create_refused hamb hinv =>
      exact (Contract.asked_in_vain hser.2.2 hamb hinv).trans (hd.unborn _ hs rfl).1
    | @undone id answer hans =>
      have haft : d'.world.account = without d.world.account id := by
        rcases hans with rfl | rfl <;> exact hser.2.2
      rw [haft, without_eq_none]
      exact hd.creating _ _ hs rfl

/-- **The creation stays responsible.** With the row taken, an account that has been left to the
creation, or is not there, is so after the step. -/
theorem Kept.watched (hc : Careful d.world l d'.world) (htak : Taken d.world.db)
    (hwat : d.world.account = none ∨ Responsible d) :
    d'.world.account = none ∨ Responsible d' := by
  cases hacc : d.world.account with
  | none =>
    rcases step_account hd.life.cast h with hkep | ⟨c, s', answer, hs, -, hsta, hnex, hbor, -⟩
    · rw [hacc] at hkep
      exact Or.inl (none_kept hkep)
    · rw [hacc] at hbor
      have hs' : d'.stage .create = some s' := by rw [hsta, update_self]
      cases hnex with
      | created => exact Or.inr ⟨_, hs', rfl⟩
      | create_unknown => exact Or.inr ⟨_, hs', rfl⟩
      | create_refused hamb hinv =>
        exact Or.inl (Contract.asked_in_vain hbor hamb hinv)
  | some present =>
    obtain ⟨s, hs, hres⟩ := hwat.resolve_left (by simp [hacc])
    have hsom : d.world.account.isSome = true := by simp [hacc]
    cases h with
    | @asked i t t' q a w hi hnex hser =>
      by_cases hcre : i = .create
      · subst hcre
        obtain rfl := Option.some.inj (hi.symm.trans hs)
        by_cases hnex' : t'.responsible = true
        · exact Or.inr ⟨t', update_self CallId.create (some t') d.stage, hnex'⟩
        · -- The ways out: completing needs a row that is not taken, and the rest is excluded.
          cases hnex with
          | completed =>
            obtain ⟨columns, hcol, hstate, -⟩ := Stored.moved hser
            exact absurd (htak columns hcol) (by simp [hstate])
          | @undone id answer hans =>
            refine Or.inl ?_
            have haft : w.account = without d.world.account id := by
              rcases hans with rfl | rfl <;> exact hser.2.2
            exact haft.trans (without_eq_none.mpr (hd.creating _ _ hs rfl))
          | not_undone herr =>
            rcases hc.undone hsom htak _ _ rfl with hok | hnot
            · simp at hok
            · exact absurd (Except.error.inj hnot) herr
          | probe_exhausted =>
            obtain ⟨id, hid⟩ := hc.probed hsom htak _ _ rfl
            exact absurd (Except.ok.inj hid) (by simp)
          | probe_failed =>
            obtain ⟨id, hid⟩ := hc.probed hsom htak _ _ rfl
            simp at hid
          | _ => simp_all [Stage.responsible]
      · exact Or.inr ⟨s, by simpa [update_of_ne (Ne.symm hcre)] using hs, hres⟩
    | @crashed i t w hi hope hcra =>
      by_cases hcre : i = .create
      · subst hcre
        exact absurd rfl (hc.alive hsom htak)
      · exact Or.inr ⟨s, by simpa [update_of_ne (Ne.symm hcre)] using hs, hres⟩
    | idled hidl => exact Or.inr ⟨s, hs, hres⟩

theorem Kept.removing_next (hc : Careful d.world l d'.world)
    (hs' : d'.stage i = some (.removing actor row)) :
    d'.world.account = none ∨ Responsible d' := by
  rcases h.stage hs' with hbef | ⟨s, q, a, rfl, hs, hnex, hser⟩
  · have hcla := hd.claimed i _ row hbef rfl
    exact hd.watched h hc hcla.revoking (hd.removing i actor row hbef)
  · have hrol : i.role = .revoke := by
      cases hnex <;> exact hd.life.cast i _ hs _ rfl
    refine Or.inl ?_
    cases hnex with
    | nowhere =>
      cases i with
      | revoke n => exact hser.2.2.1.trans (hc.found n _ rfl)
      | _ => exact absurd hrol (by simp [CallId.role])
    | @deleted _ _ id =>
      have haft : d'.world.account = without d.world.account id := hser.2.2
      exact haft.trans (without_eq_none.mpr (hd.deleting i _ _ id hs))
    | gone =>
      have hnone := hser.2.2.2 (username_own (hd.own i _ row hs rfl))
      exact hser.2.2.1.trans (credentials_eq_nil.mp hnone.symm)

theorem Kept.gone_next (hc : Careful d.world l d'.world) (hrow' : d'.world.db.columns = none) :
    d'.world.account = none ∨ Responsible d' := by
  cases hrow : d.world.db.columns with
  | none =>
    refine hd.watched h hc (fun columns hcol => ?_) (hd.gone hrow)
    rw [hrow] at hcol
    simp at hcol
  | some columns =>
    rcases step_db h with hkep | ⟨i, s, s', statement, answer, rfl, hi, hnex, -, answer', hdon⟩
    · rw [hkep, hrow] at hrow'
      simp at hrow'
    · cases hdon.writes with
      | silent _ hkee =>
        by_cases hdis : statement = .delete_connection
        · subst hdis
          obtain ⟨compensating, rfl⟩ := Next.discards hnex
          obtain rfl := hd.life.cast.create hi rfl
          have hkee := hd.keeps h (by simp [hi])
          rw [hd.discarding _ hi] at hkee
          exact Or.inl (none_kept hkee)
        · have hsom := hkee hdis (by simp [hrow])
          simp [hrow'] at hsom
      | moved _ hsom => simp [hrow'] at hsom
      | removed _ _ _ =>
        obtain ⟨row, rfl⟩ := Next.removes hnex
        have hcla := hd.claimed i _ row hi rfl
        exact hd.watched h hc hcla.revoking (hd.removing i _ row hi)

theorem Kept.step (hc : Careful d.world l d'.world) : Kept d' where
  life := hd.life.step h
  own := hd.own.step h
  claimed _ _ _ := hd.claimed_step h
  unborn _ := hd.unborn_next h
  recorded _ _ := hd.recorded_next h
  deleting i actor row id hs' := by
    rcases hd.deletes h hs' with ⟨s, hs, rfl⟩ | ⟨hid, -⟩
    · exact (hd.deleting i actor row id hs).kept
        (hd.keeps h (hd.not_calling (Or.inr (Or.inr ⟨i, actor, row, id, hs⟩))))
    · exact hid
  creating _ _ := hd.creating_next h
  probing _ _ := hd.probing_next h
  discarding _ := hd.discarding_next h
  removing _ _ _ := hd.removing_next h hc
  gone := hd.gone_next h hc

end Step

end Invariant

/-! ## No account is orphaned -/

/-- The call has taken a step and is not over. -/
def Underway (c₀ c : Config CallId World Request Request.Answer Status Reply) (i : CallId) : Prop :=
  c.pool i ≠ c₀.pool i ∧ (c.pool i).running = true

/-- **No account without a row or a call that knows of it.** -/
theorem account_not_orphaned (settings : ManagedSettings) (connection : Connection)
    (callers : Callers) (faulty : Bool) (w : World) (hrow : w.db.columns = none)
    (haccount : w.account = none) (c : Config CallId World Request Request.Answer Status Reply)
    (hc : Reach (system settings connection faulty (documented connection.username)) Careful
      (initial settings connection callers w) c) :
    c.world.account.isSome = true →
      c.world.db.columns.isSome = true ∨
        Underway (initial settings connection callers w) c .create := by
  intro hsom
  obtain ⟨d, hd, hfollows⟩ := initial_follows.reach hc
  have hkep : Kept d := hd.invariant (kept_initial hrow haccount) fun _ _ _ hd hste hcar =>
    hd.step hste hcar
  rw [hfollows.world] at hsom ⊢
  cases hcol : d.world.db.columns with
  | some columns => exact Or.inl rfl
  | none =>
    rcases hkep.gone hcol with hnone | ⟨s, hs, hres⟩
    · simp [hnone] at hsom
    · refine Or.inr ⟨fun hsam => ?_, hfollows.asking hs fun r hfin => ?_⟩
      · have hat := hfollows.at_stage .create
        rw [hsam, hs] at hat
        rw [create_not_responsible hat] at hres
        exact nomatch hres
      · subst hfin
        exact absurd hres (by simp [Stage.responsible])

/-- A revocation claims the row before the creation has asked for its account, truthfully finds
none and removes the row; then the account is made. -/
theorem account_made_without_row :
    ∃ c, Reach (system sample_settings sample_connection false
          (documented sample_connection.username)) Careful
        (initial sample_settings sample_connection create_and_revoke empty_world) c ∧
      c.world.account = some sample_provider_account ∧ c.world.db.columns = none ∧
      (∃ q k, c.pool .create = .live (.ask q k)) ∧ ∀ i ≠ .create, (c.pool i).running = false := by
  have h₀ : Reach (system sample_settings sample_connection false
      (documented sample_connection.username)) Careful
    (initial sample_settings sample_connection create_and_revoke empty_world) _ := .refl
  have h₁ := reach_stored h₀ .create (.insert_provisioning sample_connection) rfl
    ⟨nofun, nofun, nofun, nofun⟩
  have h₂ := reach_stored h₁ (.revoke 0) (.claim_for_revocation operator_principal) rfl
    ⟨nofun, nofun, nofun, nofun⟩
  have h₃ := reach_called h₂ (.revoke 0) (.find_account sample_connection.username) (.ok none) none
    rfl ⟨rfl, fun _ => trivial⟩ ⟨fun _ _ _ => rfl, nofun, nofun, nofun⟩
  have h₄ := reach_stored h₃ (.revoke 0) (.delete_connection_recorded operator_actor
    (.connection_revoked operator_actor sample_connection.subject)) rfl
    ⟨nofun, nofun, nofun, nofun⟩
  have h₅ := reach_called h₄ .create (.create_account sample_connection.username)
    (.ok sample_provisioned) (some sample_provider_account) rfl
    ⟨_, rfl, by simp [sample_provisioned, sample_provider_account],
      by simp [sample_provisioned, sample_provider_account]⟩ ⟨nofun, nofun, nofun, nofun⟩
  refine ⟨_, h₅, rfl, rfl, ⟨_, _, rfl⟩, fun i hi => ?_⟩
  cases i with
  | create => exact absurd rfl hi
  | rotate n => rfl
  | revoke n => cases n <;> rfl

/-- One creation and one revocation: the row is gone, and the creation knows of the account. -/
theorem account_known_without_row :
    ∃ c, Reach (system sample_settings sample_connection false
          (documented sample_connection.username)) Careful
        (initial sample_settings sample_connection create_and_revoke empty_world) c ∧
      c.world.account = some sample_provider_account ∧ c.world.db.columns = none ∧
      Underway (initial sample_settings sample_connection create_and_revoke empty_world) c
        .create := by
  obtain ⟨c, hc, hacc, hcol, -, -⟩ := account_made_without_row
  have hund := account_not_orphaned sample_settings sample_connection create_and_revoke false
    empty_world rfl rfl c hc (by rw [hacc]; rfl)
  exact ⟨c, hc, hacc, hcol, hund.resolve_left (by simp [hcol])⟩

/-- If the creation crashes there, every call is over, the account exists, and no row names it. -/
theorem account_orphaned :
    ∃ c, Reach (system sample_settings sample_connection false
          (documented sample_connection.username)) (fun _ _ _ => True)
        (initial sample_settings sample_connection create_and_revoke empty_world) c ∧
      c.world.account = some sample_provider_account ∧ c.world.db.columns = none ∧
      ∀ i, (c.pool i).running = false := by
  obtain ⟨c, hc, hacc, hcol, ⟨q, k, hcre⟩, hover⟩ := account_made_without_row
  have hcrash := reach_crashed (hc.imp fun _ _ _ _ => trivial) .create hcre trivial
  refine ⟨_, hcrash, hacc, hcol, fun i => ?_⟩
  by_cases hi : i = .create
  · rw [hi]
    simp [Thread.running]
  · simpa [hi] using hover i hi

end SovereignConfig.Managed
