/-
What a revocation that returned proves. An empty lookup is not authoritative: on that path it
returns although the account may still be there (`Misleads`).
-/
import SovereignConfig.Managed.Stages

namespace SovereignConfig.Managed

open Lib Text

/-- An answer that a revocation takes for absence, while `account` is there. -/
def Misleads (account : ProviderAccount) : Asked → Prop
  | ⟨.provider (.find_account _), .ok none⟩ => True
  | ⟨.provider (.delete_account id), .ok ()⟩ => account.account ≠ id
  | _ => False

variable {account : ProviderAccount}

theorem misleads_found_none {u : Text} :
    Misleads account ⟨.provider (.find_account u), .ok none⟩ := trivial

theorem misleads_deleted {id : AccountId} :
    Misleads account ⟨.provider (.delete_account id), .ok ()⟩ ↔ account.account ≠ id := Iff.rfl

/-- No answer misleads about the account that is there. -/
def Unmisled (w : World) (l : Turn) : Prop :=
  ∀ i q a, l = .asked i q a → ∀ account, w.account = some account → ¬ Misleads account ⟨q, a⟩

/-- Only revocations take steps. -/
def ByRevocations (l : Turn) : Prop :=
  ∀ i q a, l = .asked i q a → i.role = .revoke

/-! ## Revocations among themselves -/

variable {settings : ManagedSettings} {connection : Connection} {faulty : Bool}

section Pool

variable {callers : Callers} {d d' : Staged settings connection}
  {l : Turn}

def Own (d : Staged settings connection) : Prop :=
  ∀ i s row, d.stage i = some s → s.claimed_row = some row → row.connection = connection

variable {w : World} {row : ConnectionRow}

theorem own_initial : Own (staged settings connection callers w) := by
  intro i s row hs hrow
  obtain rfl := Option.some.inj hs
  exact absurd hrow (by simp [(start_unclaimed callers i).1])

theorem Own.step {provider : Provider} (hd : Own d)
    (h : (machine settings connection).Step (system settings connection faulty provider) d l d') :
    Own d' := by
  intro i s' row hs' hrow
  rcases h.stage hs' with hbef | ⟨s, q, a, -, hs, hnex, hser⟩
  · exact hd i s' row hbef hrow
  · rcases Next.claim hnex hrow with hbef | ⟨principal, answer, heq, rfl⟩
    · exact hd i s row hs hbef
    · cases heq
      obtain ⟨columns, -, rfl, -⟩ := Stored.claimed hser
      rfl

structure Proven (d : Staged settings connection) : Prop where
  cast : Cast d
  own : Own d
  removing : ∀ i actor row, d.stage i = some (.removing actor row) → d.world.account = none
  revoked : ∀ i, d.stage i = some (.finished (.ok .revoked)) → d.world.account = none

theorem proven_initial : Proven (staged settings connection callers w) where
  cast := staged_cast
  own := own_initial
  removing i actor row hs := by
    have hrow := (@start_unclaimed connection callers i).1
    rw [Option.some.inj hs] at hrow
    exact absurd hrow (by simp [Stage.claimed_row])
  revoked i hs := absurd (Option.some.inj hs) ((start_unclaimed callers i).2 _)

theorem account_gone_step (hd : Cast d)
    (h : (machine settings connection).Step
      (system settings connection faulty (documented connection.username)) d l d')
    (hl : ByRevocations l) (hgon : d.world.account = none) : d'.world.account = none := by
  cases h with
  | @asked i s s' q a w hi hnex hser =>
    cases q with
    | storage statement => exact hser.2.1.trans hgon
    | provider call =>
      obtain ⟨-, -, hcon⟩ := hser
      rw [hgon] at hcon
      refine Contract.none hcon fun name hcal => ?_
      subst hcal
      have hrol := hd i s hi .create (Next.create_account hnex)
      rw [hl i _ a rfl] at hrol
      simp at hrol
  | crashed hi hope hcra => exact (congrArg World.account hcra).trans hgon
  | idled hidl => exact hidl.2.2.trans hgon

theorem username_own (h : row.connection = connection) :
    username_of connection row = connection.username := by
  rw [username_of, h]
  rfl

theorem removing_proves {i : CallId} {s : Stage} {q : Request} {a : q.Answer} {actor : Actor}
    (hd : Proven d) (hi : d.stage i = some s)
    (hnex : Next settings connection s q a (.removing actor row))
    (hser : Served settings connection faulty (documented connection.username) i q d.world a
      d'.world) (hc : Unmisled d.world (.asked i q a)) : d'.world.account = none := by
  cases hnex with
  | nowhere =>
    cases hacc : d.world.account with
    | none => exact hser.2.2.1.trans hacc
    | some account => exact absurd misleads_found_none (hc i _ _ rfl account hacc)
  | deleted =>
    rw [hser.2.2, without_eq_none]
    intro account hacc
    by_contra hne
    exact hc i _ _ rfl account hacc (misleads_deleted.mpr hne)
  | gone =>
    have hnone := hser.2.2.2 (username_own (hd.own i _ row hi rfl))
    rw [hser.2.2.1]
    exact credentials_eq_nil.mp hnone.symm

theorem Proven.step (hd : Proven d)
    (h : (machine settings connection).Step
      (system settings connection faulty (documented connection.username)) d l d')
    (hl : ByRevocations l) (hc : Unmisled d.world l) : Proven d' where
  cast := hd.cast.step h
  own := hd.own.step h
  removing i actor row hs' := by
    rcases h.stage hs' with hbef | ⟨s, q, a, rfl, hs, hnex, hser⟩
    · exact account_gone_step hd.cast h hl (hd.removing i actor row hbef)
    · exact removing_proves hd hs hnex hser hc
  revoked i hs' := by
    rcases h.stage hs' with hbef | ⟨s, q, a, -, hs, hnex, hser⟩
    · exact account_gone_step hd.cast h hl (hd.revoked i hbef)
    · cases hnex with
      | removed => exact account_gone_step hd.cast h hl (hd.removing i _ _ hs)

end Pool

/-! ## One revocation on its own -/

section Alone

variable {n : ℕ} {w w' : World} {tr : List Asked}

/-- Some answer of the run misleads about the account that is there. -/
def Misled (account : Option ProviderAccount) (tr : List Asked) : Prop :=
  ∃ present, account = some present ∧ ∃ asked ∈ tr, Misleads present asked

theorem misled_cons {account : Option ProviderAccount} {asked : Asked} :
    Misled account (asked :: tr) ↔
      (∃ present, account = some present ∧ Misleads present asked) ∨ Misled account tr := by
  simp only [Misled, List.mem_cons, exists_eq_or_imp, and_or_left, exists_or]

variable {r : Except Status Reply} {actor : Actor} {row : ConnectionRow}

theorem alone_removing
    (h : Alone settings connection faulty (.revoke n) (.removing actor row) w tr r w') :
    w'.account = w.account ∧ ∀ account, ¬ Misled account tr := by
  obtain ⟨q, a, s', w₁, w₂, tr', rfl, hlat, hnex, hser, hres⟩ := h.asked (by simp)
  cases hnex with
  | removed | not_removed =>
    obtain ⟨-, rfl, -, hacc⟩ := alone_finished hres
    exact ⟨hacc.trans (hser.2.1.trans hlat.2.2), fun _ => by simp [Misled, Misleads]⟩

theorem alone_doubting (hrow : row.connection = connection)
    (h : Alone settings connection faulty (.revoke n) (.doubting actor row) w tr (.ok .revoked)
      w') :
    w.account = none ∧ w'.account = none ∧ ∀ account, ¬ Misled account tr := by
  obtain ⟨q, a, s', w₁, w₂, tr', rfl, hlat, hnex, hser, hres⟩ := h.asked (by simp)
  cases hnex with
  | gone =>
    have hnone := credentials_eq_nil.mp (hser.2.2.2 (username_own hrow)).symm
    obtain ⟨hacc, hcle⟩ := alone_removing hres
    refine ⟨hlat.2.2.symm.trans hnone, ?_, fun account => ?_⟩
    · rw [hacc, hser.2.2.1, hnone]
    · simp [misled_cons, hcle, Misleads]
  | not_gone | in_doubt => exact absurd (alone_finished hres).1 (by simp)

theorem alone_deleting {id : AccountId} (hrow : row.connection = connection)
    (h : Alone settings connection faulty (.revoke n) (.deleting actor row id) w tr (.ok .revoked)
      w') :
    w'.account = none ↔ ¬ Misled w.account tr := by
  obtain ⟨q, a, s', w₁, w₂, tr', rfl, hlat, hnex, hser, hres⟩ := h.asked (by simp)
  cases hnex with
  | deleted =>
    obtain ⟨hacc, hcle⟩ := alone_removing hres
    rw [hacc, hser.2.2, hlat.2.2, without_eq_none, misled_cons]
    simp [hcle, misleads_deleted]
  | not_deleted =>
    obtain ⟨-, haft, hcle⟩ := alone_doubting hrow hres
    simp [haft, misled_cons, hcle, Misleads]

theorem alone_locating (hrow : row.connection = connection)
    (h : Alone settings connection faulty (.revoke n) (.locating actor row) w tr (.ok .revoked)
      w') :
    w'.account = none ↔ ¬ Misled w.account tr := by
  obtain ⟨q, a, s', w₁, w₂, tr', rfl, hlat, hnex, hser, hres⟩ := h.asked (by simp)
  cases hnex with
  | nowhere =>
    obtain ⟨hacc, hcle⟩ := alone_removing hres
    rw [hacc, hser.2.2.1, hlat.2.2, misled_cons]
    cases w.account <;> simp [hcle, misleads_found_none]
  | located =>
    have hdel := alone_deleting hrow hres
    rw [hser.2.2.1, hlat.2.2] at hdel
    rw [hdel, misled_cons]
    simp [Misleads]
  | lookup_failed =>
    obtain ⟨-, haft, hcle⟩ := alone_doubting hrow hres
    simp [haft, misled_cons, hcle, Misleads]

theorem alone_claiming {principal : AuthenticatedPrincipal}
    (h : Alone settings connection faulty (.revoke n) (.claiming principal actor) w tr (.ok .revoked)
      w') :
    w'.account = none ↔ ¬ Misled w.account tr := by
  obtain ⟨q, a, s', w₁, w₂, tr', rfl, hlat, hnex, hser, hres⟩ := h.asked (by simp)
  have hacc : w₂.account = w.account := by
    cases hnex <;> exact hser.2.1.trans hlat.2.2
  cases hnex with
  | claimed_known =>
    obtain ⟨columns, -, hrow, -⟩ := Stored.claimed hser
    rw [alone_deleting (congrArg ConnectionRow.connection hrow) hres, hacc, misled_cons]
    simp [Misleads]
  | claimed_unknown =>
    obtain ⟨columns, -, hrow, -⟩ := Stored.claimed hser
    rw [alone_locating (congrArg ConnectionRow.connection hrow) hres, hacc, misled_cons]
    simp [Misleads]
  | not_claimed => exact absurd (alone_finished hres).1 (by simp)

end Alone

/-- **What a revocation that returned proves.** -/
theorem revocation_is_proof (settings : ManagedSettings) (connection : Connection)
    (callers : Callers) (faulty : Bool) (w : World) :
    (∀ c, Reach (system settings connection faulty (documented connection.username))
        (fun w l _ => ByRevocations l ∧ Unmisled w l) (initial settings connection callers w) c →
      ∀ n, c.pool (.revoke n) = .live (.done (.ok .revoked)) → credentials c.world.account = []) ∧
    ∀ n tr w', Call.Runs
        (Served settings connection faulty (documented connection.username) (.revoke n)) Later
        (operation settings connection callers (.revoke n)) w tr (.ok .revoked) w' →
      (credentials w'.account = [] ↔ ¬ Misled w.account tr) := by
  refine ⟨fun c hc n hn => ?_, fun n tr w' hrun => ?_⟩
  · obtain ⟨d, hd, hfollows⟩ := initial_follows.reach hc
    have hpro : Proven d :=
      hd.invariant proven_initial fun _ _ _ hd hste hcon => hd.step hste hcon.1 hcon.2
    rw [credentials_eq_nil, hfollows.world]
    exact hpro.revoked (.revoke n) (hfollows.done hn)
  · have halo := (operation_conforms callers (.revoke n)).runs hrun
    rw [credentials_eq_nil]
    cases hsta : start connection callers (.revoke n) with
    | claiming principal actor =>
      rw [hsta] at halo
      exact alone_claiming halo
    | finished r =>
      rw [hsta] at halo
      have heq := (alone_finished halo).1
      exact absurd hsta (heq ▸ (start_unclaimed callers (.revoke n)).2 _)
    | _ =>
      rw [start] at hsta
      split at hsta <;> simp at hsta

/-- A revocation that deletes the recorded account leaves no credential. -/
theorem revocation_is_proof_of_recorded_account :
    ∃ tr w', Call.Runs (Served sample_settings sample_connection false
          (documented sample_connection.username) (.revoke 0)) Later
        (operation sample_settings sample_connection sample_callers (.revoke 0)) active_world tr
        (.ok .revoked) w' ∧ credentials w'.account = [] := by
  have hrun : Call.Runs (Served sample_settings sample_connection false
        (documented sample_connection.username) (.revoke 0)) Later
      (operation sample_settings sample_connection sample_callers (.revoke 0)) active_world _
      (.ok .revoked) _ :=
    runs_stored active_world (.claim_for_revocation operator_principal)
      (runs_called _ (.delete_account sample_account) (.ok ()) none rfl
        (runs_stored _ (.delete_connection_recorded operator_actor
          (.connection_revoked operator_actor sample_connection.subject)) (runs_returned _ _)))
  refine ⟨_, _, hrun, ((revocation_is_proof sample_settings sample_connection sample_callers false
    active_world).2 0 _ _ hrun).mpr ?_⟩
  rintro ⟨account, hacc, hmis⟩
  obtain rfl := Option.some.inj hacc
  simp [Misleads, sample_provider_account] at hmis

def unknown_account_world : World :=
  ⟨0, ⟨some ⟨none, none, none, .CleanupRequired, 0, 0⟩, []⟩, some sample_provider_account⟩

/-- The row names no account and the lookup does not show it: the revocation returns, and the
credential goes on working. -/
theorem revocation_misled :
    ∃ tr w', Call.Runs (Served sample_settings sample_connection false
          (documented sample_connection.username) (.revoke 0)) Later
        (operation sample_settings sample_connection sample_callers (.revoke 0))
        unknown_account_world tr (.ok .revoked) w' ∧
      credentials w'.account = [sample_credential] :=
  ⟨_, _, runs_stored unknown_account_world (.claim_for_revocation operator_principal)
    (runs_called _ (.find_account sample_connection.username) (.ok none)
      (some sample_provider_account) ⟨rfl, fun _ => trivial⟩
      (runs_stored _ (.delete_connection_recorded operator_actor
        (.connection_revoked operator_actor sample_connection.subject)) (runs_returned _ _))), rfl⟩

end SovereignConfig.Managed
