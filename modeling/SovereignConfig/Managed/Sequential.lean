/-
Creations and rotations one after another. A rotation that takes over a row left in rotation can
settle it as if the request before had not been applied (`Misjudged`).
-/
import SovereignConfig.Managed.Stages

namespace SovereignConfig.Managed

open Lib Text

/-- The world between two calls, and the URL that was last returned. -/
structure History where
  world : World
  last : Option ConnectionUrl

def latest (last : Option ConnectionUrl) : Except Status Reply → Option ConnectionUrl
  | .ok (.provisioned p) => some p.connection_url
  | _ => last

theorem latest_error (last : Option ConnectionUrl) (e : Status) : latest last (.error e) = last :=
  rfl

/-- The last URL holds the credential that the account has now. -/
def Current (h : History) : Prop :=
  ∃ account url, h.world.account = some account ∧ h.last = some url ∧
    url.Carries account.current

/-- While the row says active, the last URL works. -/
def ActiveCurrent (h : History) : Prop :=
  ∀ columns, h.world.db.columns = some columns → columns.state = .Active → Current h

section Sequence

variable (settings : ManagedSettings) (connection : Connection) (callers : Callers)

/-- One call from start to end with nothing else running, asking `tr`. -/
abbrev Whole (i : CallId) (w : World) (tr : List Asked)
    (r : Except Status Reply) (w' : World) : Prop :=
  Call.Runs (Served settings connection false (documented connection.username) i) Later
    (operation settings connection callers i) w tr r w'

/-- Creations and rotations one after another, each meeting `cond`, with time passing between. -/
inductive Sequence (cond : History → List Asked → Prop) : History → Prop
  | start {w : World} : w.db.columns = none → w.account = none → Sequence cond ⟨w, none⟩
  | later {h : History} {w : World} : Sequence cond h → Later h.world w →
      Sequence cond ⟨w, h.last⟩
  | call {h : History} {i : CallId} {tr : List Asked}
      {r : Except Status Reply} {w : World} : Sequence cond h → i.role ≠ .revoke →
      Whole settings connection callers i h.world tr r w → cond h tr →
      Sequence cond ⟨w, latest h.last r⟩

end Sequence

variable {settings : ManagedSettings} {connection : Connection}

/-! ## Rotations -/

def undelivered : Asked → Bool
  | ⟨.provider (.replace_credential _), .error .Unavailable⟩ => true
  | _ => false

def refused : Asked → Bool
  | ⟨.provider (.replace_credential _), .error .Rejected⟩ => true
  | _ => false

def listed : Asked → Bool
  | ⟨.provider (.find_credentials _), .ok (_ :: _)⟩ => true
  | _ => false

/-- The rotation settles the row as active: its write was not delivered, or was refused with the
credential still listed. -/
def Misjudges (tr : List Asked) : Bool :=
  tr.any undelivered || (tr.any refused && tr.any listed)

section Alone

variable {i : CallId} {w w' : World}
  {tr : List Asked} {r : Except Status Reply}

variable {columns : Columns} {row : ConnectionRow} {actor : Actor}

theorem alone_settling {gone : Bool}
    (h : Alone settings connection false i (.settling gone) w tr r w')
    (hcol : w.db.columns = some columns) (hstate : columns.state = .RotationUnknown) :
    (∃ e, r = .error e) ∧ w'.account = w.account ∧ Misjudges tr = false ∧
      tr.any listed = false ∧
      ∃ columns', w'.db.columns = some columns' ∧ columns'.state = settled_state gone := by
  obtain ⟨q, a, s', w₁, w₂, tr', rfl, hlat, hnex, hser, hres⟩ := h.asked (by simp)
  cases hnex with
  | settled =>
    obtain ⟨rfl, rfl, hdb, hacc⟩ := alone_finished hres
    refine ⟨⟨_, rfl⟩, hacc.trans (hser.2.1.trans hlat.2.2), rfl, rfl, ?_⟩
    rw [← hlat.2.1] at hcol
    exact ⟨_, congrArg Db.columns (hdb.trans (Stored.settles hser hcol hstate)), rfl⟩

theorem alone_confirming (h : Alone settings connection false i (.confirming row) w tr r w')
    (hcol : w.db.columns = some columns) (hstate : columns.state = .RotationUnknown) :
    (∃ e, r = .error e) ∧ w'.account = w.account ∧ tr.any undelivered = false ∧
      ∃ columns', w'.db.columns = some columns' ∧
        (columns'.state = .Active ↔ tr.any listed = true) := by
  obtain ⟨q, a, s', w₁, w₂, tr', rfl, hlat, hnex, hser, hres⟩ := h.asked (by simp)
  cases hnex with
  | @confirmed _ ids =>
    have hcol₂ : w₂.db.columns = some columns := by rw [hser.2.1, hlat.2.1, hcol]
    obtain ⟨hr, hacc, hcle, hunl, columns', hcol', hstate'⟩ :=
      alone_settling hres hcol₂ hstate
    simp only [Misjudges, Bool.or_eq_false_iff] at hcle
    refine ⟨hr, hacc.trans (hser.2.2.1.trans hlat.2.2), ?_, columns', hcol', ?_⟩
    · simpa [undelivered] using hcle.1
    · rw [hstate', List.any_cons, hunl]
      cases ids <;> simp [settled_state, listed]
  | not_confirmed =>
    obtain ⟨rfl, rfl, hdb, hacc⟩ := alone_finished hres
    refine ⟨⟨_, rfl⟩, hacc.trans (hser.2.2.1.trans hlat.2.2), rfl, columns, ?_, ?_⟩
    · rw [hdb, hser.2.1, hlat.2.1, hcol]
    · simp [hstate, listed]

theorem alone_publishing {v : ClientCredential} {url : ConnectionUrl}
    (h : Alone settings connection false i (.publishing actor row v url) w tr r w')
    (hcol : w.db.columns = some columns) (hstate : columns.state = .RotationUnknown) :
    (∃ p, r = .ok (.provisioned p) ∧ p.connection_url = url) ∧ w'.account = w.account ∧
      Misjudges tr = false ∧ ∃ columns', w'.db.columns = some columns' := by
  obtain ⟨q, a, s', w₁, w₂, tr', rfl, hlat, hnex, hser, hres⟩ := h.asked (by simp)
  rw [← hlat.2.1] at hcol
  cases hnex with
  | published =>
    obtain ⟨rfl, rfl, hdb, hacc⟩ := alone_finished hres
    obtain ⟨-, hmov⟩ := Stored.settles_recorded hser hcol hstate
    exact ⟨⟨_, rfl, rfl⟩, hacc.trans (hser.2.1.trans hlat.2.2), rfl, _,
      congrArg Db.columns (hdb.trans hmov)⟩
  | outrun | not_published =>
    obtain ⟨hans, -⟩ := Stored.settles_recorded hser hcol hstate
    cases hans

theorem active_current_iff {last : Option ConnectionUrl} (h : w.db.columns = some columns) :
    ActiveCurrent ⟨w, last⟩ ↔ (columns.state = .Active → Current ⟨w, last⟩) := by
  constructor
  · exact fun hcur => hcur columns h
  · intro hcur columns' hcol'
    obtain rfl := Option.some.inj (h.symm.trans hcol')
    exact hcur

theorem current_iff {last : Option ConnectionUrl} (h : w'.account = w.account) :
    Current ⟨w', last⟩ ↔ Current ⟨w, last⟩ := by
  simp only [Current, h]

theorem alone_replacing {credential : CredentialId}
    (h : Alone settings connection false i (.replacing actor row credential) w tr r w')
    (hcol : w.db.columns = some columns) (hstate : columns.state = .RotationUnknown)
    (last : Option ConnectionUrl) :
    (∃ columns', w'.db.columns = some columns') ∧
      (ActiveCurrent ⟨w', latest last r⟩ ↔ (Misjudges tr = true → Current ⟨w, last⟩)) := by
  obtain ⟨q, a, s', w₁, w₂, tr', rfl, hlat, hnex, hser, hres⟩ := h.asked (by simp)
  have hdb : w₂.db.columns = some columns := by
    cases hnex <;> rw [hser.2.1, hlat.2.1, hcol]
  -- The row is left in rotation: nothing is claimed of it.
  have hlef : ∀ {e : Status} {a' : (ProviderCall.replace_credential credential).Answer},
      Alone settings connection false i (.finished (.error e)) w₂ tr' r w' →
      Misjudges (⟨.provider (.replace_credential credential), a'⟩ :: []) = false →
      (∃ columns', w'.db.columns = some columns') ∧ (ActiveCurrent ⟨w', latest last r⟩ ↔
        (Misjudges (⟨.provider (.replace_credential credential), a'⟩ :: tr') = true →
          Current ⟨w, last⟩)) := by
    intro e a' hfin hcle
    obtain ⟨rfl, rfl, hdb', -⟩ := alone_finished hfin
    have hcol' : w'.db.columns = some columns := by rw [hdb', hdb]
    refine ⟨⟨_, hcol'⟩, ?_⟩
    rw [active_current_iff hcol', hcle]
    simp [hstate]
  cases hnex with
  | replaced hurl =>
    obtain ⟨⟨p, rfl, rfl⟩, hacc, hcle, columns', hcol'⟩ :=
      alone_publishing hres hdb hstate
    obtain ⟨account, u, -, -, hu, haft⟩ := hser.2.2
    refine ⟨⟨_, hcol'⟩, iff_of_true (fun _ _ _ => ?_) fun hmis => ?_⟩
    · refine ⟨account.replaced u, p.connection_url, hacc.trans haft, rfl, ?_⟩
      have hcar := managed_carries hurl
      rw [← hu _ rfl] at hcar
      exact hcar
    · simp only [Misjudges, List.any_cons, undelivered, refused, listed, Bool.false_or]
        at hmis hcle
      exact absurd hmis (by simp [hcle])
  | replaced_in_vain => exact hlef hres rfl
  | undelivered =>
    obtain ⟨⟨e, rfl⟩, hacc, -, -, columns', hcol', hstate'⟩ :=
      alone_settling hres hdb hstate
    have hsam : w'.account = w.account := hacc.trans (Eq.trans hser.2.2 hlat.2.2)
    refine ⟨⟨_, hcol'⟩, ?_⟩
    rw [active_current_iff hcol', hstate', latest_error, current_iff hsam]
    simp [settled_state, Misjudges, undelivered]
  | refused =>
    obtain ⟨⟨e, rfl⟩, hacc, hund, columns', hcol', hactive⟩ :=
      alone_confirming hres hdb hstate
    have hsam : w'.account = w.account := hacc.trans (Eq.trans hser.2.2 hlat.2.2)
    refine ⟨⟨_, hcol'⟩, ?_⟩
    rw [active_current_iff hcol', hactive, latest_error, current_iff hsam]
    simp [Misjudges, undelivered, refused, listed, hund]
  | missing =>
    obtain ⟨⟨e, rfl⟩, -, hcle, hunl, columns', hcol', hstate'⟩ :=
      alone_settling hres hdb hstate
    refine ⟨⟨_, hcol'⟩, ?_⟩
    rw [active_current_iff hcol', hstate']
    simp only [Misjudges, Bool.or_eq_false_iff] at hcle
    simp [settled_state, Misjudges, undelivered, refused, listed, hunl, hcle.1]
  | unknown herr => exact hlef hres (by rcases herr with rfl | rfl <;> rfl)

/-- What holds between calls: where there is no row there is no account, and the credential of an
active row is the one last returned. -/
structure Rest (h : History) : Prop where
  gone : h.world.db.columns = none → h.world.account = none
  active : ActiveCurrent h

theorem Rest.later {last : Option ConnectionUrl} (h : Rest ⟨w, last⟩)
    (hdb : w'.db = w.db) (hacc : w'.account = w.account) : Rest ⟨w', last⟩ := by
  refine ⟨fun hnone => hacc.trans (h.gone (hdb ▸ hnone)), fun columns hcol hstate => ?_⟩
  rw [current_iff hacc]
  exact h.active columns (hdb ▸ hcol) hstate

theorem alone_marking {principal : AuthenticatedPrincipal} {last : Option ConnectionUrl}
    (h : Alone settings connection false i (.marking principal actor) w tr r w')
    (hres : Rest ⟨w, last⟩) :
    (w'.db.columns = none → w'.account = none) ∧
      (ActiveCurrent ⟨w', latest last r⟩ ↔ (Misjudges tr = true → Current ⟨w, last⟩)) := by
  obtain ⟨q, a, s', w₁, w₂, tr', rfl, hlat, hnex, hserv, hrun⟩ := h.asked (by simp)
  have hacc : w₂.account = w.account := by
    cases hnex <;> exact hserv.2.1.trans hlat.2.2
  cases hnex with
  | marked =>
    obtain ⟨columns, -, -, -, hdb⟩ := Stored.marked hserv
    obtain ⟨⟨columns', hcol'⟩, hiff⟩ :=
      alone_replacing hrun (congrArg Db.columns hdb) rfl last
    refine ⟨fun hnone => absurd (hcol'.symm.trans hnone) (by simp), ?_⟩
    rw [hiff, current_iff hacc]
    rfl
  | marked_in_vain =>
    obtain ⟨columns, -, -, -, hdb⟩ := Stored.marked hserv
    obtain ⟨rfl, rfl, hdb', -⟩ := alone_finished hrun
    have hcol' := congrArg Db.columns (hdb'.trans hdb)
    refine ⟨fun hnone => absurd (hcol'.symm.trans hnone) (by simp), ?_⟩
    rw [active_current_iff hcol']
    simp [Columns.moved, Misjudges, undelivered, refused]
  | not_marked =>
    obtain ⟨rfl, rfl, hdb', hacc'⟩ := alone_finished hrun
    have hkep : w₂.db = w₁.db := (Stored.effect hserv).of_error
    have haft : Rest ⟨w', last⟩ :=
      hres.later (by rw [hdb', hkep, hlat.2.1]) (hacc'.trans hacc)
    exact ⟨haft.gone, iff_of_true haft.active (by simp [Misjudges, undelivered, refused])⟩

end Alone

/-! ## Creations -/

section Creations

def InState (w : World) (state : ManagedConnectionState) : Prop :=
  ∃ columns, w.db.columns = some columns ∧ columns.state = state

def Given (w : World) (p : ProvisionedAccount) : Prop :=
  ∃ account, w.account = some account ∧ account.account = p.account ∧
    account.current = p.credential

def CreatesAt (connection : Connection) (last : Option ConnectionUrl) : Stage → World → Prop
  | .inserting _, w => Rest ⟨w, last⟩
  | .calling c, w => c.connection = connection ∧ InState w .Provisioning ∧ w.account = none
  | .recording _ p, w | .listing _ p, w | .identifying _ p _, w | .granting _ p, w
  | .grouping _ p, w => InState w .Provisioning ∧ Given w p
  | .completing _ p url, w => InState w .Provisioning ∧ Given w p ∧ url.Carries p.credential
  | .undoing id, w => InState w .Provisioning ∧ ∀ a, w.account = some a → a.account = id
  | .discarding _, w => InState w .Provisioning ∧ w.account = none
  | .probing u _, w => InState w .Provisioning ∧ u = connection.username
  | .giving_up, w => InState w .Provisioning
  | .finished r, w => Rest ⟨w, latest last r⟩
  | _, _ => False

variable {state : ManagedConnectionState} {w w' : World} {p : ProvisionedAccount} {s : Stage}

theorem InState.kept (h : InState w state) (hdb : w'.db = w.db) : InState w' state := by
  obtain ⟨columns, hcol, hstate⟩ := h
  exact ⟨columns, by rw [hdb, hcol], hstate⟩

theorem InState.updated {set : Columns → Columns} (h : InState w state)
    (hdb : w'.db = w.db.update set) (hset : ∀ columns, (set columns).state = columns.state) :
    InState w' state := by
  obtain ⟨columns, hcol, hstate⟩ := h
  exact ⟨set columns, by rw [hdb, Db.update, hcol]; rfl, (hset columns).trans hstate⟩

theorem Given.kept (h : Given w p) (hacc : w'.account = w.account) : Given w' p := by
  obtain ⟨account, hpre, hid, hcur⟩ := h
  exact ⟨account, hacc.trans hpre, hid, hcur⟩

theorem Given.identified (h : Given w p) : ∀ a, w.account = some a → a.account = p.account := by
  obtain ⟨account, hpre, hid, -⟩ := h
  intro a ha
  obtain rfl := Option.some.inj (hpre.symm.trans ha)
  exact hid

theorem rest_gone {last : Option ConnectionUrl} (hrow : w.db.columns = none)
    (hacc : w.account = none) : Rest ⟨w, last⟩ where
  gone _ := hacc
  active columns hcol := by
    rw [hrow] at hcol
    simp at hcol

theorem rest_cleanup {last : Option ConnectionUrl} (h : InState w .CleanupRequired) :
    Rest ⟨w, last⟩ := by
  obtain ⟨columns, hcol, hstate⟩ := h
  refine ⟨fun hnone => absurd (hcol.symm.trans hnone) (by simp), ?_⟩
  rw [active_current_iff hcol]
  simp [hstate]

theorem CreatesAt.later {last : Option ConnectionUrl} (h : CreatesAt connection last s w)
    (hlat : Later w w') : CreatesAt connection last s w' := by
  obtain ⟨-, hdb, hacc⟩ := hlat
  cases s with
  | inserting _ | finished _ => exact Rest.later h hdb hacc
  | calling c => exact ⟨h.1, h.2.1.kept hdb, hacc.trans h.2.2⟩
  | recording _ _ | listing _ _ | identifying _ _ _ | granting _ _ | grouping _ _ =>
    exact ⟨h.1.kept hdb, h.2.kept hacc⟩
  | completing c p url => exact ⟨h.1.kept hdb, h.2.1.kept hacc, h.2.2⟩
  | undoing id => exact ⟨h.1.kept hdb, hacc ▸ h.2⟩
  | discarding compensating => exact ⟨h.1.kept hdb, hacc.trans h.2⟩
  | probing u n => exact ⟨h.1.kept hdb, h.2⟩
  | giving_up => exact InState.kept h hdb
  | _ => exact h.elim

theorem Stored.inserted {faulty : Bool} {inserted : Connection} {u : Unit}
    (h : Stored settings connection faulty (.insert_provisioning inserted) w (.ok u) w') :
    inserted = connection ∧ w.db.columns = none ∧ InState w' .Provisioning := by
  have heff := h.ok
  generalize hdb : w'.db = db at heff
  cases heff with
  | inserted hnone => exact ⟨rfl, hnone, _, congrArg Db.columns hdb, rfl⟩

theorem undone_account {id : AccountId} {a : Except ProviderError Unit}
    (ha : a = .ok () ∨ a = .error .NotFound)
    (h : Contract connection.username true (.delete_account id) w.account a w'.account)
    (hid : ∀ present, w.account = some present → present.account = id) : w'.account = none := by
  have haft : w'.account = without w.account id := by
    rcases ha with rfl | rfl <;> exact h
  rw [haft, without_eq_none]
  exact hid

theorem CreatesAt.step {last : Option ConnectionUrl} {s' : Stage} {q : Request} {a : q.Answer}
    (h : CreatesAt connection last s w) (hnex : Next settings connection s q a s')
    (hser : Served settings connection false (documented connection.username) .create q w a w') :
    CreatesAt connection last s' w' := by
  cases hnex with
  | inserted =>
    obtain ⟨rfl, hrow, hstate⟩ := Stored.inserted hser
    exact ⟨rfl, hstate, hser.2.1.trans (h.gone hrow)⟩
  | not_inserted => exact Rest.later h (Stored.effect hser).of_error hser.2.1
  | created =>
    obtain ⟨rfl, hstate, -⟩ := h
    exact ⟨hstate.kept hser.2.1, Contract.asked_and_given hser.2.2 rfl⟩
  | create_unknown =>
    obtain ⟨rfl, hstate, -⟩ := h
    exact ⟨hstate.kept hser.2.1, rfl⟩
  | create_refused hamb hinv =>
    obtain ⟨-, hstate, hnone⟩ := h
    exact ⟨hstate.kept hser.2.1,
      (Contract.asked_in_vain hser.2.2 hamb hinv).trans hnone⟩
  | recorded | identified =>
    exact ⟨h.1.updated (congrArg Prod.snd (Stored.served hser)) fun _ => rfl,
      h.2.kept hser.2.1⟩
  | not_recorded | not_identified | not_discarded | discard_ignored =>
    exact absurd (congrArg Prod.fst (Stored.served hser)) (by simp [exec])
  | listed => exact ⟨h.1.kept hser.2.1, h.2.kept hser.2.2.1⟩
  | listed_other | not_listed =>
    exact ⟨h.1.kept hser.2.1, (h.2.kept hser.2.2.1).identified⟩
  | granted => exact ⟨h.1.kept hser.2.1, h.2.kept hser.2.2⟩
  | not_granted | no_url => exact ⟨h.1.kept hser.2.1, (h.2.kept hser.2.2).identified⟩
  | grouped hurl => exact ⟨h.1.kept hser.2.1, h.2.kept hser.2.2, managed_carries hurl⟩
  | completed =>
    obtain ⟨-, ⟨account, hpre, -, hcur⟩, hcar⟩ := h
    obtain ⟨columns, -, -, hdb⟩ := Stored.moved hser
    have hcol := congrArg Db.columns hdb
    refine ⟨fun hnone => absurd (hcol.symm.trans hnone) (by simp), fun _ _ _ => ?_⟩
    exact ⟨account, _, hser.2.1.trans hpre, rfl, hcur ▸ hcar⟩
  | overtaken | not_completed =>
    obtain ⟨⟨columns, hcol, hstate⟩, -⟩ := h
    obtain ⟨hans, -⟩ := Stored.settles_recorded hser hcol hstate
    cases hans
  | undone ha => exact ⟨h.1.kept hser.2.1, undone_account ha hser.2.2 h.2⟩
  | not_undone | probe_exhausted | probe_failed => exact h.1.kept hser.2.1
  | discarded =>
    refine rest_gone ?_ (hser.2.1.trans h.2)
    exact congrArg (fun x => x.2.columns) (Stored.served hser)
  | probe_found =>
    obtain ⟨hstate, rfl⟩ := h
    obtain ⟨present, hpre, rfl⟩ := hser.2.2.2 rfl
    refine ⟨hstate.kept hser.2.1, fun a ha => ?_⟩
    rw [hser.2.2.1] at ha
    exact congrArg ProviderAccount.account (Option.some.inj (ha.symm.trans hpre))
  | probe_empty => exact ⟨h.1.kept hser.2.1, h.2⟩
  | gave_up =>
    obtain ⟨columns, hcol, hstate⟩ := h
    have hdb := Stored.settles hser hcol hstate
    exact rest_cleanup ⟨_, congrArg Db.columns hdb, rfl⟩
  | _ => exact h.elim

end Creations

section Histories

variable {callers : Callers} {h : History} {r : Except Status Reply} {tr : List Asked}
  {w : World}

theorem create_rests (hres : Rest h)
    (hrun : Whole settings connection callers .create h.world tr r w) :
    Rest ⟨w, latest h.last r⟩ := by
  have hsol := (operation_conforms callers .create).runs hrun
  have hsta : CreatesAt connection h.last (start connection callers .create) h.world := by
    rw [start]
    split
    · exact hres
    · exact hres
  exact hsol.invariant hsta (fun _ _ _ => CreatesAt.later) fun _ _ _ _ _ _ => CreatesAt.step

theorem rotate_rests {n : ℕ} (hres : Rest h)
    (hrun : Whole settings connection callers (.rotate n) h.world tr r w) :
    (w.db.columns = none → w.account = none) ∧
      (ActiveCurrent ⟨w, latest h.last r⟩ ↔ (Misjudges tr = true → Current h)) := by
  have hsol := (operation_conforms callers (.rotate n)).runs hrun
  rw [start] at hsol
  split at hsol
  · exact alone_marking hsol hres
  all_goals
    obtain ⟨rfl, rfl, hdb, hacc⟩ := alone_finished hsol
    have haft : Rest ⟨w, h.last⟩ := hres.later hdb hacc
    exact ⟨haft.gone, iff_of_true haft.active (by simp [Misjudges])⟩

/-- A rotation that settles the row as active does so while the last URL is current. -/
def Judged (h : History) (tr : List Asked) : Prop :=
  Misjudges tr = true → Current h

theorem sequence_rests (hseq : Sequence settings connection callers Judged h) : Rest h := by
  induction hseq with
  | start hrow hacc => exact rest_gone hrow hacc
  | later _ hlat ih => exact ih.later hlat.2.1 hlat.2.2
  | @call h i tr r w _ hrol hrun hjud ih =>
    cases i with
    | create => exact create_rests ih hrun
    | rotate n =>
      obtain ⟨hgon, hiff⟩ := rotate_rests ih hrun
      exact ⟨hgon, hiff.mpr hjud⟩
    | revoke n => exact absurd rfl hrol

/-- **The URL last returned is current while the connection is active.** -/
theorem active_is_current (h : History) (hseq : Sequence settings connection callers Judged h) :
    ActiveCurrent h ∧ ∀ n tr r w, Whole settings connection callers (.rotate n) h.world tr r w →
      (ActiveCurrent ⟨w, latest h.last r⟩ ↔ Judged h tr) :=
  ⟨(sequence_rests hseq).active, fun _ _ _ _ hrun => (rotate_rests (sequence_rests hseq) hrun).2⟩

end Histories

/-! ### A misjudged rotation -/

def sample_creation : Creation := ⟨sample_connection, operator_actor⟩

def created_world : World :=
  ⟨0, ⟨some active_columns, [⟨operator_actor, 0, sample_creation.event⟩]⟩,
    some sample_provider_account⟩

def created_connection : ProvisionedConnection :=
  ⟨metadata ⟨sample_connection, active_columns⟩, sample_url sample_value⟩

theorem sample_created : ∃ tr, Whole sample_settings sample_connection sample_callers .create
    empty_world tr (.ok (.provisioned created_connection)) created_world ∧
      Misjudges tr = false :=
  ⟨_, runs_stored empty_world (.insert_provisioning sample_connection)
    (runs_called _ (.create_account sample_connection.username) (.ok sample_provisioned)
      (some sample_provider_account)
      ⟨_, rfl, by simp [sample_provisioned, sample_provider_account],
        by simp [sample_provisioned, sample_provider_account]⟩
    (runs_stored _ (.record_provider_user sample_provisioned)
    (runs_called _ (.find_credentials sample_connection.username) (.ok [sample_credential])
      (some sample_provider_account) ⟨rfl, fun _ => rfl⟩
    (runs_stored _ (.record_credential_identifier sample_credential)
    (runs_called _ (.grant sample_account sample_creation.grant) (.ok ())
      (some sample_provider_account) rfl
    (runs_called _ (.assign_browse_group sample_account) (.ok ())
      (some sample_provider_account) rfl
    (runs_given (congrArg (fun c => ((Call.attempt c).bind _).bind _)
      (sample_given List.mem_cons_self))
    (runs_stored _ (.transition_state_recorded .Provisioning .Active operator_actor
      sample_creation.event) (runs_returned created_world _))))))))), rfl⟩

theorem sample_sequence {cond : History → List Asked → Prop}
    (hcon : ∀ tr, Misjudges tr = false → cond ⟨empty_world, none⟩ tr) :
    Sequence sample_settings sample_connection sample_callers cond
      ⟨created_world, some created_connection.connection_url⟩ := by
  obtain ⟨tr, hrun, hcle⟩ := sample_created
  exact .call (.start rfl rfl) (by simp [CallId.role]) hrun (hcon tr hcle)

def rotated_world : World :=
  ⟨0, ⟨some active_columns, created_world.db.audit ++ [⟨operator_actor, 0,
    .connection_rotated operator_actor sample_connection.subject⟩]⟩,
    some (sample_provider_account.replaced first_replacement)⟩

def rotated_url : ConnectionUrl := sample_url first_replacement

/-- A creation, a rotation, and a second rotation whose write is not delivered: it settles the row
as active, and the URL of the first is current. -/
theorem active_is_current_once_rotated :
    ∃ w, Sequence sample_settings sample_connection sample_callers Judged ⟨w, some rotated_url⟩ ∧
      w.db.columns = some active_columns ∧ Current ⟨w, some rotated_url⟩ := by
  have hcre : Sequence sample_settings sample_connection sample_callers Judged
      ⟨created_world, some created_connection.connection_url⟩ :=
    sample_sequence fun tr hcle hmis => absurd hmis (by simp [hcle])
  have hrot : Whole sample_settings sample_connection sample_callers (.rotate 0) created_world _
      (.ok (.provisioned ⟨metadata ⟨sample_connection, active_columns⟩, rotated_url⟩))
      rotated_world :=
    runs_stored created_world (.begin_rotation operator_principal)
      (runs_called _ (.replace_credential sample_credential) (.ok first_replacement)
        (some (sample_provider_account.replaced first_replacement))
        ⟨_, _, rfl, rfl, fun _ h => Option.some.inj h, rfl⟩
        (runs_given (congrArg (Call.bind · _) (sample_given (by simp)))
          (runs_stored _ (.transition_state_recorded .RotationUnknown .Active operator_actor
            (.connection_rotated operator_actor sample_connection.subject))
            (runs_returned rotated_world _))))
  have hund : Whole sample_settings sample_connection sample_callers (.rotate 1) rotated_world _
      (.error dependency_error) rotated_world :=
    runs_stored rotated_world (.begin_rotation operator_principal)
      (runs_called _ (.replace_credential sample_credential) (.error .Unavailable)
        (some (sample_provider_account.replaced first_replacement)) rfl
        (runs_stored _ (.transition_state .RotationUnknown .Active)
          (runs_returned rotated_world _)))
  have hcur : Current ⟨rotated_world, some rotated_url⟩ :=
    ⟨_, _, rfl, rfl, sample_carries (by simp)⟩
  have hseq := Sequence.call (.call hcre (by simp [CallId.role]) hrot (absurd · Bool.false_ne_true))
    (by simp [CallId.role]) hund fun _ => hcur
  exact ⟨_, hseq, rfl, (active_is_current _ hseq).1 active_columns rfl rfl⟩

def ambiguous_world (now : OffsetDateTime) : World :=
  ⟨now, ⟨some (active_columns.moved .RotationUnknown 0), created_world.db.audit⟩,
    some (sample_provider_account.replaced first_replacement)⟩

def misjudged_world : World :=
  ⟨10, ⟨some (active_columns.moved .Active 10), created_world.db.audit⟩,
    some (sample_provider_account.replaced first_replacement)⟩

/-- A rotation's write is applied and its answer lost; once the lease has passed, the next one's
write is not delivered, and the row is settled as active. The URL that was returned no longer
works. -/
theorem active_is_stale :
    ∃ h, Sequence sample_settings sample_connection sample_callers (fun _ _ => True) h ∧
      ¬ ActiveCurrent h := by
  have hcre : Sequence sample_settings sample_connection sample_callers (fun _ _ => True)
      ⟨created_world, some created_connection.connection_url⟩ :=
    sample_sequence fun _ _ => trivial
  have hlos : Whole sample_settings sample_connection sample_callers (.rotate 0) created_world _
      (.error dependency_error) (ambiguous_world 0) :=
    runs_stored created_world (.begin_rotation operator_principal)
      (runs_called _ (.replace_credential sample_credential) (.error .Ambiguous)
        (some (sample_provider_account.replaced first_replacement))
        (Or.inr ⟨sample_provider_account, first_replacement, rfl, rfl, by simp, rfl⟩)
        (runs_returned (ambiguous_world 0) _))
  have hsettled : Whole sample_settings sample_connection sample_callers (.rotate 1)
      (ambiguous_world 10) _ (.error dependency_error) misjudged_world :=
    runs_stored (ambiguous_world 10) (.begin_rotation operator_principal)
      (runs_called _ (.replace_credential sample_credential) (.error .Unavailable)
        (some (sample_provider_account.replaced first_replacement)) rfl
        (runs_stored _ (.transition_state .RotationUnknown .Active)
          (runs_returned misjudged_world _)))
  have hwai := Sequence.later (.call hcre (by simp [CallId.role]) hlos trivial)
    (show Later (ambiguous_world 0) (ambiguous_world 10) from ⟨by decide, rfl, rfl⟩)
  refine ⟨_, .call hwai (by simp [CallId.role]) hsettled trivial, fun hactive => ?_⟩
  obtain ⟨account, url, hacc, hurl, hcar⟩ := hactive _ rfl rfl
  obtain rfl := Option.some.inj hacc
  obtain rfl := Option.some.inj hurl
  exact absurd (carries_secret (sample_carries (by simp)) hcar) (by decide)

end SovereignConfig.Managed
