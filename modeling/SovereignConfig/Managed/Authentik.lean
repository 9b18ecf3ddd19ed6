/-
`sovereign-config-authentik`: the creation of an account over HTTP. Two fields of `Exchange` are
the assumptions made about reqwest and Authentik. An applied request may take effect at any later
time.
-/
import SovereignConfig.Managed.Sequential

namespace SovereignConfig.Managed

open Lib Text

/-! ## The administration client (`client.rs`) -/

def MAX_ADMIN_RESPONSE_BYTES : ℕ := 256 * 1024

def MAX_EXTERNAL_IDENTIFIER_CHARS : ℕ := 128

/-- What is asked of a `reqwest::Error`. -/
structure TransportError where
  is_timeout : Bool
  is_connect : Bool
  is_builder : Bool
  is_request : Bool
  is_redirect : Bool
deriving DecidableEq

def classify_transport (error : TransportError) : ProviderError :=
  if error.is_timeout then .Ambiguous
  else if error.is_connect || error.is_builder || error.is_request then .Unavailable
  else if error.is_redirect then .Invalid
  else .Ambiguous

abbrev StatusCode := ℕ

def StatusCode.is_success (status : StatusCode) : Bool := 200 ≤ status && status < 300

def StatusCode.is_redirection (status : StatusCode) : Bool := 300 ≤ status && status < 400

def StatusCode.is_client_error (status : StatusCode) : Bool := 400 ≤ status && status < 500

def classify_status (status : StatusCode) : ProviderError :=
  if status = 404 then .NotFound
  else if status.is_client_error then .Rejected
  else if status.is_redirection then .Invalid
  else .Ambiguous

structure Response where
  status : StatusCode
  content_length : Option ℕ
  chunks : List (Except TransportError (List UInt8))

def read_body (body : List UInt8) :
    List (Except TransportError (List UInt8)) → Except ProviderError (List UInt8)
  | [] => .ok body
  | .error error :: _ => .error (if error.is_timeout then .Ambiguous else .Invalid)
  | .ok chunk :: rest =>
    if body.length + chunk.length > MAX_ADMIN_RESPONSE_BYTES then .error .Invalid
    else read_body (body ++ chunk) rest

def expect_success (response : Response) : Except ProviderError (List UInt8) :=
  if !response.status.is_success then .error (classify_status response.status)
  else if response.content_length.any (· > MAX_ADMIN_RESPONSE_BYTES) then .error .Invalid
  else read_body [] response.chunks

inductive Outcome where
  /-- The endpoint's URL could not be made. -/
  | unjoined
  /-- The request could not be built. -/
  | unbuilt (error : TransportError)
  /-- No connection was established. -/
  | unconnected (error : TransportError)
  /-- The connection was lost once the request was written, before a response head. -/
  | lost (error : TransportError)
  /-- The time ran out before a response head. -/
  | timed_out (error : TransportError)
  | answered (response : Response)

def call : Outcome → Except ProviderError (List UInt8)
  | .unjoined => .error .Invalid
  | .unbuilt error | .unconnected error | .lost error | .timed_out error =>
    .error (classify_transport error)
  | .answered response => expect_success response

structure ServiceAccountResponse where
  username : Text
  user_uid : Text
  user_pk : ℤ
  token : Text

/-- `u8::is_ascii_control`, on the characters that are one byte long. -/
def is_ascii_control (c : Char) : Bool := c.toNat < 0x20 || c.toNat = 0x7f

structure CreatedServiceAccount where
  user_id : ℤ
  user_uid : Text
  app_password : Text

/-- The provider as it is configured; `from_slice` is the JSON decoding of a creation's
response. -/
structure AuthentikProvider where
  client_id : Text
  from_slice : List UInt8 → Option ServiceAccountResponse

def ServiceAccountResponse.refused (decoded : ServiceAccountResponse) (username : Text) : Bool :=
  decoded.username ≠ username
    || decoded.token.isEmpty
    || decoded.token.any is_ascii_control
    || contains_char decoded.token ':'
    || decoded.user_uid.isEmpty
    || byte_len decoded.user_uid > MAX_EXTERNAL_IDENTIFIER_CHARS

def create_service_account (self : AuthentikProvider) (username : Text) (outcome : Outcome) :
    Except ProviderError CreatedServiceAccount := do
  let body ← call outcome
  let decoded ← (self.from_slice body).elim (.error .Invalid) .ok
  if decoded.refused username then .error .Invalid
  else return ⟨decoded.user_pk, decoded.user_uid, decoded.token⟩

/-! ## The provider (`provider.rs`) -/

def ClientCredential.new (client_id secret : Text) : Option ClientCredential :=
  if h : (admits_client_id client_id && !secret.isEmpty && !secret.any is_control) = true then
    some ⟨client_id, secret, h⟩
  else none

def account_id (user_id : ℤ) : Except ProviderError AccountId :=
  (AccountId.parse (toString user_id).toList).elim (.error .Invalid) .ok

def AuthentikProvider.credential (self : AuthentikProvider) (app_password : Text) :
    Except ProviderError ClientCredential :=
  (ClientCredential.new self.client_id app_password).elim (.error .Invalid) .ok

def AuthentikProvider.create_account (self : AuthentikProvider) (username : Text)
    (outcome : Outcome) : Except ProviderError ProvisionedAccount := do
  let created ← create_service_account self username outcome
  let account ← account_id created.user_id
  let credential ← self.credential created.app_password
  return ⟨account, created.user_uid, credential⟩

def ProviderError.Doubtful (error : ProviderError) : Prop := error = .Ambiguous ∨ error = .Invalid

variable {error : ProviderError} {outcome : Outcome} {self : AuthentikProvider} {username : Text}

theorem read_body_doubtful {body : List UInt8}
    {chunks : List (Except TransportError (List UInt8))}
    (h : read_body body chunks = .error error) : error.Doubtful := by
  induction chunks generalizing body with
  | nil => exact absurd h (by simp [read_body])
  | cons chunk rest ih =>
    cases chunk with
    | error e =>
      obtain rfl := Except.error.inj h
      cases e.is_timeout with
      | true => exact Or.inl rfl
      | false => exact Or.inr rfl
    | ok chunk =>
      simp only [read_body] at h
      split at h
      · exact Or.inr (Except.error.inj h).symm
      · exact ih h

theorem expect_success_class {response : Response} (h : expect_success response = .error error) :
    error.Doubtful ∨ response.status.is_client_error = true := by
  unfold expect_success at h
  split at h
  · obtain rfl := Except.error.inj h
    unfold classify_status
    split_ifs with hmis hcli hred
    · exact Or.inr (by rw [hmis]; rfl)
    · exact Or.inr hcli
    · exact Or.inl (Or.inr rfl)
    · exact Or.inl (Or.inl rfl)
  · split at h
    · exact Or.inl (Or.inr (Except.error.inj h).symm)
    · exact Or.inl (read_body_doubtful h)

theorem elim_invalid {α : Type} {x : Option α}
    (h : x.elim (.error .Invalid) (.ok : α → Except ProviderError α) = .error error) :
    error = .Invalid := by
  cases x with
  | none => exact (Except.error.inj h).symm
  | some a => simp at h

theorem create_account_error (h : self.create_account username outcome = .error error) :
    call outcome = .error error ∨ error = .Invalid := by
  rcases bind_eq_error h with hcrea | ⟨created, -, h⟩
  · rcases bind_eq_error hcrea with hcal | ⟨body, -, hdec⟩
    · exact Or.inl hcal
    · rcases bind_eq_error hdec with hnone | ⟨decoded, -, hche⟩
      · exact Or.inr (elim_invalid hnone)
      · split at hche
        · exact Or.inr (Except.error.inj hche).symm
        · exact absurd hche (by simp [pure, Except.pure])
  · rcases bind_eq_error h with hid | ⟨account, -, h⟩
    · exact Or.inr (elim_invalid hid)
    · rcases bind_eq_error h with hcre | ⟨credential, -, h⟩
      · exact Or.inr (elim_invalid hcre)
      · exact absurd h (by simp [pure, Except.pure])

/-! ## Exchanges -/

def Outcome.Reported : Outcome → Prop
  | .unjoined => True
  | .unbuilt error => error.is_builder = true
  | .unconnected error => error.is_connect = true
  | .lost error =>
    error.is_request = true ∧ error.is_timeout = false ∧ error.is_connect = false
  | .timed_out error => error.is_timeout = true
  | .answered _ => True

def Outcome.Unapplied : Outcome → Prop
  | .unjoined | .unbuilt _ | .unconnected _ => True
  | .lost _ | .timed_out _ => False
  | .answered response => response.status.is_client_error = true

def Outcome.is_lost : Outcome → Bool
  | .lost _ => true
  | _ => false

theorem Outcome.is_lost_iff : outcome.is_lost = true ↔ ∃ error, outcome = .lost error := by
  cases outcome <;> simp [is_lost]

structure Exchange where
  outcome : Outcome
  applied : Bool
  reported : outcome.Reported
  unapplied : outcome.Unapplied → applied = false

variable {exchange : Exchange}

theorem refused_unapplied (h : self.create_account username exchange.outcome = .error error)
    (hdou : ¬ error.Doubtful) (hlos : exchange.outcome.is_lost = false) :
    exchange.applied = false := by
  have hcal : call exchange.outcome = .error error :=
    (create_account_error h).resolve_right fun hinv => hdou (Or.inr hinv)
  obtain ⟨outcome, applied, hrep, huna⟩ := exchange
  cases outcome with
  | unjoined => exact huna trivial
  | unbuilt e => exact huna trivial
  | unconnected e => exact huna trivial
  | lost e => exact absurd hlos (by simp [Outcome.is_lost])
  | timed_out e =>
    have htim : e.is_timeout = true := hrep
    obtain rfl := Except.error.inj hcal
    exact absurd (Or.inl (if_pos htim)) hdou
  | answered response => exact huna ((expect_success_class hcal).resolve_left hdou)

theorem lost_unavailable (hlos : exchange.outcome.is_lost = true) :
    self.create_account username exchange.outcome = .error .Unavailable := by
  obtain ⟨e, he⟩ := Outcome.is_lost_iff.mp hlos
  have hrep := exchange.reported
  rw [he] at hrep ⊢
  obtain ⟨hrequest, htim, -⟩ := hrep
  have hcla : classify_transport e = .Unavailable := by
    simp [classify_transport, hrequest, htim]
  show (Except.error (classify_transport e) : Except ProviderError ProvisionedAccount) = _
  rw [hcla]

/-! ## A creation over one exchange -/

structure Remote where
  world : World
  due : Bool

/-- There is no account, and no request that would still make one. -/
def Remote.Absent (self : Remote) : Prop := self.world.account = none ∧ self.due = false

/-- Time passes; a creation whose answer was lost may be applied meanwhile. -/
def Remote.Later (u v : Remote) : Prop :=
  u.world.now ≤ v.world.now ∧ v.world.db = u.world.db ∧
    (v.world.account = u.world.account ∧ v.due = u.due ∨
      u.due = true ∧ v.due = false ∧ CreatedAs none none v.world.account)

section Creation

variable (settings : ManagedSettings) (connection : Connection) (faulty : Bool)
  (self : AuthentikProvider) (exchange : Exchange)

def Remote.Created (u : Remote) : Except ProviderError ProvisionedAccount → Remote → Prop
  | .ok created, v =>
    CreatedAs (some created.account) (some created.credential) v.world.account ∧ v.due = u.due
  | .error _, v =>
    if exchange.applied then
      CreatedAs none none v.world.account ∧ v.due = u.due ∨
        v.world.account = u.world.account ∧ v.due = true
    else v.world.account = u.world.account ∧ v.due = u.due

def Remote.Served : (request : Request) → Remote → request.Answer → Remote → Prop
  | .storage statement, u, answer, v =>
    Stored settings connection faulty statement u.world answer v.world ∧ v.due = u.due
  | .provider (.create_account name), u, answer, v =>
    v.world.now = u.world.now ∧ v.world.db = u.world.db ∧
      answer = self.create_account name exchange.outcome ∧ u.Created exchange answer v
  | .provider call, u, answer, v =>
    v.world.now = u.world.now ∧ v.world.db = u.world.db ∧
      Contract connection.username true call u.world.account answer v.world.account ∧
      v.due = u.due

abbrev CreatesOver (callers : Callers) (u : Remote) (tr : List Asked)
    (r : Except Status Reply) (v : Remote) : Prop :=
  Call.Runs (Remote.Served settings connection faulty self exchange) Remote.Later
    (operation settings connection callers .create) u tr r v

end Creation

/-- The row still says that an account may have to be removed. -/
def Remote.Remembered (u : Remote) : Prop :=
  InState u.world .Provisioning ∨ InState u.world .CleanupRequired

def RemembersAt (connection : Connection) : Stage → Remote → Prop
  | .inserting _, u => u.Absent
  | .calling c, u => c.connection = connection ∧ InState u.world .Provisioning ∧ u.Absent
  | .probing name _, u =>
    name = connection.username ∧ InState u.world .Provisioning ∧
      (u.due = true → u.world.account = none)
  | .undoing id, u =>
    InState u.world .Provisioning ∧ u.due = false ∧
      ∀ account, u.world.account = some account → account.account = id
  | .discarding _, u => u.Absent
  | .giving_up, u => InState u.world .Provisioning ∨ u.Absent
  | .finished _, u => u.Remembered ∨ u.Absent
  | _, _ => False

section Runs

variable {settings : ManagedSettings} {connection : Connection} {faulty : Bool}
  {self : AuthentikProvider} {exchange : Exchange}

variable {u v : Remote} {s : Stage} {w w' : World} {error : ProviderError} {callers : Callers}

theorem Remote.Absent.later (h : u.Absent) (hlat : u.Later v) : v.Absent := by
  rcases hlat.2.2 with ⟨hacc, hdue⟩ | ⟨hdue, -⟩
  · exact ⟨hacc.trans h.1, hdue.trans h.2⟩
  · exact absurd hdue (by simp [h.2])

theorem Remote.Absent.kept (h : u.Absent) (hacc : v.world.account = u.world.account)
    (hdue : v.due = u.due) : v.Absent :=
  ⟨hacc.trans h.1, hdue.trans h.2⟩

theorem Remote.Remembered.kept (h : u.Remembered) (hdb : v.world.db = u.world.db) : v.Remembered :=
  h.imp (·.kept hdb) (·.kept hdb)

theorem RemembersAt.later (h : RemembersAt connection s u) (hlat : u.Later v) :
    RemembersAt connection s v := by
  cases s with
  | inserting c => exact Remote.Absent.later h hlat
  | calling c => exact ⟨h.1, h.2.1.kept hlat.2.1, h.2.2.later hlat⟩
  | probing name n =>
    obtain ⟨hnam, hstate, hdue⟩ := h
    refine ⟨hnam, hstate.kept hlat.2.1, fun hv => ?_⟩
    rcases hlat.2.2 with ⟨hacc, hsam⟩ | ⟨-, hlan, -⟩
    · exact hacc.trans (hdue (hsam.symm.trans hv))
    · exact absurd hv (by simp [hlan])
  | undoing id =>
    obtain ⟨hstate, hdue, hid⟩ := h
    rcases hlat.2.2 with ⟨hacc, hsam⟩ | ⟨hland, -⟩
    · exact ⟨hstate.kept hlat.2.1, hsam.trans hdue, fun a ha => hid a (hacc ▸ ha)⟩
    · exact absurd hland (by simp [hdue])
  | discarding compensating => exact Remote.Absent.later h hlat
  | giving_up | finished _ => exact h.imp (·.kept hlat.2.1) (·.later hlat)
  | _ => exact h.elim

theorem gave_up_remembered {answer : Except Status (Option ConnectionRow)}
    (h : Stored settings connection faulty (.transition_state .Provisioning .CleanupRequired) w
      answer w') (hstate : InState w .Provisioning) :
    InState w' .Provisioning ∨ InState w' .CleanupRequired := by
  obtain ⟨columns, hcol, hpro⟩ := hstate
  rcases h.db with hdb | ⟨_, heff⟩
  · exact Or.inl ⟨columns, hdb ▸ hcol, hpro⟩
  · generalize hdb : w'.db = db at heff
    cases heff with
    | refused | missed => exact Or.inl ⟨columns, hdb ▸ hcol, hpro⟩
    | moved => exact Or.inr ⟨_, congrArg Db.columns hdb, rfl⟩

theorem Remote.Created.at_most_one (h : u.Created exchange (.error error) v) (hu : u.Absent) :
    v.due = true → v.world.account = none := by
  intro hdue
  simp only [Remote.Created] at h
  split at h
  · rcases h with ⟨-, hsam⟩ | ⟨hacc, -⟩
    · exact absurd (hsam.symm.trans hdue) (by simp [hu.2])
    · exact hacc.trans hu.1
  · exact h.1.trans hu.1

theorem Remote.Created.absent (h : u.Created exchange (.error error) v) (hu : u.Absent)
    (happ : exchange.applied = false) : v.Absent := by
  simp only [Remote.Created, happ] at h
  exact hu.kept h.1 h.2

theorem RemembersAt.step {s' : Stage} {q : Request} {a : q.Answer}
    (hfai : self.create_account connection.username exchange.outcome = .error error)
    (happ : exchange.outcome.is_lost = true → exchange.applied = false)
    (h : RemembersAt connection s u) (hnex : Next settings connection s q a s')
    (hser : Remote.Served settings connection faulty self exchange q u a v) :
    RemembersAt connection s' v := by
  cases hnex with
  | inserted =>
    obtain ⟨rfl, -, hstate⟩ := Stored.inserted hser.1
    exact ⟨rfl, hstate, Remote.Absent.kept h hser.1.2.1 hser.2⟩
  | not_inserted => exact Or.inr (Remote.Absent.kept h hser.1.2.1 hser.2)
  | created =>
    obtain ⟨rfl, -⟩ := h
    exact absurd (hser.2.2.1.trans hfai) (by simp)
  | create_unknown =>
    obtain ⟨rfl, hstate, habs⟩ := h
    exact ⟨rfl, hstate.kept hser.2.1, hser.2.2.2.at_most_one habs⟩
  | create_refused hamb hinv =>
    obtain ⟨rfl, -, habs⟩ := h
    have hdou : ¬ ProviderError.Doubtful _ := not_or.mpr ⟨hamb, hinv⟩
    refine hser.2.2.2.absent habs ?_
    cases hlos : exchange.outcome.is_lost with
    | true => exact happ hlos
    | false => exact refused_unapplied hser.2.2.1.symm hdou hlos
  | undone ha =>
    exact ⟨undone_account ha hser.2.2.1 h.2.2, hser.2.2.2.trans h.2.1⟩
  | not_undone => exact Or.inl (h.1.kept hser.2.1)
  | discarded | not_discarded | discard_ignored =>
    exact Or.inr (Remote.Absent.kept h hser.1.2.1 hser.2)
  | probe_found =>
    obtain ⟨rfl, hstate, hdue⟩ := h
    obtain ⟨-, hdb, ⟨hacc, hfou⟩, hsam⟩ := hser
    obtain ⟨present, hpre, rfl⟩ := hfou rfl
    have hlan : u.due = false := by
      cases hu : u.due with
      | false => rfl
      | true => exact absurd (hpre.symm.trans (hdue hu)) (by simp)
    refine ⟨hstate.kept hdb, hsam.trans hlan, fun a ha => ?_⟩
    rw [hacc] at ha
    exact congrArg ProviderAccount.account (Option.some.inj (ha.symm.trans hpre))
  | probe_empty =>
    obtain ⟨hnam, hstate, hdue⟩ := h
    exact ⟨hnam, hstate.kept hser.2.1, fun hv =>
      hser.2.2.1.1.trans (hdue (hser.2.2.2.symm.trans hv))⟩
  | probe_exhausted | probe_failed => exact Or.inl (h.2.1.kept hser.2.1)
  | gave_up =>
    rcases h with hstate | habs
    · exact Or.inl (gave_up_remembered hser.1 hstate)
    · exact Or.inr (habs.kept hser.1.2.1 hser.2)
  | _ => exact h.elim

theorem creates_over_remembers {tr : List Asked} {r : Except Status Reply}
    (hfai : self.create_account connection.username exchange.outcome = .error error)
    (happ : exchange.outcome.is_lost = true → exchange.applied = false) (hu : u.Absent)
    (hrun : CreatesOver settings connection faulty self exchange callers u tr r v) :
    v.Remembered ∨ v.Absent := by
  have hsta := (operation_conforms callers .create).runs hrun
  have hstar : RemembersAt connection (start connection callers .create) u := by
    rw [start]
    split
    · exact hu
    · exact Or.inr hu
  exact hsta.invariant hstar (fun _ _ _ => RemembersAt.later)
    fun _ _ _ _ _ _ => RemembersAt.step hfai happ

theorem creates_over_forgets (settings : ManagedSettings) (faulty : Bool)
    (self : AuthentikProvider) {actor : Actor}
    (haut : authorize_create (.ok connection.connection_id) callers.create
      = .ok (connection, actor)) (hlos : exchange.outcome.is_lost = true)
    (happ : exchange.applied = true) :
    ∃ u tr r v, u.Absent ∧ CreatesOver settings connection faulty self exchange callers u tr r v ∧
      ¬ v.Absent ∧ ¬ v.Remembered := by
  have hwai : ∀ u : Remote, u.Later u := fun u => ⟨le_refl _, rfl, Or.inl ⟨rfl, rfl⟩⟩
  let inserted : Db := ⟨some ⟨none, none, none, .Provisioning, 0, 0⟩, []⟩
  let u₁ : Remote := ⟨⟨0, inserted, none⟩, false⟩
  let u₂ : Remote := ⟨⟨0, inserted, some sample_provider_account⟩, false⟩
  let u₃ : Remote := ⟨⟨0, ⟨none, []⟩, some sample_provider_account⟩, false⟩
  have hins : Remote.Served settings connection faulty self exchange
      (.storage (.insert_provisioning connection)) ⟨empty_world, false⟩ (.ok ()) u₁ :=
    ⟨⟨rfl, rfl, Or.inl (by simp [exec, empty_world, u₁, inserted])⟩, rfl⟩
  have hcre : Remote.Served settings connection faulty self exchange
      (.provider (.create_account connection.username)) u₁ (.error .Unavailable) u₂ := by
    refine ⟨rfl, rfl, (lost_unavailable hlos).symm, ?_⟩
    simp only [Remote.Created, happ, if_true]
    exact Or.inl ⟨⟨_, rfl, by simp, by simp⟩, rfl⟩
  have hdel : Remote.Served settings connection faulty self exchange
      (.storage .delete_connection) u₂ (.ok ()) u₃ :=
    ⟨⟨rfl, rfl, Or.inl rfl⟩, rfl⟩
  have hrun : CreatesOver settings connection faulty self exchange callers ⟨empty_world, false⟩
      [⟨.storage (.insert_provisioning connection), .ok ()⟩,
        ⟨.provider (.create_account connection.username), .error .Unavailable⟩,
        ⟨.storage .delete_connection, .ok ()⟩] (.error dependency_error) u₃ := by
    unfold CreatesOver operation create
    rw [haut]
    exact .ask (hwai _) hins (.ask (hwai _) hcre
      (.ask (hwai _) hdel (.done (hwai _))))
  refine ⟨_, _, _, _, ⟨rfl, rfl⟩, hrun, fun habs => absurd habs.1 (by simp [u₃]), ?_⟩
  rintro (⟨columns, hcol, -⟩ | ⟨columns, hcol, -⟩)
  · exact absurd hcol (by simp [u₃])
  · exact absurd hcol (by simp [u₃])

end Runs

/-- **A creation whose exchange fails remembers its account,** and only fails to when the request
was applied and its connection lost before the response head. -/
theorem failed_create_remembers (settings : ManagedSettings) (connection : Connection)
    (callers : Callers) (actor : Actor) (faulty : Bool) (self : AuthentikProvider)
    (exchange : Exchange) (error : ProviderError)
    (hauth : authorize_create (.ok connection.connection_id) callers.create
      = .ok (connection, actor))
    (hfail : self.create_account connection.username exchange.outcome = .error error) :
    (∀ u tr r v, u.Absent → CreatesOver settings connection faulty self exchange callers u tr r v →
      ¬ v.Absent → v.Remembered) ↔
      ¬ (exchange.outcome.is_lost = true ∧ exchange.applied = true) := by
  constructor
  · rintro hrem ⟨hlos, happ⟩
    obtain ⟨u, tr, r, v, hu, hrun, hliv, hfor⟩ :=
      creates_over_forgets settings faulty self hauth hlos happ
    exact hfor (hrem u tr r v hu hrun hliv)
  · intro hcon u tr r v hu hrun hliv
    have happ : exchange.outcome.is_lost = true → exchange.applied = false := fun hlos =>
      Bool.eq_false_iff.mpr fun happ => hcon ⟨hlos, happ⟩
    exact (creates_over_remembers hfail happ hu hrun).resolve_right hliv

def sample_provider : AuthentikProvider := ⟨"client".toList, fun _ => none⟩

def failed_exchange : Exchange :=
  ⟨.answered ⟨500, none, []⟩, true, trivial,
    fun h => absurd (show StatusCode.is_client_error 500 = true from h) (by decide)⟩

def lost_exchange : Exchange :=
  ⟨.lost ⟨false, false, false, true, false⟩, true, ⟨rfl, rfl, rfl⟩, fun h => h.elim⟩

theorem failed_create_remembers_after_500 :
    sample_provider.create_account sample_connection.username failed_exchange.outcome
        = .error .Ambiguous ∧
      ∀ u tr r v, u.Absent → CreatesOver sample_settings sample_connection true sample_provider
        failed_exchange sample_callers u tr r v → ¬ v.Absent → v.Remembered :=
  ⟨rfl, (failed_create_remembers sample_settings sample_connection sample_callers operator_actor
    true sample_provider failed_exchange .Ambiguous rfl rfl).mpr (by decide)⟩

/-- The connection is lost after the account was made: no row, and a live account. -/
theorem lost_create_forgets :
    ∃ u tr r v, u.Absent ∧ CreatesOver sample_settings sample_connection false sample_provider
      lost_exchange sample_callers u tr r v ∧ ¬ v.Absent ∧ ¬ v.Remembered :=
  creates_over_forgets sample_settings false sample_provider
    (show authorize_create (.ok sample_connection.connection_id) sample_callers.create
      = .ok (sample_connection, operator_actor) from rfl) rfl rfl

end SovereignConfig.Managed
