/-
`sovereign-config-identity/src/lib.rs`: the identity provider, as a relation between the account
before a call, the answer and the account after. `Contract` is the documented one.
-/
import SovereignConfig.Managed.Connection

namespace SovereignConfig.Managed

open Lib Text

inductive ProviderError where
  | NotFound
  | Rejected
  | Unavailable
  | Ambiguous
  | Invalid
deriving DecidableEq

/-! ## What the provider hands back -/

def MAX_IDENTIFIER_CHARS : ℕ := 128

def bounded (value : Text) : Bool :=
  !value.isEmpty && decide (byte_len value ≤ MAX_IDENTIFIER_CHARS) && !value.any is_control

structure AccountId where
  value : Text
  ok : bounded value = true
deriving DecidableEq

def AccountId.parse (value : Text) : Option AccountId :=
  if h : bounded value = true then some ⟨value, h⟩ else none

def AccountId.as_str (self : AccountId) : Text := self.value

structure CredentialId where
  value : Text
  ok : bounded value = true
deriving DecidableEq

def CredentialId.parse (value : Text) : Option CredentialId :=
  if h : bounded value = true then some ⟨value, h⟩ else none

def CredentialId.as_str (self : CredentialId) : Text := self.value

theorem AccountId.parse_as_str (id : AccountId) : AccountId.parse id.as_str = some id :=
  dif_pos id.ok

def admits_client_id (client_id : Text) : Bool :=
  !client_id.isEmpty
    && client_id.all (fun c => c.isAlphanum || c == '-' || c == '.' || c == '_' || c == '~')

structure ClientCredential where
  client_id : Text
  secret : Text
  ok : (admits_client_id client_id && !secret.isEmpty && !secret.any is_control) = true
deriving DecidableEq

structure ProvisionedAccount where
  account : AccountId
  subject : Text
  credential : ClientCredential
deriving DecidableEq

structure AccountGrant where
  connection_id : Text
  display_name : Text
  root : Text
  permissions : List Text
deriving DecidableEq

def ConnectionRow.account (self : ConnectionRow) : Option AccountId :=
  self.columns.provider_user_id.bind AccountId.parse

def ConnectionRow.credential (self : ConnectionRow) : Option CredentialId :=
  self.columns.credential_identifier.bind CredentialId.parse

inductive ProviderCall where
  | create_account (username : Text)
  | grant (account : AccountId) (grant : AccountGrant)
  | assign_browse_group (account : AccountId)
  | find_account (username : Text)
  | find_credentials (username : Text)
  | replace_credential (credential : CredentialId)
  | delete_account (account : AccountId)
deriving DecidableEq

def ProviderCall.Result : ProviderCall → Type
  | create_account _ => ProvisionedAccount
  | grant .. => Unit
  | assign_browse_group _ => Unit
  | find_account _ => Option AccountId
  | find_credentials _ => List CredentialId
  | replace_credential _ => ClientCredential
  | delete_account _ => Unit

abbrev ProviderCall.Answer (call : ProviderCall) : Type := Except ProviderError call.Result

/-! ## The contract -/

structure ProviderAccount where
  account : AccountId
  credential : CredentialId
  current : ClientCredential
deriving DecidableEq

def ProviderAccount.replaced (self : ProviderAccount) (value : ClientCredential) :
    ProviderAccount :=
  { self with current := value }

def credentials (account : Option ProviderAccount) : List CredentialId :=
  (account.map ProviderAccount.credential).toList

def without (account : Option ProviderAccount) (id : AccountId) : Option ProviderAccount :=
  account.filter (·.account ≠ id)

def CreatedAs (id : Option AccountId) (value : Option ClientCredential)
    (after : Option ProviderAccount) : Prop :=
  ∃ account, after = some account ∧ (∀ i ∈ id, account.account = i) ∧
    (∀ v ∈ value, account.current = v)

def ReplacedBy (credential : CredentialId) (value : Option ClientCredential)
    (before after : Option ProviderAccount) : Prop :=
  ∃ account v, before = some account ∧ account.credential = credential ∧ (∀ u ∈ value, v = u) ∧
    after = some (account.replaced v)

/-- **The documented contract,** for a call about the account called `username`; `creator` says
whether the caller created the account in the same flow. -/
def Contract (username : Text) (creator : Bool) :
    (call : ProviderCall) → Option ProviderAccount → call.Answer → Option ProviderAccount → Prop
  | .create_account name, before, answer, after =>
    if name = username then match answer with
      | .ok created => CreatedAs (some created.account) (some created.credential) after
      | .error .Ambiguous | .error .Invalid => after = before ∨ CreatedAs none none after
      | .error _ => after = before
    else after = before
  | .grant .., before, _, after => after = before
  | .assign_browse_group _, before, _, after => after = before
  | .find_account name, before, answer, after =>
    after = before ∧ (name = username → match answer with
      | .ok (some id) => ∃ account, before = some account ∧ account.account = id
      | _ => True)
  | .find_credentials name, before, answer, after =>
    after = before ∧ (name = username → match answer with
      | .ok ids => ids = credentials before
      | .error _ => True)
  | .replace_credential credential, before, answer, after =>
    match answer with
      | .ok value => ReplacedBy credential (some value) before after
      | .error .NotFound => after = before ∧ credential ∉ credentials before
      | .error .Ambiguous | .error .Invalid =>
        after = before ∨ ReplacedBy credential none before after
      | .error _ => after = before
  | .delete_account id, before, answer, after =>
    match answer with
      | .ok () => after = without before id
      | .error .NotFound =>
        if creator then after = without before id else after = before ∨ after = without before id
      | .error _ => after = before ∨ after = without before id

variable {account after before : Option ProviderAccount} {call : ProviderCall} {creator : Bool}
  {username name : Text}

theorem without_eq_none {id : AccountId} :
    without account id = none ↔ ∀ a, account = some a → a.account = id := by
  cases account with
  | none => simp [without]
  | some a => simp [without]

theorem credentials_eq_nil : credentials account = [] ↔ account = none := by
  cases account <;> simp [credentials]

theorem Contract.kept {answer : call.Answer}
    (h : Contract username creator call before answer after)
    (hcal : ∀ name, call ≠ .create_account name) {account' : ProviderAccount}
    (haft : after = some account') :
    ∃ account, before = some account ∧ account.account = account'.account ∧
      account.credential = account'.credential := by
  have hsam : after = before → ∃ account, before = some account ∧
      account.account = account'.account ∧ account.credential = account'.credential :=
    fun heq => ⟨account', heq ▸ haft, rfl, rfl⟩
  have hrep : ∀ {credential value}, ReplacedBy credential value before after →
      ∃ account, before = some account ∧ account.account = account'.account ∧
        account.credential = account'.credential := by
    rintro credential value ⟨account, v, hbef, -, -, heq⟩
    obtain rfl := Option.some.inj (heq.symm.trans haft)
    exact ⟨account, hbef, rfl, rfl⟩
  have hwit : ∀ {id}, after = without before id → ∃ account, before = some account ∧
      account.account = account'.account ∧ account.credential = account'.credential := by
    intro id heq
    rw [haft] at heq
    exact ⟨account', (Option.filter_eq_some_iff.mp heq.symm).1, rfl, rfl⟩
  cases call with
  | create_account name => exact absurd rfl (hcal name)
  | grant account grant => exact hsam h
  | assign_browse_group account => exact hsam h
  | find_account name => exact hsam h.1
  | find_credentials name => exact hsam h.1
  | replace_credential credential =>
    rcases answer with _ | value
    · rename_i error
      cases error with
      | NotFound => exact hsam h.1
      | Rejected => exact hsam h
      | Unavailable => exact hsam h
      | Ambiguous => exact h.elim hsam hrep
      | Invalid => exact h.elim hsam hrep
    · exact hrep h
  | delete_account id =>
    rcases answer with _ | value
    · rename_i error
      cases error with
      | NotFound =>
        simp only [Contract] at h
        split at h
        · exact hwit h
        · exact h.elim hsam hwit
      | Rejected => exact h.elim hsam hwit
      | Unavailable => exact h.elim hsam hwit
      | Ambiguous => exact h.elim hsam hwit
      | Invalid => exact h.elim hsam hwit
    · exact hwit h

theorem Contract.asked_elsewhere {answer : (ProviderCall.create_account name).Answer}
    (h : Contract username creator (.create_account name) before answer after)
    (hnam : name ≠ username) : after = before := by
  rw [Contract.eq_def] at h
  exact (if_neg hnam).mp h

theorem Contract.asked_in_vain {err : ProviderError}
    (h : Contract username creator (.create_account name) before (.error err) after)
    (hamb : err ≠ .Ambiguous) (hinv : err ≠ .Invalid) : after = before := by
  by_cases hnam : name = username
  · cases err with
    | Ambiguous => exact absurd rfl hamb
    | Invalid => exact absurd rfl hinv
    | _ => exact (if_pos hnam).mp h
  · exact h.asked_elsewhere hnam

theorem Contract.asked_and_given {p : ProvisionedAccount}
    (h : Contract username creator (.create_account name) before (.ok p) after)
    (hnam : name = username) : ∃ account, after = some account ∧ account.account = p.account ∧
      account.current = p.credential := by
  obtain ⟨account, haft, hid, hcur⟩ := (if_pos hnam).mp h
  exact ⟨account, haft, hid _ rfl, hcur _ rfl⟩

theorem Contract.none {answer : call.Answer}
    (h : Contract username creator call none answer after)
    (hcal : ∀ name, call ≠ .create_account name) : after = none := by
  cases haft : after with
  | none => rfl
  | some account' =>
    obtain ⟨account, hbef, -⟩ := h.kept hcal haft
    simp at hbef

end SovereignConfig.Managed
