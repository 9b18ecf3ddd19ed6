/-
`rpc.rs` and the authorization half of `auth.rs`: the status every call fails
with, who is calling, and what their grants allow.
-/
import SovereignConfig.Path

namespace SovereignConfig

open Lib Text

/-! ## Status -/

inductive Code where
  | InvalidArgument
  | NotFound
  | AlreadyExists
  | PermissionDenied
  | Aborted
  | Internal
  | Unavailable
  | Unauthenticated
deriving DecidableEq

structure Status where
  code : Code
  message : String
deriving DecidableEq

namespace Status

def invalid_argument (message : String) : Status := ⟨.InvalidArgument, message⟩
def not_found (message : String) : Status := ⟨.NotFound, message⟩
def already_exists (message : String) : Status := ⟨.AlreadyExists, message⟩
def permission_denied (message : String) : Status := ⟨.PermissionDenied, message⟩
def aborted (message : String) : Status := ⟨.Aborted, message⟩
def internal (message : String) : Status := ⟨.Internal, message⟩
def unavailable (message : String) : Status := ⟨.Unavailable, message⟩
def unauthenticated (message : String) : Status := ⟨.Unauthenticated, message⟩

end Status

def storage_unavailable : Status := .unavailable "configuration storage is unavailable"

abbrev OffsetDateTime := ℤ

structure Timestamp where
  seconds : ℤ
  nanos : ℤ
deriving DecidableEq

def to_timestamp (value : OffsetDateTime) : Timestamp :=
  ⟨value / 1000000000, value % 1000000000⟩

/-! ## The caller -/

inductive Permission where
  | Read
  | Write
  | Manage
deriving DecidableEq

structure Grant where
  prefix_path : Text
  permissions : List Permission
deriving DecidableEq

structure AuthenticatedPrincipal where
  subject : Text
  name : Option Text
  grants : List Grant
deriving DecidableEq

def AuthenticatedPrincipal.allows (self : AuthenticatedPrincipal) (path : ConfigPath)
    (permission : Permission) : Bool :=
  self.grants.any fun grant =>
    grant.permissions.contains permission
      && (grant.prefix_path == root_text
        || path.fold == grant.prefix_path
        || (strip_prefix_of path.fold grant.prefix_path).any
            (fun suffix => starts_with suffix ['/']))

structure Actor where
  subject : Text
  name : Option Text
  protocol_version : Text
deriving DecidableEq

def Actor.shown (self : Actor) : Text := self.name.getD self.subject

structure CallContext where
  caller : Option AuthenticatedPrincipal
  protocol_version : Option Text

def UNATTRIBUTED_PROTOCOL_LABEL : Text := "unattributed".toList

namespace CallContext

def principal (self : CallContext) : Except Status AuthenticatedPrincipal :=
  match self.caller with
  | some principal => .ok principal
  | none => .error (.unauthenticated "authentication required")

def actor (self : CallContext) : Except Status Actor := do
  let principal ← self.principal
  return ⟨principal.subject, principal.name,
    self.protocol_version.getD UNATTRIBUTED_PROTOCOL_LABEL⟩

end CallContext

def operator_principal : AuthenticatedPrincipal :=
  ⟨"operator".toList, none, [⟨root_text, [.Read, .Write, .Manage]⟩]⟩

def operator : CallContext := ⟨some operator_principal, some "v5".toList⟩

/-- `values/authz.rs`: the path of a request, once the caller may act on it. -/
def authorize (context : CallContext) (path : Text) (permissions : List Permission)
    (allow_root : Bool) : Except Status ConfigPath :=
  match if allow_root then ConfigPath.parse_selection path else ConfigPath.parse_operation path with
  | .error _ => .error (.invalid_argument "configuration path is invalid")
  | .ok path => do
    let principal ← context.principal
    if permissions.any (fun permission => !principal.allows path permission) then
      .error (.permission_denied "configuration operation is not permitted")
    else
      .ok path

variable {p : ConfigPath} {value path : Text} {allow_root : Bool} {context : CallContext}
  {permissions : List Permission}

theorem parse_operation_path (h : ConfigPath.parse_operation value = .ok p) :
    p.path = value ∧ operation_path value = true := by
  unfold ConfigPath.parse_operation at h
  split at h
  · rename_i hop
    obtain rfl := Except.ok.inj h
    exact ⟨rfl, hop⟩
  · simp at h

theorem parse_operation_canonical (h : ConfigPath.parse_operation value = .ok p) :
    operation_path p.path = true := by
  obtain ⟨hpat, hop⟩ := parse_operation_path h
  rw [hpat]
  exact hop

theorem parse_selection_path (h : ConfigPath.parse_selection value = .ok p) : p.path = value := by
  unfold ConfigPath.parse_selection at h
  split at h
  · rename_i hroo
    obtain rfl := Except.ok.inj h
    exact hroo.symm
  · exact (parse_operation_path h).1

theorem parse_selection_as_str (p : ConfigPath) : ConfigPath.parse_selection p.as_str = .ok p := by
  obtain ⟨path, canonical⟩ := p
  by_cases hroo : path = root_text
  · subst hroo
    rfl
  · exact (if_neg hroo).trans (dif_pos (canonical.resolve_left hroo))

theorem operation_ne_root {t : Text} (h : operation_path t = true) : t ≠ root_text := by
  rintro rfl
  exact absurd h (by decide)

theorem authorize_ok (h : authorize context path permissions allow_root = .ok p) :
    (if allow_root then ConfigPath.parse_selection path else ConfigPath.parse_operation path)
        = .ok p ∧
      ∃ principal, context.principal = .ok principal ∧
        ∀ permission ∈ permissions, principal.allows p permission = true := by
  unfold authorize at h
  split at h
  · simp at h
  · rename_i q hq
    cases hpri : context.principal with
    | error e => simp [hpri, bind, Except.bind] at h
    | ok principal =>
      simp only [hpri, bind, Except.bind] at h
      split at h
      · simp at h
      · rename_i hall
        obtain rfl := Except.ok.inj h
        exact ⟨hq, principal, rfl, by simpa using hall⟩

theorem authorize_allows {principal : AuthenticatedPrincipal}
    (h : authorize context path permissions allow_root = .ok p)
    (hp : context.principal = .ok principal) :
    ∀ permission ∈ permissions, principal.allows p permission = true := by
  obtain ⟨-, principal', hp', hall⟩ := authorize_ok h
  rwa [← Except.ok.inj (hp'.symm.trans hp)]

theorem authorize_operation (h : authorize context path permissions false = .ok p) :
    operation_path p.path = true := parse_operation_canonical (authorize_ok h).1

theorem authorize_actor (h : authorize context path permissions allow_root = .ok p) :
    ∃ actor, context.actor = .ok actor := by
  obtain ⟨_, principal, hpri⟩ := authorize_ok h
  exact ⟨_, by simp only [CallContext.actor, hpri]; rfl⟩

end SovereignConfig
