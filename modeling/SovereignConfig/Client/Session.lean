/-
`Session::call` of `sovereign-config-client/src/lib.rs`. What the service serves, and what other
calls do to the session meanwhile, is in the answers.
-/
import SovereignConfig.Client.Status
import SovereignConfig.Lib.Traced

namespace SovereignConfig.Session

open Lib List

variable {Q : Type} {A : Q → Type} {R : Type}

def LEGACY : ProtocolVersion := .V3

structure VersionReply where
  protocol_version : Text
  supported_protocol_versions : List Text

/-- The requests of a session; `rpc` is one of an operation, on the routes of a version. -/
inductive Request (Q : Type) where
  | transport
  | served_versions (client_versions : List ProtocolVersion)
  | legacy_version
  | swap (status : ServiceStatus)
  | rpc (version : ProtocolVersion) (q : Q)

abbrev Answer (A : Q → Type) : Request Q → Type
  | .transport => ProtocolVersion
  | .served_versions _ => Except ClientError (List ServedVersion)
  | .legacy_version => Except ClientError VersionReply
  | .swap _ => Unit
  | .rpc _ q => A q

abbrev SessionCall (A : Q → Type) := Call (Request Q) (Answer A) ClientError

def ask (q : Request Q) : SessionCall A (Answer A q) := .ask q fun a => .done (.ok a)

/-- A service with no handshake answers it by one of two errors: servers that authenticate before
they route refuse it for want of a token. -/
def predates_the_handshake (error : ClientError) : Bool :=
  error.kind = .Unauthenticated || error.kind = .IncompatibleProtocol

def VersionReply.served (self : VersionReply) : List ServedVersion :=
  if self.protocol_version = LEGACY.as_str then [⟨LEGACY.as_str, none⟩]
  else if self.supported_protocol_versions.isEmpty then [⟨self.protocol_version, none⟩]
  else self.supported_protocol_versions.map (⟨·, none⟩)

def legacy_served : SessionCall A (List ServedVersion) := do
  let reply ← .lift (← ask .legacy_version)
  pure reply.served

def served_or_legacy : Except ClientError (List ServedVersion) → SessionCall A (List ServedVersion)
  | .ok served => pure served
  | .error error => if predates_the_handshake error then legacy_served else .fail error

def negotiate : SessionCall A ServiceStatus := do
  let served ← served_or_legacy (← ask (.served_versions ProtocolVersion.ALL))
  .lift (ServiceStatus.select served)

def renegotiate : SessionCall A ProtocolVersion := do
  let status ← negotiate
  ask (.swap status)
  pure status.protocol_version

def speaking (version : ProtocolVersion) (operation : Call Q A ClientError R) : SessionCall A R :=
  operation.embed (Request.rpc version)

/-- What follows the first run of an operation. -/
def retry (operation : Call Q A ClientError R) : Except ClientError R → SessionCall A R
  | .ok value => pure value
  | .error error =>
    if error.kind = .VersionNotServed then do
      let version ← renegotiate
      speaking version operation
    else .fail error

def call (operation : Call Q A ClientError R) : SessionCall A R := do
  let version ← ask .transport
  let result ← ((speaking version operation).attempt : SessionCall A (Except ClientError R))
  retry operation result

abbrev Event (A : Q → Type) := Call.Event (Request Q) (Answer A)

/-- One run of an operation, on the routes of a version, and what it came to. -/
structure Attempt (operation : Call Q A ClientError R) where
  version : ProtocolVersion
  trace : List (Call.Event Q A)
  result : Except ClientError R
  traced : operation.Traced trace result

def Request.operates : Request Q → Bool
  | .rpc _ _ => true
  | _ => false

variable {trace : List (Event A)}

theorem negotiate_asks : (negotiate : SessionCall A _).Asks (·.operates = false) := by
  refine ⟨rfl, fun answer => ?_⟩
  refine Call.Asks.bind (x := served_or_legacy answer) ?_ fun served => trivial
  cases answer with
  | ok served => trivial
  | error error =>
    rw [served_or_legacy]
    split_ifs
    · refine ⟨rfl, fun reply => ?_⟩
      cases reply <;> trivial
    · trivial

theorem renegotiate_asks : (renegotiate : SessionCall A _).Asks (·.operates = false) :=
  negotiate_asks.bind fun _ => ⟨rfl, fun _ => trivial⟩

variable {operation : Call Q A ClientError R} {outcome : Except ClientError R}

theorem call_asks {ok : Request Q → Prop}
    (hope : ∀ version, operation.Asks fun q => ok (.rpc version q))
    (hok : ∀ q : Request Q, q.operates = false → ok q) : (call operation).Asks ok := by
  refine ⟨hok _ rfl, fun version => (hope version).embed.attempt.bind fun result => ?_⟩
  cases result with
  | ok value => trivial
  | error error =>
    rw [retry]
    split_ifs
    · exact (renegotiate_asks.imp hok).bind fun version => (hope version).embed
    · trivial

end SovereignConfig.Session
