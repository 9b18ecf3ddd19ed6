/-
`sovereign-config-core/src/error.rs`: the errors of the clients.
-/
import SovereignConfig.Text

namespace SovereignConfig

inductive ErrorKind where
  | Unauthenticated
  | PermissionDenied
  | IncompatibleProtocol
  | VersionNotServed
  | InvalidRequest
  | NotFound
  | Conflict
  | Unavailable
  | Internal
deriving DecidableEq

structure ClientError where
  kind : ErrorKind
  message : String
deriving DecidableEq

end SovereignConfig
