import SovereignConfig.Audit.Element
import SovereignConfig.Audit.Repair
import SovereignConfig.Audit.Scroll
import SovereignConfig.Audit.Windows
import SovereignConfig.Values.ChainRuns
import SovereignConfig.Values.Itemized
import SovereignConfig.Values.Noninterference
import SovereignConfig.Values.Plain
import SovereignConfig.Values.Startup
import SovereignConfig.Values.Versions
import SovereignConfig.Managed.Authentik
import SovereignConfig.Managed.Escalation
import SovereignConfig.Managed.Identity
import SovereignConfig.Managed.Orphans
import SovereignConfig.Managed.Rotation
import SovereignConfig.Broker.Handler
import SovereignConfig.Broker.Rendering
import SovereignConfig.Auth.Jwks
import SovereignConfig.Metrics.Protocol
import SovereignConfig.Provider.Mapping
import SovereignConfig.Web.Feed
import SovereignConfig.Web.Framing
import SovereignConfig.Web.Policy
import SovereignConfig.Web.Tree
import SovereignConfig.Web.Unload
