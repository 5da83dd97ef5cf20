import ConvergioMesh.Capability.Answers
import ConvergioMesh.Capability.Listing
import ConvergioMesh.Capability.Versions
import ConvergioMesh.Delegation
import ConvergioMesh.Peers.Canonical
import ConvergioMesh.Peers.Coordinator
import ConvergioMesh.Peers.Injection
import ConvergioMesh.Peers.Lookup
import ConvergioMesh.Peers.Panics
import ConvergioMesh.Peers.Registry
import ConvergioMesh.Peers.RoundTrip
import ConvergioMesh.Peers.Secret
import ConvergioMesh.Peers.Sessions
import ConvergioMesh.Routes.Identity
import ConvergioMesh.Routes.Server
import ConvergioMesh.Sync.Chronology
import ConvergioMesh.Sync.Collisions
import ConvergioMesh.Sync.Compatibility
import ConvergioMesh.Sync.Concurrent
import ConvergioMesh.Sync.Convergence
import ConvergioMesh.Sync.Discipline
import ConvergioMesh.Sync.Drift
import ConvergioMesh.Sync.Exchange
import ConvergioMesh.Sync.LocalWrites
import ConvergioMesh.Sync.Progress
import ConvergioMesh.Sync.Quiet
import ConvergioMesh.Sync.Rejects
import ConvergioMesh.Sync.Relay
import ConvergioMesh.Sync.Report
import ConvergioMesh.Sync.Schedule
import ConvergioMesh.Sync.Statements
import ConvergioMesh.Sync.Streaks
import ConvergioMesh.Sync.Tolerance
import ConvergioMesh.Transport.Address
import ConvergioMesh.Transport.Age
import ConvergioMesh.Transport.Authentic
import ConvergioMesh.Transport.Delivery
import ConvergioMesh.Transport.Honest
