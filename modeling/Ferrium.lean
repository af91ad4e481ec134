import Ferrium.Cluster.Applied
import Ferrium.Cluster.Election
import Ferrium.Cluster.Indices
import Ferrium.Cluster.Progress
import Ferrium.Net.Reads
import Ferrium.Protocol.Cursor
import Ferrium.Raft.Commit
import Ferrium.Raft.Overflow
import Ferrium.Raft.Reference
import Ferrium.Raft.Splicing
import Ferrium.Raft.Timers
import Ferrium.Raft.Votes
import Ferrium.Server.Linear
import Ferrium.Server.Metrics
import Ferrium.Server.Redirects
import Ferrium.Server.Snapshots
import Ferrium.Server.Waiting
import Ferrium.Server.Wired
import Ferrium.Sim.Failover
import Ferrium.Sim.Stores
import Ferrium.Storage.Deletion
import Ferrium.Storage.Recovery
import Ferrium.Server.Retention
