import CedarGraph.Temporal.MissingState
import CedarGraph.Projection.PropertyIndexBuilder
import CedarGraph.Relational.Distinct
import CedarGraph.Relational.TemporalPreflight
import CedarGraph.Relational.Interchange
import CedarGraph.Storage.ConflictRule
import CedarGraph.Kernel.CommitGate
import CedarGraph.Kernel.ReadOwnWrites
import CedarGraph.Projection.BoundDelta
import CedarGraph.Projection.RefreshFiles
import CedarGraph.Runtime.FastestDuration
import CedarGraph.Kernel.PreparedListing
import CedarGraph.Server.BoltTransactions
import CedarGraph.Storage.EdgeIdentities
import CedarGraph.Cypher.Session
import CedarGraph.Runtime.OverlapExpansion
import CedarGraph.Runtime.AdjacencyIndex
import CedarGraph.Runtime.CoexistingWinners
import CedarGraph.Runtime.QueryReservation
import CedarGraph.Runtime.QueryPool
import CedarGraph.Kernel.AppendQueue
import CedarGraph.Storage.PreparedCodec
import CedarGraph.Projection.LiveRepair
