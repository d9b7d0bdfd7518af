import AethelDB.Common.IdText
import AethelDB.Pageserver.BasebackupImport
import AethelDB.Pageserver.RedoExchange
import AethelDB.Pageserver.Redelivery
import AethelDB.Pageserver.BranchIsolation
import AethelDB.Pageserver.CatalogRestore
import AethelDB.Pageserver.Offload
import AethelDB.Pageserver.LayerCodec
import AethelDB.Pageserver.StrayState
import AethelDB.Pageserver.Pglz
import AethelDB.Pageserver.FramingSafety
import AethelDB.Pageserver.WalPages
import AethelDB.Safekeeper.CommitFrontier
import AethelDB.Safekeeper.Election
import AethelDB.Safekeeper.Connection
import AethelDB.Safekeeper.LeaderCompleteness
import AethelDB.Safekeeper.LsnArithmetic
import AethelDB.Safekeeper.Recycling
import AethelDB.Safekeeper.Faults
import AethelDB.Safekeeper.SoleMember
import AethelDB.Safekeeper.TenantIsolation
import AethelDB.Pageserver.ControlAuth
import AethelDB.Proxy.RunningHint
import AethelDB.Proxy.ClientSafety
import AethelDB.Proxy.AtRest
import AethelDB.Proxy.Kube
import AethelDB.Proxy.Register
import AethelDB.Proxy.FirstMessage
import AethelDB.Proxy.KeyCapture
import AethelDB.Proxy.Splice
import AethelDB.Proxy.ScramChecks
import AethelDB.Aethelctl.Branches
import AethelDB.Compute.WalRedo
