import FanoutCone.FaninTable
import FanoutCone.Proofs.Allowances
import FanoutCone.Proofs.BottomUp
import FanoutCone.Proofs.Collapse
import FanoutCone.Proofs.CommandLines
import FanoutCone.Proofs.ConelessRoots
import FanoutCone.Proofs.CutLimits
import FanoutCone.Proofs.DeclaredCounts
import FanoutCone.Proofs.DrawnGraphs
import FanoutCone.Proofs.Labels
import FanoutCone.Proofs.MarkRuns
import FanoutCone.Proofs.PastQueries
import FanoutCone.Proofs.ProtectedCones
import FanoutCone.Proofs.RoundTrip
import FanoutCone.Proofs.StrayHandles
import FanoutCone.Proofs.SymbolNames
import FanoutCone.Proofs.UndoneReferences
