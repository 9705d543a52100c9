import ContractFlow.Data.JsonReader
import ContractFlow.Log.Channel
import ContractFlow.Log.Entry
import ContractFlow.Policy.Assembled
import ContractFlow.Proofs.Call.Path
import ContractFlow.Proofs.Call.Super
import ContractFlow.Proofs.Control.Statement
import ContractFlow.Proofs.Flow.Aliasing
import ContractFlow.Proofs.Flow.Assignment
import ContractFlow.Proofs.Flow.Closure
import ContractFlow.Proofs.Flow.Comparison
import ContractFlow.Proofs.Flow.Explicit
import ContractFlow.Proofs.Flow.Push
import ContractFlow.Proofs.Lineage.Conflict
import ContractFlow.Proofs.Lineage.Depth
import ContractFlow.Proofs.Location
import ContractFlow.Proofs.Policy.Lock
import ContractFlow.Proofs.Policy.Registry
import ContractFlow.Proofs.Policy.Validation
import ContractFlow.Proofs.Program.Scope
import ContractFlow.Proofs.Session.Demand
import ContractFlow.Proofs.Ssa.OrderFree
import ContractFlow.Report.Call
import ContractFlow.Report.Flow
import ContractFlow.Report.Graph
import ContractFlow.Report.Lineage
import ContractFlow.Report.Question
import ContractFlow.Report.Tree
