import StateDiagram.CommandLine.Workspace
import StateDiagram.Machine.Edit
import StateDiagram.Main
import StateDiagram.Proofs.Nesting
import StateDiagram.Proofs.HostCode
import StateDiagram.Proofs.Tiling
import StateDiagram.Proofs.Limit
import StateDiagram.Proofs.Coverage
import StateDiagram.Proofs.Enclosure
import StateDiagram.Proofs.Building
import StateDiagram.Proofs.LineBreak
import StateDiagram.Proofs.Resolution
import StateDiagram.Proofs.Concatenation
import StateDiagram.Proofs.Threshold
import StateDiagram.Proofs.Detecting
import StateDiagram.Proofs.Regular
import StateDiagram.Proofs.Respacing
import StateDiagram.Proofs.Bracing
import StateDiagram.Proofs.Placement
import StateDiagram.Proofs.HiddenMachine
import StateDiagram.Proofs.Constructor
import StateDiagram.Proofs.Splitting
import StateDiagram.Proofs.TypedCall
import StateDiagram.Proofs.CallArguments
import StateDiagram.Proofs.Escaping
import StateDiagram.Proofs.Appending
import StateDiagram.Proofs.Isolation
import StateDiagram.Proofs.Balance
import StateDiagram.Proofs.BalancedReading
import StateDiagram.Proofs.Snippet
import StateDiagram.Proofs.Serialization
