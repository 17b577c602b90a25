import CellularCoprocessor.Automaton.Reference
import CellularCoprocessor.CommandLine.FileTree
import CellularCoprocessor.Main
import CellularCoprocessor.Proofs.Automaton.Boards
import CellularCoprocessor.Proofs.Engine.Suspension
import CellularCoprocessor.Proofs.Machine.Refinement
import CellularCoprocessor.Proofs.Memory.Ledger
import CellularCoprocessor.Proofs.Program.Latency
import CellularCoprocessor.Proofs.Controller.Evolutions
import CellularCoprocessor.Proofs.Machine.Bursts
import CellularCoprocessor.Proofs.Engine.Reset
import CellularCoprocessor.Proofs.Program.Notation
import CellularCoprocessor.Proofs.Program.RoundTrip
import CellularCoprocessor.Proofs.Memory.Service
import CellularCoprocessor.Proofs.Machine.Abandoned
import CellularCoprocessor.Proofs.Machine.Undo
import CellularCoprocessor.Proofs.Engine.Accounts
import CellularCoprocessor.Proofs.Burst.Delivery
import CellularCoprocessor.Proofs.Machine.HostAccess
import CellularCoprocessor.Proofs.Machine.Sessions
import CellularCoprocessor.Proofs.Workload.Sweep
import CellularCoprocessor.Proofs.Workload.Capture
import CellularCoprocessor.Proofs.Workload.Placement
import CellularCoprocessor.Proofs.Workload.Bandwidth
import CellularCoprocessor.Proofs.Automaton.Symmetry
import CellularCoprocessor.Proofs.Program.Concatenation
import CellularCoprocessor.Proofs.Program.Accounting
import CellularCoprocessor.Proofs.Instruction.Words
import CellularCoprocessor.Proofs.Engine.Calls
import CellularCoprocessor.Proofs.Program.Numerals
import CellularCoprocessor.Proofs.Register.Stack
import CellularCoprocessor.Proofs.Automaton.Neighbours
