import QuantumLab.Dense.Lemmas
import QuantumLab.Document.Program
import QuantumLab.Document.Result
import QuantumLab.Json.Render
import QuantumLab.Pipeline
import QuantumLab.Settings
import QuantumLab.Evolution.Unitary
import QuantumLab.Proofs.Execution.Denotation
import QuantumLab.Proofs.Execution.Worklist
import QuantumLab.Proofs.Execution.Pruning
import QuantumLab.Proofs.Execution.Memoization
import QuantumLab.Proofs.Execution.Results
import QuantumLab.Proofs.Execution.History
import QuantumLab.Proofs.Execution.Faults
import QuantumLab.Proofs.Execution.Blame
import QuantumLab.Proofs.Evaluation.Expressions
import QuantumLab.Proofs.Lowering.Emission
import QuantumLab.Proofs.Lowering.Planned
import QuantumLab.Proofs.Dense.Extents
import QuantumLab.Proofs.Lowering.Nodes
import QuantumLab.Proofs.Lowering.Simulation
import QuantumLab.Proofs.Program.Stages
import QuantumLab.Proofs.Lowering.Statements
import QuantumLab.Proofs.Lowering.Declarations
import QuantumLab.Proofs.Lowering.Experiments
import QuantumLab.Proofs.Validation.Steps
import QuantumLab.Proofs.Validation.References
import QuantumLab.Proofs.Validation.Grids
import QuantumLab.Proofs.Lowering.Programs
import QuantumLab.Proofs.Typing.Expressions
import QuantumLab.Proofs.Typing.Scopes
import QuantumLab.Proofs.Typing.Declarations
import QuantumLab.Proofs.Validation.Hermiticity
import QuantumLab.Proofs.Execution.Typing
import QuantumLab.Proofs.Typing.Agreement
import QuantumLab.Proofs.Lowering.Typing
import QuantumLab.Proofs.Execution.Experiments
import QuantumLab.Proofs.Execution.Verification
import QuantumLab.Proofs.Execution.Measurements
import QuantumLab.Proofs.Execution.Grids
import QuantumLab.Proofs.Execution.Workload
import QuantumLab.Proofs.Program.Resolution
import QuantumLab.Proofs.Program.Soundness
import QuantumLab.Proofs.Evaluation.Faults
import QuantumLab.Proofs.Lowering.Steps
import QuantumLab.Proofs.Lowering.Faults
import QuantumLab.Proofs.Program.WellFormedness
import QuantumLab.Proofs.Program.Acceptance
import QuantumLab.Proofs.Program.TimeGrids
import QuantumLab.Proofs.Json.Text
import QuantumLab.Proofs.Document.Values
import QuantumLab.Proofs.Document.Plans
import QuantumLab.Proofs.Document.Programs
import QuantumLab.Proofs.Exact.Reals
import QuantumLab.Proofs.Exact.Matrices
import QuantumLab.Proofs.Exact.Spectra
import QuantumLab.Proofs.Exact.Measurement
import QuantumLab.Proofs.Exact.Probabilities
import QuantumLab.Proofs.Exact.Generator
import QuantumLab.Proofs.Exact.Lindblad
import QuantumLab.Proofs.Exact.Expectation
import QuantumLab.Proofs.Exact.Kets
import QuantumLab.Proofs.Exact.Trajectories
import QuantumLab.Proofs.Exact.Channels
import QuantumLab.Proofs.Irrelevance.Names
import QuantumLab.Proofs.Irrelevance.Scopes
import QuantumLab.Proofs.Irrelevance.Validation
import QuantumLab.Proofs.Irrelevance.Plans
import QuantumLab.Proofs.Irrelevance.Lowering
import QuantumLab.Proofs.Irrelevance.Statements
import QuantumLab.Proofs.Irrelevance.Programs
import QuantumLab.Proofs.Arithmetic.Comparison
import QuantumLab.Proofs.Program.Tolerance
import QuantumLab.Proofs.Exchange.Names
import QuantumLab.Proofs.Exchange.Experiments
import QuantumLab.Proofs.Exchange.Plans
import QuantumLab.Proofs.Exchange.Frame
import QuantumLab.Proofs.Exchange.Lowering
import QuantumLab.Proofs.Exchange.Scopes
import QuantumLab.Proofs.Exchange.Validation
import QuantumLab.Proofs.Exchange.Programs
import QuantumLab.Proofs.Evaluation.Substitution
import QuantumLab.Proofs.Program.Assignments
import QuantumLab.Proofs.Validation.Substitution
import QuantumLab.Proofs.Program.Inlining
import QuantumLab.Proofs.Typing.Parameters
import QuantumLab.Proofs.Arithmetic.Undefined
import QuantumLab.Proofs.Validation.Bounds
import QuantumLab.Proofs.Evaluation.Unsupported
import QuantumLab.Proofs.Validation.Symbols
import QuantumLab.Proofs.Document.Results
import QuantumLab.Proofs.Typing.Extents
import QuantumLab.Proofs.Execution.Pending
import QuantumLab.Proofs.Exact.NearestTimes
import QuantumLab.Proofs.Document.Arrays
import QuantumLab.Proofs.Exact.Tensors
