import Lalr.Construction
import Lalr.Notice
import Lalr.Proofs.BlockSet
import Lalr.Proofs.Build
import Lalr.Proofs.Canonical
import Lalr.Proofs.Closure
import Lalr.Proofs.CodeSpace
import Lalr.Proofs.Codes
import Lalr.Proofs.Collection
import Lalr.Proofs.Completeness
import Lalr.Proofs.Conflicts
import Lalr.Proofs.Contest
import Lalr.Proofs.Core
import Lalr.Proofs.Crossing
import Lalr.Proofs.Decision
import Lalr.Proofs.Derivation
import Lalr.Proofs.EmptySearch
import Lalr.Proofs.Encoding
import Lalr.Proofs.EndOfInput
import Lalr.Proofs.Ending
import Lalr.Proofs.Exploration
import Lalr.Proofs.First
import Lalr.Proofs.FirstFit
import Lalr.Proofs.Growth
import Lalr.Proofs.Halting
import Lalr.Proofs.Kernels
import Lalr.Proofs.Keyed
import Lalr.Proofs.LeadingEmpty
import Lalr.Proofs.Lockstep
import Lalr.Proofs.Lookahead
import Lalr.Proofs.Loops
import Lalr.Proofs.MachineStep
import Lalr.Proofs.Merging
import Lalr.Proofs.Names
import Lalr.Proofs.Numbering
import Lalr.Proofs.Packing
import Lalr.Proofs.Pass
import Lalr.Proofs.Path
import Lalr.Proofs.PlainMachine
import Lalr.Proofs.Policy
import Lalr.Proofs.Probing
import Lalr.Proofs.RawCodes
import Lalr.Proofs.Readback
import Lalr.Proofs.Rebuild
import Lalr.Proofs.Repetition
import Lalr.Proofs.Reports
import Lalr.Proofs.Safety
import Lalr.Proofs.SetOperations
import Lalr.Proofs.Slots
import Lalr.Proofs.Soundness
import Lalr.Proofs.Spread
import Lalr.Proofs.Stages
import Lalr.Proofs.State
import Lalr.Proofs.Steps
import Lalr.Proofs.Table
import Lalr.Proofs.Terminals
import Lalr.Proofs.Termination
import Lalr.Proofs.Tree
import Lalr.Proofs.Validation
import Lalr.Proofs.ViablePrefix
import Lalr.Proofs.Walk
import Lalr.Proofs.WellFormed
import Lalr.Proofs.Worklist
import Lalr.BlockSet
