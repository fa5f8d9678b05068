import Micro51.Parse
import Micro51.Tree
import Micro51.Code
import Micro51.Compiler
import Micro51.CommandLine
import Micro51.Nodes
import Micro51.Main
import Micro51.Proofs.Outcome
import Micro51.Proofs.Trimming
import Micro51.Proofs.LineStep
import Micro51.Proofs.SignatureStep
import Micro51.Proofs.Storage
import Micro51.Proofs.Agreement
import Micro51.Proofs.Founded
import Micro51.Proofs.Located
import Micro51.Proofs.Machine
import Micro51.Proofs.Meaning
import Micro51.Proofs.ExprCode
import Micro51.Proofs.Labels
import Micro51.Proofs.Layout
import Micro51.Proofs.Nesting
import Micro51.Proofs.Correctness
import Micro51.Proofs.Jumps
import Micro51.Proofs.LineText
import Micro51.Proofs.Sections
import Micro51.Proofs.Kinds
import Micro51.Proofs.Scoping
import Micro51.Proofs.Outline
import Micro51.Proofs.BlockGrammar
import Micro51.Proofs.Splicing
import Micro51.Proofs.Cycles
import Micro51.Proofs.Renumbering
import Micro51.Proofs.Spacing
import Micro51.Proofs.LayoutFree
import Micro51.Proofs.Ledger
import Micro51.Proofs.Neutral
import Micro51.Proofs.Balance
import Micro51.Proofs.Handlers
import Micro51.Proofs.Pieces
import Micro51.Proofs.Operands
import Micro51.Proofs.OutputOptions
import Micro51.Proofs.CallStorage
import Micro51.Proofs.GuardedRuns
import Micro51.Proofs.Guards
import Micro51.Proofs.RunsThrough
import Micro51.Proofs.ReadingState
import Micro51.Proofs.Footprint
import Micro51.Proofs.ValueCode
import Micro51.Proofs.Passing
import Micro51.Proofs.ArgumentBinding
import Micro51.Proofs.Splitting
import Micro51.Proofs.Chains
import Micro51.Proofs.ChainText
import Micro51.Proofs.Spellings
import Micro51.Proofs.Terms
import Micro51.Proofs.Precedence
import Micro51.Proofs.NegativeLiterals
import Micro51.Proofs.Signedness
import Micro51.Proofs.SymbolChoice
import Micro51.Proofs.CallReading
import Micro51.Proofs.Residue
import Micro51.Proofs.ResidueLines
import Micro51.Proofs.TrailingComments
import Micro51.Proofs.EntryPoints
import Micro51.Proofs.TreeNesting
import Micro51.Proofs.DiskWrites
import Micro51.Proofs.RunEffects
import Micro51.Proofs.PathTexts
import Micro51.Proofs.SourcesKept
import Micro51.Proofs.TextParts
import Micro51.Proofs.AssemblyReading
import Micro51.Proofs.ProgramText
import Micro51.Proofs.StackRoom
