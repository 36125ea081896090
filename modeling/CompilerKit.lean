import CompilerKit.Build.Workflow
import CompilerKit.Exchange
import CompilerKit.Graph.Keyed
import CompilerKit.Proofs.Arithmetic
import CompilerKit.Proofs.Blocks.Tuples
import CompilerKit.Proofs.Bounds
import CompilerKit.Proofs.Dataflow.GenKill
import CompilerKit.Proofs.Extension.Runs
import CompilerKit.Proofs.Functions.Returns
import CompilerKit.Proofs.Functions.Sound
import CompilerKit.Proofs.Gradual.Algebra
import CompilerKit.Proofs.Gradual.Programs
import CompilerKit.Proofs.Graph.Cycles
import CompilerKit.Proofs.Graph.Histories
import CompilerKit.Proofs.Lambdas.Expected
import CompilerKit.Proofs.Loops.Sequence
import CompilerKit.Proofs.Loops.Truths
import CompilerKit.Proofs.Lowered
import CompilerKit.Proofs.Matching
import CompilerKit.Proofs.Operands
import CompilerKit.Proofs.Queue.Session
import CompilerKit.Proofs.Queue.Sort
import CompilerKit.Proofs.Renaming
import CompilerKit.Proofs.Tagging
import CompilerKit.Proofs.Vars.Encodable
import CompilerKit.Proofs.Vars.Exact
import CompilerKit.Proofs.Vars.Normal
import CompilerKit.Proofs.X86.Heap
import CompilerKit.Proofs.X86.Places
import CompilerKit.Proofs.X86.Routes
import CompilerKit.Proofs.X86.Range
