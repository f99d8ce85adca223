import Shecc.Ir.Arithmetic
import Shecc.Ir.Value
import Shecc.Optimize.Fold
import Shecc.Optimize.Simplify
import Shecc.Optimize.Cse
import Shecc.Optimize.Driver
import Shecc.Optimize.Invariant
import Shecc.Optimize.Locality
import Shecc.Memory.Core
import Shecc.Optimize.CompileTime
import Shecc.Optimize.FoldSound
import Shecc.Peephole.Driver
import Shecc.Peephole.Fusion
import Shecc.Peephole.LoadStore
import Shecc.Codegen.Program
import Shecc.Arm.Codegen
import Shecc.Codegen.Emission
import Shecc.Arm.Layout
import Shecc.RiscV.Codegen
import Shecc.RiscV.Layout
import Shecc.Elf.Tables
import Shecc.Elf.File
import Shecc.Preprocessor.Macro
import Shecc.LinkedList.Core
import Shecc.Preprocessor.Memory
import Shecc.Preprocessor.Arguments
import Shecc.Preprocessor.Binding
import Shecc.Preprocessor.Expand
import Shecc.Trace.Core
import Shecc.Preprocessor.Safety
import Shecc.Preprocessor.Expansion
import Shecc.Lexer.Core
import Shecc.Lexer.Reading
import Shecc.Lexer.Spans
import Shecc.Lexer.Literal
import Shecc.Preprocessor.Conditional
import Shecc.Preprocessor.Expression
import Shecc.Preprocessor.Constant
import Shecc.Parser.Core
import Shecc.Parser.Operand
import Shecc.Parser.Expression
import Shecc.Parser.Growth
import Shecc.Parser.Frame
import Shecc.Parser.Advance
import Shecc.Parser.Branching
import Shecc.Ir.Step
import Shecc.Parser.Records
import Shecc.Parser.Conditional
import Shecc.Parser.Declaration
import Shecc.Parser.Placed
import Shecc.Strided.Core
import Shecc.Parser.Subscript
import Shecc.Parser.Element
import Shecc.Parser.Literal
import Shecc.Parser.Array
import Shecc.Parser.Dimensions
import Shecc.Parser.Addressing
import Shecc.Lexer.Bounds
import Shecc.Lexer.Libc
import Shecc.Peephole.Bitwise
import Shecc.Peephole.Strength
import Shecc.Libc.Heap
import Shecc.Libc.HeapSteps
import Shecc.Libc.HeapLists
import Shecc.Libc.HeapCalls
import Shecc.Libc.HeapRegions
import Shecc.Libc.Format
import Shecc.Libc.Digits
import Shecc.Libc.Emission
import Shecc.Libc.Output
import Shecc.Libc.Snprintf
import Shecc.Libc.Printf
import Shecc.Preprocessor.ObjectLike
import Shecc.Dataflow.Core
import Shecc.Ssa.Core
import Shecc.Ssa.LiveSets
import Shecc.Execution.Core
import Shecc.RiscV.Decode
import Shecc.RiscV.Machine
import Shecc.RiscV.Multiply
import Shecc.RiscV.Divide
import Shecc.Arm.Decode
import Shecc.Arm.Machine
import Shecc.Arm.Address
import Shecc.Arm.Stack
import Shecc.Arm.Divide
import Shecc.Arm.Arithmetic
import Shecc.RiscV.Arithmetic
import Shecc.Optimize.RunTime
import Shecc.Parser.SideEffect
import Shecc.Optimize.CseSound
import Shecc.Optimize.Sccp
import Shecc.Optimize.SccpSound
import Shecc.Ir.Trail
import Shecc.RiscV.Address
import Shecc.Arm.Transfer
import Shecc.Target.Access
import Shecc.Target.Extension
import Shecc.Target.Operators
import Shecc.Peephole.Moves
import Shecc.Lexer.Escape
import Shecc.Lexer.Form
import Shecc.Parser.Numeric
import Shecc.Parser.Buffers
import Shecc.RegAlloc.Core
import Shecc.Memory.Bump
import Shecc.RegAlloc.Frame
import Shecc.RegAlloc.Layout
import Shecc.RegAlloc.Arguments
import Shecc.Optimize.CseReads
import Shecc.Arenas.Core
import Shecc.Arenas.Regions
import Shecc.Libc.Stores
import Shecc.Arenas.Runs
import Shecc.HashMaps.Core
import Shecc.HashMaps.Probing
import Shecc.HashMaps.Updates
import Shecc.HashMaps.Refines
import Shecc.Arenas.Frame
import Shecc.Interning.Core
import Shecc.Interning.Canonical
import Shecc.Tools.Inliner
import Shecc.Tools.NormLf
import Shecc.Lexer.Diagnostic
import Shecc.Parser.GlobalInit
import Shecc.Parser.OperatorStack
import Shecc.Traversal.Route
import Shecc.Traversal.Tour
import Shecc.Traversal.Idom
import Shecc.Ssa.ReversePostOrder
import Shecc.Traversal.IdomPasses
import Shecc.Traversal.IdomTree
import Shecc.Traversal.Connect
import Shecc.Traversal.Descent
import Shecc.Traversal.Counted
import Shecc.Traversal.Frontier
import Shecc.Ssa.Idom
import Shecc.Ssa.DomTree
import Shecc.Ssa.Visits
import Shecc.Ssa.Frontier
import Shecc.Ssa.PostDominators
import Shecc.Ssa.Rename
import Shecc.Ssa.RenameBounds
import Shecc.Ssa.RenameBounds
