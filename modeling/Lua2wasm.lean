import Lua2wasm.Analysis.Signatures
import Lua2wasm.Ast
import Lua2wasm.Raw
import Lua2wasm.Resolve
import Lua2wasm.Scope.Lexical
import Lua2wasm.Lib.Fallible
import Lua2wasm.Scope.Invariant
import Lua2wasm.Scope.Names
import Lua2wasm.Scope.Steps
import Lua2wasm.Scope.Functions
import Lua2wasm.Scope.Walk
import Lua2wasm.Scope.Correct
import Lua2wasm.Lib.Structured
import Lua2wasm.Codegen.Stmt
import Lua2wasm.Codegen.LexInv
import Lua2wasm.Codegen.Dispatch
import Lua2wasm.Codegen.LexWalk
import Lua2wasm.Close.Trace
import Lua2wasm.Close.Correct
import Lua2wasm.Lib.ByteMem
import Lua2wasm.Heap.Alloc
import Lua2wasm.Heap.Blocks
import Lua2wasm.Heap.FreeList
import Lua2wasm.Heap.Hole
import Lua2wasm.Heap.Malloc
import Lua2wasm.Heap.Correct
import Lua2wasm.Table.Value
import Lua2wasm.Lib.Probe
import Lua2wasm.Lib.Raising
import Lua2wasm.Table.HashPart
import Lua2wasm.Table.Shapes
import Lua2wasm.Table.HashOk
import Lua2wasm.Table.Compact
import Lua2wasm.Table.Insert
import Lua2wasm.Table.ArrayPart
import Lua2wasm.Table.ArrayOk
import Lua2wasm.Table.ArrayWrite
import Lua2wasm.Table.Stores
import Lua2wasm.Table.Map
import Lua2wasm.Table.Shift
import Lua2wasm.Table.TableLib
import Lua2wasm.Table.World
import Lua2wasm.Table.Runs
import Lua2wasm.Lib.Sweep
import Lua2wasm.Table.Next
import Lua2wasm.Table.Narrow
import Lua2wasm.Table.Traversal
import Lua2wasm.Table.Pairs
import Lua2wasm.Table.Isolation
import Lua2wasm.Io.Abstract
import Lua2wasm.Strings.History
import Lua2wasm.Strings.Ranges
import Lua2wasm.Strings.SubRep
import Lua2wasm.Pack.RoundTrip
import Lua2wasm.Pack.Bounds
import Lua2wasm.Lib.Outcomes
import Lua2wasm.Pattern.Safety
import Lua2wasm.Pattern.Successive
import Lua2wasm.Pattern.Reference
import Lua2wasm.Pattern.Iterator
import Lua2wasm.Lib.Utf8Form
import Lua2wasm.Utf8.Code
import Lua2wasm.Utf8.Correct
import Lua2wasm.Calls.Upto
import Lua2wasm.Calls.Accounting
import Lua2wasm.Table.Positions
import Lua2wasm.Lib.Segment
import Lua2wasm.Table.Sort
import Lua2wasm.Table.RawIndex
import Lua2wasm.Table.Quicksort
import Lua2wasm.Table.SortCorrect
import Lua2wasm.Table.RefReads
import Lua2wasm.Table.Raises
import Lua2wasm.Table.InsertPaths
import Lua2wasm.Table.FastPaths
import Lua2wasm.Table.Inline
import Lua2wasm.Table.InlineWrites
import Lua2wasm.Arith.Div
import Lua2wasm.Arith.Random
import Lua2wasm.Arith.Order
import Lua2wasm.Operators.Metamethods
import Lua2wasm.Operators.Equality
import Lua2wasm.Operators.Numbers
import Lua2wasm.Operators.Correct
import Lua2wasm.Format.Int
import Lua2wasm.Lib.RoundEven
import Lua2wasm.Format.Fixed
import Lua2wasm.Format.Sharing
import Lua2wasm.Utf8.Coherent
import Lua2wasm.Wat.FuncLocals
import Lua2wasm.Lib.Significant
import Lua2wasm.Format.HostFloat
import Lua2wasm.Format.HostCorrect
import Lua2wasm.Format.HostTies
import Lua2wasm.Arith.Rounded
import Lua2wasm.Format.Tostring
import Lua2wasm.Pattern.Init
import Lua2wasm.Baselib.Args
import Lua2wasm.Control.ForLoop
import Lua2wasm.Lib.Slots
import Lua2wasm.Codegen.StrPool
import Lua2wasm.Codegen.Kstr
import Lua2wasm.Lexer.Quoted
import Lua2wasm.Lib.Logged
import Lua2wasm.Scope.Checks
import Lua2wasm.Scope.ReadOnly
import Lua2wasm.Analysis.Bodies
import Lua2wasm.Analysis.Rounds
import Lua2wasm.Analysis.Settles
import Lua2wasm.Analysis.Consistent
import Lua2wasm.Arith.Generator
import Lua2wasm.Codegen.StrPoolPlain
import Lua2wasm.Format.Reserve
import Lua2wasm.Wat.Literals
import Lua2wasm.Format.HexFloat
import Lua2wasm.Freestanding.Fmt
import Lua2wasm.Freestanding.Render
import Lua2wasm.Freestanding.FmtCorrect
import Lua2wasm.Lib.Gregorian
import Lua2wasm.Os.Date
import Lua2wasm.Os.DateCorrect
import Lua2wasm.Io.Reading
import Lua2wasm.Io.Refines
import Lua2wasm.Io.Lines
import Lua2wasm.Lib.Scratch
import Lua2wasm.Lowering.Expr
import Lua2wasm.Lowering.Stmt
import Lua2wasm.Lowering.Bound
import Lua2wasm.Strings.IntConcat
import Lua2wasm.Lowering.Suffices
import Lua2wasm.Lexer.Brackets
import Lua2wasm.Lexer.Spans
import Lua2wasm.Lexer.Written
import Lua2wasm.Lib.Descent
import Lua2wasm.Parser
import Lua2wasm.Parser.Trees
import Lua2wasm.Parser.Accepts
import Lua2wasm.Parser.Source
