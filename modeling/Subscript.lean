import Subscript.Lir.Syntax
import Subscript.Flow.Fixpoint
import Subscript.Flow.Path
import Subscript.Flow.Worklist
import Subscript.Lir.Dominators
import Subscript.Lir.Verify
import Subscript.Lir.VerifyDominance
import Subscript.Lir.VerifySpec
import Subscript.Lir.DefinedReads
import Subscript.Lir.SuspendBoundary
import Subscript.Lir.LocalStorage
import Subscript.Text.Read
import Subscript.Text.Split
import Subscript.TypesText
import Subscript.Reload.Layout
import Subscript.Reload.LayoutRules
import Subscript.Reload.Declarations
import Subscript.Reload.HashText
import Subscript.Reload.HashGate
import Subscript.Hir.Syntax
import Subscript.Flow.Comp
import Subscript.Flow.Scope
import Subscript.Hir.Run
import Subscript.Hir.TrapSites
import Subscript.Hir.CountedLoops
import Subscript.Hir.ExprSound
import Subscript.Hir.LoopSound
import Subscript.Hir.TrapSitesSound
import Subscript.Cemit.StringLiteral
import Subscript.Runtime.Assoc
import Subscript.Runtime.AssocIndex
import Subscript.Runtime.AssocRefines
import Subscript.Memory.Links
import Subscript.Memory.Regions
import Subscript.Runtime.Arena
import Subscript.Runtime.ArenaGrid
import Subscript.Runtime.ArenaInv
import Subscript.Runtime.ArenaAlloc
import Subscript.Runtime.ArenaRelease
import Subscript.Runtime.ArenaMark
import Subscript.Runtime.ArenaSweep
import Subscript.Runtime.ArenaRun
import Subscript.Check.InstanceChain
import Subscript.Check.InstanceEdges
import Subscript.Check.InstanceGrowth
import Subscript.Check.InstanceRun
import Subscript.Check.AssignmentFlow
import Subscript.Hir.AssignRun
import Subscript.Check.AssignmentFrame
import Subscript.Check.AssignmentExpr
import Subscript.Check.AssignmentSound
import Subscript.Check.AssignmentCheck
import Subscript.Runtime.Exception
import Subscript.Table.Lookup
import Subscript.Calendar.Gregorian
import Subscript.Memory.Words
import Subscript.Monitor.Basic
import Subscript.Runtime.AssocTraversal
import Subscript.Runtime.Date
import Subscript.Runtime.DateCalendar
import Subscript.Runtime.DateExact
import Subscript.Runtime.DateTime
import Subscript.Runtime.WorkerMessage
import Subscript.Runtime.WorkerRoundTrip
import Subscript.Runtime.FreedHandles
import Subscript.Runtime.Registration
import Subscript.Runtime.StringOps
import Subscript.Runtime.StringValid
import Subscript.Flow.Sweep
import Subscript.Lir.Exec
import Subscript.Lir.LiveIns
import Subscript.Lir.Ssa
import Subscript.Lir.Threading
import Subscript.Lir.ThreadingCarry
import Subscript.Lir.ThreadingSim
import Subscript.Lir.ThreadingSound
import Subscript.Boundary.Pass
import Subscript.Boundary.Read
import Subscript.CLang.Integer
import Subscript.Interpreter.Operations
import Subscript.Memory.Gaps
import Subscript.Reload.LayoutsAgree
import Subscript.Lir.VerifyAddresses
import Subscript.Runtime.RegexSource
import Subscript.Runtime.SetOps
import Subscript.Runtime.Sort
import Subscript.Runtime.StringLaws
import Subscript.Runtime.DateText
import Subscript.Check.InstanceChecks
