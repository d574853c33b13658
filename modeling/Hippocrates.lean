import Hippocrates.Diagnosis.Collected
import Hippocrates.Diagnosis.Coverage
import Hippocrates.Diagnosis.Scan
import Hippocrates.Diagnosis.Soundness
import Hippocrates.Fix.AddressOrder
import Hippocrates.Fix.Applied
import Hippocrates.Fix.AssertPersisted
import Hippocrates.Fix.Cached
import Hippocrates.Fix.Coalesce
import Hippocrates.Fix.Descriptor
import Hippocrates.Fix.Durable
import Hippocrates.Fix.FixDesc
import Hippocrates.Fix.FlushRemover
import Hippocrates.Fix.Heuristic
import Hippocrates.Fix.Immutable
import Hippocrates.Fix.NDebug
import Hippocrates.Fix.Optimization
import Hippocrates.Fix.Pass
import Hippocrates.Fix.Planned
import Hippocrates.Fix.PmValues
import Hippocrates.Fix.Raise
import Hippocrates.Fix.RaiseWalk
import Hippocrates.Fix.RedundantPaths
import Hippocrates.Fix.Repair
import Hippocrates.Flow.ConstructEnds
import Hippocrates.Flow.Covered
import Hippocrates.Flow.StepsInto
import Hippocrates.IR.After
import Hippocrates.IR.DerivativePtrs
import Hippocrates.IR.Edit
import Hippocrates.IR.Erase
import Hippocrates.IR.FixGenerator
import Hippocrates.IR.Flushes
import Hippocrates.IR.Footprint
import Hippocrates.IR.Frames
import Hippocrates.IR.FunctionCleaner
import Hippocrates.IR.Grow
import Hippocrates.IR.LocationLaws
import Hippocrates.IR.LocationMapper
import Hippocrates.IR.Meaning
import Hippocrates.IR.Patch
import Hippocrates.IR.Persist
import Hippocrates.IR.Primitives
import Hippocrates.IR.Reach
import Hippocrates.IR.ResolveLocations
import Hippocrates.IR.Subprogram
import Hippocrates.IR.TraceAA
import Hippocrates.IR.Weight
import Hippocrates.Intrinsics.FlushLoop
import Hippocrates.Intrinsics.Naive
import Hippocrates.Lib.ChangeFlag
import Hippocrates.Lib.Closure
import Hippocrates.Lib.Document
import Hippocrates.Lib.ForLoop
import Hippocrates.Lib.HashTable
import Hippocrates.Lib.IntervalTree
import Hippocrates.Lib.Memo
import Hippocrates.Lib.Pattern
import Hippocrates.Lib.Persistency
import Hippocrates.Lib.Potential
import Hippocrates.Lib.Text
import Hippocrates.Lib.Traversal
import Hippocrates.Lib.Weave
import Hippocrates.ParseTrace.Accepted
import Hippocrates.ParseTrace.LineBreaks
import Hippocrates.ParseTrace.PmtestOutput
import Hippocrates.Report.Dedup
import Hippocrates.Report.Optimize
import Hippocrates.Report.Separation
import Hippocrates.Report.Written
import Hippocrates.Trace.AddressInfo
import Hippocrates.Trace.TraceEvent
import Hippocrates.Trace.TraceInfo
