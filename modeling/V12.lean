import V12.Bytecode.WideTheorems
import V12.Bytecode.PositionalWindows
import V12.Bytecode.ConstantPool
import V12.Interp.ValidateTheorems
import V12.Interp.PropertyTheorems
import V12.Heap.ShapeStability
import V12.Heap.ShapeSlots
import V12.Heap.ShapeKinds
import V12.Heap.TraceTheorems
import V12.Heap.ElementsSnapshot
import V12.Heap.StubLookup
import V12.Heap.Interning
import V12.Heap.RopeLengths
import V12.Heap.WordTheorems
import V12.Engine.RegexCache
import V12.Engine.StringRegExpTheorems
import V12.Bccompiler.FinishTargets
import V12.Bccompiler.EnvAgreement
import V12.Named.CopyingTheorems
import V12.Named.DefineOwnTheorems
import V12.Interp.RootsTheorems
import V12.Interp.EnvDisplay
import V12.Interp.ArgumentsLookup
import V12.Interp.Bitwise
import V12.Interp.CountedLoop
import V12.Interp.Coercions
import V12.Interp.Equality
import V12.Interp.ArrayIndexTheorems
import V12.Engine.NumberFormatTheorems
import V12.Bccompiler.NumberKey
import V12.Interp.PrototypeRuns
import V12.Bccompiler.YieldDelegateTheorems
import V12.Bccompiler.LogicalAssign
import V12.Bccompiler.Sequencing
import V12.Bccompiler.Update
import V12.Bccompiler.Chain
import V12.Bccompiler.ChainTheorems
import V12.Bccompiler.DestructuringTheorems
import V12.Bccompiler.LiteralTheorems
import V12.Interp.PendingAwaitsTheorems
import V12.Engine.JobQueueTheorems
import V12.Engine.PromiseReactionsTheorems
import V12.Engine.ResolvingTheorems
import V12.Interp.SuspensionTheorems
import V12.Interp.AsyncGeneratorTheorems
import V12.Engine.ModuleIdentity
import V12.Engine.ModulePaths
import V12.Engine.DateTimeTheorems
import V12.Engine.CollectionsTheorems
import V12.Interp.ArraySortTheorems
import V12.Engine.DateSafety
import V12.Engine.DateRoundTrip
import V12.Interp.ArrayLengthTheorems
import V12.Engine.JsonAgreement
import V12.Engine.StringSearch
import V12.Engine.StringReplace
import V12.Engine.ArraySearch
import V12.Engine.RegExpDrives
import V12.Engine.NumberBoxing
import V12.Engine.ValueEquality
import V12.Engine.Substitution
import V12.Engine.GlobalUri
import V12.Engine.JsonStringify
