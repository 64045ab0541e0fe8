import BJvm.Graph.Dominance
import BJvm.Graph.Semidominator
import BJvm.Insn
import BJvm.Analysis.Blocks
import BJvm.Analysis.Dominators
import BJvm.Proofs.DfsTree
import BJvm.Proofs.Forest
import BJvm.Proofs.Reldom
import BJvm.Proofs.IdomTree
import BJvm.Proofs.Dominators
import BJvm.Analysis.ControlFlow
import BJvm.Proofs.Blocks
import BJvm.Proofs.FlowGraph
import BJvm.Method
import BJvm.StackMap.Iterator
import BJvm.StackMap.Frames
import BJvm.Analysis.Analyzer
import BJvm.Analysis.MethodAnalysis
import BJvm.Proofs.StackMap
import BJvm.Proofs.Swizzle
import BJvm.Proofs.Analyzer
import BJvm.Proofs.FrameApplication
import BJvm.Gc.Roots
import BJvm.Proofs.GcRoots
import BJvm.Types.Subtyping
import BJvm.Linkage.FunctionTables
import BJvm.Linkage.ClassLinker
import BJvm.Linkage.ClassLoading
import BJvm.Linkage.Initialization
import BJvm.Proofs.Vtable
import BJvm.Proofs.LinkRuns
import BJvm.Proofs.LinkEffects
import BJvm.Proofs.InitializationRuns
import BJvm.Proofs.InitializationOrder
import BJvm.Proofs.ArrayLinkage
import BJvm.Proofs.LinkErrors
import BJvm.Proofs.Instanceof
import BJvm.Interpreter.CallSite
import BJvm.Proofs.CallSite
import BJvm.Sorted.Quicksort
import BJvm.Sorted.BinarySearch
import BJvm.Gc.Collector
import BJvm.Gc.HeapGraph
import BJvm.Proofs.GcMark
import BJvm.Proofs.GcCopy
import BJvm.Proofs.GcRelocate
import BJvm.Proofs.LoadingRuns
import BJvm.Proofs.ClassResolution
import BJvm.Proofs.LoaderBindings
import BJvm.Proofs.MajorGc
import BJvm.Gc.Scheduler
import BJvm.Threads.RoundRobin
import BJvm.Threads.Monitors
import BJvm.Proofs.Monitors
import BJvm.Proofs.Notify
import BJvm.Proofs.RoundRobin
import BJvm.Proofs.Wakeups
import BJvm.Proofs.Scheduler
import BJvm.Parsing.Reader
import BJvm.ClassFile.Descriptors
import BJvm.ClassFile.ConstantPool
import BJvm.Proofs.ConstantPool
import BJvm.ClassFile.Instructions
import BJvm.ClassFile.Attributes
import BJvm.ClassFile.ParseClassfile
import BJvm.Proofs.CodeLayout
import BJvm.Proofs.CodeAttribute
import BJvm.Proofs.Classfile
import BJvm.Interpreter.StackValue
import BJvm.Interpreter.Arithmetic
import BJvm.Interpreter.Machine
import BJvm.Interpreter.Handlers
import BJvm.Interpreter.JumpTables
import BJvm.Interpreter.PlainInterpreter
import BJvm.Proofs.TopOfStack
import BJvm.Adt.StringHashTable
import BJvm.Proofs.StringHashTable
import BJvm.Strings.Interning
import BJvm.Proofs.Interning
import BJvm.Graph.Reducible
import BJvm.Analysis.Reducibility
import BJvm.Proofs.Reducibility
import BJvm.Threads.JsHandles
import BJvm.Proofs.JsHandles
import BJvm.Threads.ThreadObjects
import BJvm.Proofs.ThreadObjects
import BJvm.Threads.Parking
import BJvm.Proofs.Parking
import BJvm.Gc.References
import BJvm.Proofs.References
import BJvm.Natives.Handles
import BJvm.Natives.Reflection
import BJvm.Proofs.Handles
import BJvm.Analysis.NpeSources
import BJvm.Analysis.ValueOrigins
import BJvm.Proofs.NpeSources
import BJvm.Jit.DumbJit
import BJvm.Jit.StructuredCode
import BJvm.Proofs.DumbJit
import BJvm.Interpreter.Unwinding
import BJvm.Proofs.Unwinding
import BJvm.Memory.Packing
import BJvm.Linkage.FieldLayout
import BJvm.Proofs.FieldLayout
import BJvm.Proofs.ImmediateCalls
import BJvm.ClassFile.DescriptorGrammar
import BJvm.Proofs.Descriptors
import BJvm.Proofs.AnalyzedStates
import BJvm.Gc.CallStack
import BJvm.Proofs.CallStack
import BJvm.Graph.Preorder
import BJvm.Linkage.MethodResolution
import BJvm.Proofs.MethodResolution
import BJvm.Interpreter.Invokespecial
import BJvm.Proofs.Invokespecial
import BJvm.Proofs.CodeEnd
import BJvm.Proofs.Circularity
import BJvm.Parsing.Decoder
import BJvm.Wasm.BinaryFormat
import BJvm.Wasm.WasmUtils
import BJvm.Proofs.WasmExpression
import BJvm.Proofs.WasmModule
import BJvm.Strings.ModifiedUtf8
import BJvm.Proofs.ModifiedUtf8
import BJvm.Proofs.ReadString
import BJvm.Classpath.Jar
import BJvm.Proofs.Jar
import BJvm.Classpath.InitClasspath
import BJvm.Proofs.InitClasspath
import BJvm.Memory.ArrayAllocation
import BJvm.Proofs.ArrayAllocation
import BJvm.Memory.MultiArrays
import BJvm.Proofs.MultiArrays
import BJvm.Analysis.StackForms
import BJvm.Proofs.StackForms
import BJvm.StackMap.Buffers
import BJvm.Proofs.Buffers
import BJvm.Analysis.AnalysisCalls
import BJvm.Proofs.AnalysisCalls
import BJvm.Analysis.NpeMessage
import BJvm.Proofs.NpeMessage
import BJvm.Interpreter.Resumption
import BJvm.Proofs.Resumption
import BJvm.Proofs.Leb128
import BJvm.Proofs.Locals
import BJvm.Proofs.Division
import BJvm.Proofs.ReferenceBranches
import BJvm.Proofs.LineNumbers
import BJvm.Proofs.Sleep
import BJvm.Proofs.Branches
import BJvm.Gc.PushFrame
import BJvm.Proofs.PushFrame
import BJvm.Memory.Chunks
import BJvm.Natives.ArrayCopy
import BJvm.Proofs.ArrayCopy
import BJvm.Natives.StackTrace
import BJvm.Proofs.StackTrace
import BJvm.Threads.Timeouts
import BJvm.Proofs.Timeouts
import BJvm.Gc.Pointers
import BJvm.Proofs.Pointers
import BJvm.Analysis.SourceOrder
import BJvm.Proofs.SourceOrder
import BJvm.Memory.CBuffers
import BJvm.Memory.StackString
import BJvm.Linkage.Identify
import BJvm.Proofs.Identify
import BJvm.Natives.ClassNames
import BJvm.Proofs.ClassNames
import BJvm.Natives.MethodTypes
import BJvm.Proofs.MethodTypes
import BJvm.Simulation.Stuttering
import BJvm.Interpreter.TypedCode
import BJvm.Proofs.TypedCode
import BJvm.Proofs.CachedHandlers
import BJvm.Proofs.CachedResolution
import BJvm.Proofs.CachedSteps
import BJvm.Proofs.CachedDispatch
import BJvm.Proofs.CachedRuns
import BJvm.Interpreter.AnalyzedCode
import BJvm.Proofs.AnalyzedCode
import BJvm.Interpreter.FormalMachine
import BJvm.Proofs.LocalFree
import BJvm.Proofs.FormalMachine
import BJvm.Interpreter.SignExtension
import BJvm.Proofs.SignExtension
