import BJvm.Insn

/-!
# Methods

`cp_method` and `attribute_code`, with what the analysis reads of them.
-/

namespace BJvm

/-- `attribute_stack_map_table`. -/
structure StackMapTable where
  entriesCount : Nat
  data : List UInt8
  deriving DecidableEq, Repr, Inhabited

/-- `attribute_code`.  Of the attributes it keeps the first `StackMapTable` and the variable
indices of the `LocalVariableTable`. -/
structure AttributeCode where
  maxStack : Nat
  maxLocals : Nat
  code : List BytecodeInsn
  exceptionTable : List ExceptionTableEntry := []
  stackMapTable : Option StackMapTable := none
  localVariableTable : List Nat := []
  deriving DecidableEq, Repr, Inhabited

/-- `cp_method`. -/
structure CpMethod where
  /-- `access_flags & ACCESS_STATIC` -/
  isStatic : Bool
  isCtor : Bool := false
  /-- `my_class->name` -/
  className : String := ""
  descriptor : MethodDescriptor
  code : AttributeCode
  missingSmt : Bool := false
  deriving DecidableEq, Repr, Inhabited

/-- How an analysis ends early: with a message, or in a failed `CHECK` or `UNREACHABLE`. -/
inductive Failure
  | error (msg : String)
  | abort
  deriving DecidableEq, Repr, Inhabited

end BJvm
