import Mathlib.Data.Nat.Basic

/-!
# Parsed instructions

The kinds and the instruction record of `classfile.h`, as the class file parser leaves them:
`aload_1` and its like are already canonicalised, and branch targets are instruction indices.
Fields of the record that only the interpreter's inline caches use are left out.
-/

namespace BJvm

/-- `type_kind`, in the order of the header. -/
inductive TypeKind
  | boolean | char | float | double | byte | short | int | long | void | reference
  deriving DecidableEq, Repr, Inhabited

/-- `reduced_tos_kind`. -/
inductive ReducedTosKind
  | void | double | int | float
  deriving DecidableEq, Repr, Inhabited

/-- `kind_to_representable_kind`. -/
def TypeKind.representable : TypeKind → TypeKind
  | .boolean | .char | .byte | .short | .int => .int
  | k => k

/-- `is_kind_wide`: whether the kind takes up two formal slots. -/
def TypeKind.isWide (k : TypeKind) : Bool := k = .long || k = .double

/-- `field_descriptor`.  `repr_kind` is derived, as `parse_field_descriptor` derives it. -/
structure FieldDescriptor where
  baseKind : TypeKind
  dimensions : Nat := 0
  deriving DecidableEq, Repr, Inhabited

namespace FieldDescriptor

def reprKind (d : FieldDescriptor) : TypeKind :=
  if d.baseKind = .reference then .reference
  else if d.dimensions ≠ 0 then .reference
  else d.baseKind.representable

/-- `is_field_wide`. -/
def isWide (d : FieldDescriptor) : Bool := d.baseKind.isWide && d.dimensions = 0

end FieldDescriptor

/-- `method_descriptor`. -/
structure MethodDescriptor where
  args : List FieldDescriptor
  returnType : FieldDescriptor
  deriving DecidableEq, Repr, Inhabited

/-- `insn_code_kind`, the kinds that come out of the parser, in the order of the header. -/
inductive InsnCode
  | nop | aaload | aastore | aconstNull | areturn | arraylength | athrow | baload | bastore
  | caload | castore | d2f | d2i | d2l | dadd | daload | dastore | dcmpg | dcmpl | ddiv | dmul
  | dneg | drem | dreturn | dsub | dup | dupX1 | dupX2 | dup2 | dup2X1 | dup2X2 | f2d | f2i | f2l
  | fadd | faload | fastore | fcmpg | fcmpl | fdiv | fmul | fneg | frem | freturn | fsub | i2b
  | i2c | i2d | i2f | i2l | i2s | iadd | iaload | iand | iastore | idiv | imul | ineg | ior
  | irem | ireturn | ishl | ishr | isub | iushr | ixor | l2d | l2f | l2i | ladd | laload | land
  | lastore | lcmp | ldiv | lmul | lneg | lor | lrem | lreturn | lshl | lshr | lsub | lushr
  | lxor | monitorenter | monitorexit | pop | pop2 | return_ | saload | sastore | swap
  | anewarray | checkcast | getfield | getstatic | instanceof | invokedynamic | new | putfield
  | putstatic | invokevirtual | invokespecial | invokestatic | ldc | dload | fload | iload
  | lload | dstore | fstore | istore | lstore | aload | astore | goto | jsr | ifAcmpeq | ifAcmpne
  | ifIcmpeq | ifIcmpne | ifIcmplt | ifIcmpge | ifIcmpgt | ifIcmple | ifeq | ifne | iflt | ifge
  | ifgt | ifle | ifnonnull | ifnull | iconst | dconst | fconst | lconst | iinc | invokeinterface
  | multianewarray | newarray | tableswitch | lookupswitch | ret
  deriving DecidableEq, Repr, Inhabited

/-- `tableswitch_data` and `lookupswitch_data`, without the keys. -/
structure SwitchData where
  defaultTarget : Nat
  targets : List Nat
  deriving DecidableEq, Repr, Inhabited

/-- `bytecode_insn`.  The members of its union are fields of their own; each kind reads its own. -/
structure BytecodeInsn where
  kind : InsnCode
  tosBefore : ReducedTosKind := .void
  tosAfter : ReducedTosKind := .void
  originalPc : Nat := 0
  /-- local variable index, or branch target as an instruction index -/
  index : Nat := 0
  delta : Int := 0
  iincIndex : Nat := 0
  iincConst : Int := 0
  /-- `cp->field.parsed_descriptor` -/
  field : FieldDescriptor := default
  /-- `cp->methodref.descriptor`, or the descriptor of the invokedynamic entry -/
  descriptor : MethodDescriptor := default
  tableswitch : SwitchData := default
  lookupswitch : SwitchData := default
  /-- `multianewarray->dimensions` -/
  dimensions : Nat := 0
  deriving DecidableEq, Repr, Inhabited

/-- The range test `insn_goto <= kind && kind <= insn_ifnull`, which takes in `jsr`. -/
def InsnCode.isBranch (k : InsnCode) : Bool :=
  InsnCode.goto.ctorIdx ≤ k.ctorIdx && k.ctorIdx ≤ InsnCode.ifnull.ctorIdx

/-- `exception_table_entry`. -/
structure ExceptionTableEntry where
  startInsn : Nat
  endInsn : Nat
  handlerInsn : Nat
  deriving DecidableEq, Repr, Inhabited

end BJvm
