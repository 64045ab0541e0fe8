import BJvm.ClassFile.ConstantPool

/-!
# Instructions of the class file

`parse_insn` of `classfile.c`.  The cases of its switch that differ in a few values are rows of
tables; the rest are the cases of `parseInsnImpl`.  Branch targets are byte offsets here.
-/

namespace BJvm.ClassFile

open Parsing Parser

/-- `bytecode_insn` with the members of its union that only instructions with constants have.  Floats
are kept as bits. -/
structure ParsedInsn extends BytecodeInsn where
  arrayType : TypeKind := .boolean
  integerImm : Int := 0
  fImm : Nat := 0
  dImm : Nat := 0
  /-- index of the constant pool entry -/
  cp : Nat := 0
  low : Int := 0
  high : Int := 0
  keys : List Int := []
deriving DecidableEq, Repr, Inhabited

/-- The instructions without operands. -/
def operandless : Nat → Option InsnCode
  | 0x00 => some .nop
  | 0x01 => some .aconstNull
  | 0x2e => some .iaload
  | 0x2f => some .laload
  | 0x30 => some .faload
  | 0x31 => some .daload
  | 0x32 => some .aaload
  | 0x33 => some .baload
  | 0x34 => some .caload
  | 0x35 => some .saload
  | 0x4f => some .iastore
  | 0x50 => some .lastore
  | 0x51 => some .fastore
  | 0x52 => some .dastore
  | 0x53 => some .aastore
  | 0x54 => some .bastore
  | 0x55 => some .castore
  | 0x56 => some .sastore
  | 0x57 => some .pop
  | 0x58 => some .pop2
  | 0x59 => some .dup
  | 0x5a => some .dupX1
  | 0x5b => some .dupX2
  | 0x5c => some .dup2
  | 0x5d => some .dup2X1
  | 0x5e => some .dup2X2
  | 0x5f => some .swap
  | 0x60 => some .iadd
  | 0x61 => some .ladd
  | 0x62 => some .fadd
  | 0x63 => some .dadd
  | 0x64 => some .isub
  | 0x65 => some .lsub
  | 0x66 => some .fsub
  | 0x67 => some .dsub
  | 0x68 => some .imul
  | 0x69 => some .lmul
  | 0x6a => some .fmul
  | 0x6b => some .dmul
  | 0x6c => some .idiv
  | 0x6d => some .ldiv
  | 0x6e => some .fdiv
  | 0x6f => some .ddiv
  | 0x70 => some .irem
  | 0x71 => some .lrem
  | 0x72 => some .frem
  | 0x73 => some .drem
  | 0x74 => some .ineg
  | 0x75 => some .lneg
  | 0x76 => some .fneg
  | 0x77 => some .dneg
  | 0x78 => some .ishl
  | 0x79 => some .lshl
  | 0x7a => some .ishr
  | 0x7b => some .lshr
  | 0x7c => some .iushr
  | 0x7d => some .lushr
  | 0x7e => some .iand
  | 0x7f => some .land
  | 0x80 => some .ior
  | 0x81 => some .lor
  | 0x82 => some .ixor
  | 0x83 => some .lxor
  | 0x85 => some .i2l
  | 0x86 => some .i2f
  | 0x87 => some .i2d
  | 0x88 => some .l2i
  | 0x89 => some .l2f
  | 0x8a => some .l2d
  | 0x8b => some .f2i
  | 0x8c => some .f2l
  | 0x8d => some .f2d
  | 0x8e => some .d2i
  | 0x8f => some .d2l
  | 0x90 => some .d2f
  | 0x91 => some .i2b
  | 0x92 => some .i2c
  | 0x93 => some .i2s
  | 0x94 => some .lcmp
  | 0x95 => some .fcmpl
  | 0x96 => some .fcmpg
  | 0x97 => some .dcmpl
  | 0x98 => some .dcmpg
  | 0xac => some .ireturn
  | 0xad => some .lreturn
  | 0xae => some .freturn
  | 0xaf => some .dreturn
  | 0xb0 => some .areturn
  | 0xb1 => some .return_
  | 0xbe => some .arraylength
  | 0xbf => some .athrow
  | 0xc2 => some .monitorenter
  | 0xc3 => some .monitorexit
  | _ => none

/-- The instructions with an index of a local variable behind them, and their names. -/
def localInsn : Nat → Option (InsnCode × String)
  | 0x15 => some (.iload, "iload")
  | 0x16 => some (.lload, "lload")
  | 0x17 => some (.fload, "fload")
  | 0x18 => some (.dload, "dload")
  | 0x19 => some (.aload, "aload")
  | 0x36 => some (.istore, "istore")
  | 0x37 => some (.lstore, "lstore")
  | 0x38 => some (.fstore, "fstore")
  | 0x39 => some (.dstore, "dstore")
  | 0x3a => some (.astore, "astore")
  | 0xa9 => some (.ret, "ret")
  | _ => none

/-- `iload_0` to `aload_3` and `istore_0` to `astore_3`: the index is in the opcode. -/
def shortLocalInsn (opcode : Nat) : Option (InsnCode × Nat) :=
  if 0x1a ≤ opcode ∧ opcode ≤ 0x2d then
    ([.iload, .lload, .fload, .dload, .aload][(opcode - 0x1a) / 4]?).map (·, (opcode - 0x1a) % 4)
  else if 0x3b ≤ opcode ∧ opcode ≤ 0x4e then
    ([.istore, .lstore, .fstore, .dstore, .astore][(opcode - 0x3b) / 4]?).map
      (·, (opcode - 0x3b) % 4)
  else none

/-- The instructions with a 16-bit offset, and their names. -/
def branchInsn : Nat → Option (InsnCode × String)
  | 0x99 => some (.ifeq, "if_eq")
  | 0x9a => some (.ifne, "if_ne")
  | 0x9b => some (.iflt, "if_lt")
  | 0x9c => some (.ifge, "if_ge")
  | 0x9d => some (.ifgt, "if_gt")
  | 0x9e => some (.ifle, "if_le")
  | 0x9f => some (.ifIcmpeq, "if_icmpeq")
  | 0xa0 => some (.ifIcmpne, "if_icmpne")
  | 0xa1 => some (.ifIcmplt, "if_icmplt")
  | 0xa2 => some (.ifIcmpge, "if_icmpge")
  | 0xa3 => some (.ifIcmpgt, "if_icmpgt")
  | 0xa4 => some (.ifIcmple, "if_icmple")
  | 0xa5 => some (.ifAcmpeq, "if_acmpeq")
  | 0xa6 => some (.ifAcmpne, "if_acmpne")
  | 0xa7 => some (.goto, "goto")
  | 0xa8 => some (.jsr, "jsr")
  | 0xc6 => some (.ifnull, "ifnull")
  | 0xc7 => some (.ifnonnull, "ifnonnull")
  | _ => none

/-- The instructions with a 32-bit offset, and their names. -/
def wideBranchInsn : Nat → Option (InsnCode × String)
  | 0xc8 => some (.goto, "goto_w")
  | 0xc9 => some (.jsr, "jsr_w")
  | _ => none

/-- An instruction that has the index of a constant pool entry and nothing else. -/
structure CpInsn where
  kind : InsnCode
  expectedKinds : List CpKind
  indexReason : String
  reason : String

def cpInsn : Nat → Option CpInsn
  | 0xb2 => some ⟨.getstatic, [.fieldRef], "getstatic index", "getstatic field ref"⟩
  | 0xb3 => some ⟨.putstatic, [.fieldRef], "putstatic index", "putstatic field ref"⟩
  | 0xb4 => some ⟨.getfield, [.fieldRef], "getfield index", "getfield field ref"⟩
  | 0xb5 => some ⟨.putfield, [.fieldRef], "putfield index", "putfield field ref"⟩
  | 0xb6 => some ⟨.invokevirtual, [.methodRef, .interfaceMethodRef], "invokevirtual index",
      "invokevirtual method ref"⟩
  | 0xb7 => some ⟨.invokespecial, [.methodRef, .interfaceMethodRef], "invokespecial index",
      "invokespecial method ref"⟩
  | 0xb8 => some ⟨.invokestatic, [.methodRef, .interfaceMethodRef], "invokestatic index",
      "invokestatic method ref"⟩
  | 0xbb => some ⟨.new, [.classInfo], "new index", "new class"⟩
  | 0xbd => some ⟨.anewarray, [.classInfo], "anewarray index", "anewarray class"⟩
  | 0xc0 => some ⟨.checkcast, [.classInfo], "checkcast index", "checkcast class"⟩
  | 0xc1 => some ⟨.instanceof, [.classInfo], "instanceof index", "instanceof class"⟩
  | _ => none

/-- `parse_atype`. -/
def parseAtype : Nat → Except String TypeKind
  | 4 => .ok .boolean
  | 5 => .ok .char
  | 6 => .ok .float
  | 7 => .ok .double
  | 8 => .ok .byte
  | 9 => .ok .short
  | 10 => .ok .int
  | 11 => .ok .long
  | atype => .error ("invalid newarray type " ++ Nat.repr atype)

/-- `checked_pc`; `maxPc` is `current_code_max_pc`. -/
def checkedPc (maxPc : Int) (insnPc : Nat) (offset : Int) : Except String Nat :=
  let target := (insnPc : Int) + offset
  let overflow := target < -2 ^ 31 ∨ 2 ^ 31 ≤ target
  if overflow ∨ target < 0 ∨ maxPc ≤ target then .error "Branch target out of bounds"
  else .ok target.toNat

/-- The loop that reads padding until the offset is a multiple of 4. -/
def skipPadding (pc : Nat) : Parser Unit := do
  let _ ← (readerNextU8 "tableswitch padding").times ((4 - pc % 4) % 4)

/-- `parse_tableswitch_insn`, behind the opcode. -/
def parseTableswitchInsn (maxPc : Int) (originalPc : Nat) : Parser ParsedInsn := do
  skipPadding (originalPc + 1)
  let defaultOffset ← readerNextS32 "tableswitch default target"
  let defaultTarget ← lift (checkedPc maxPc originalPc defaultOffset)
  let low ← readerNextS32 "tableswitch low"
  let high ← readerNextS32 "tableswitch high"
  let targetsCount := high - low + 1
  if targetsCount > 2 ^ 15 then fail "tableswitch instruction is too large"
  else if targetsCount ≤ 0 then fail "tableswitch high < low"
  else do
    let targets ← times (do
      let offset ← readerNextS32 "tableswitch target"
      lift (checkedPc maxPc originalPc offset)) targetsCount.toNat
    return { kind := .tableswitch, tableswitch := { defaultTarget, targets }, low, high }

/-- `parse_lookupswitch_insn`, behind the opcode. -/
def parseLookupswitchInsn (maxPc : Int) (originalPc : Nat) : Parser ParsedInsn := do
  skipPadding (originalPc + 1)
  let defaultOffset ← readerNextS32 "lookupswitch default target"
  let defaultTarget ← lift (checkedPc maxPc originalPc defaultOffset)
  let pairsCount ← readerNextS32 "lookupswitch pairs count"
  if pairsCount > 2 ^ 15 ∨ pairsCount < 0 then fail "lookupswitch instruction is too large"
  else do
    let pairs ← times (do
      let key ← readerNextS32 "lookupswitch key"
      let offset ← readerNextS32 "lookupswitch target"
      let target ← lift (checkedPc maxPc originalPc offset)
      return (key, target)) pairsCount.toNat
    return { kind := .lookupswitch, keys := pairs.map (·.1),
             lookupswitch := { defaultTarget, targets := pairs.map (·.2) } }

/-- The instruction that pushes the constant. -/
def ldcInsn (index : Nat) : CpInfo → ParsedInsn
  | .integer ivalue => { kind := .iconst, integerImm := ivalue }
  | .float bits => { kind := .fconst, fImm := bits }
  | .long ivalue => { kind := .lconst, integerImm := ivalue }
  | .double bits => { kind := .dconst, dImm := bits }
  | _ => { kind := .ldc, cp := index }

/-- `parsed_descriptor` of a field, and the descriptor of a method or an invokedynamic entry. -/
def withDescriptors (info : CpInfo) (insn : ParsedInsn) : ParsedInsn :=
  match info with
  | .field _ _ (some d) => { insn with field := d.toFieldDescriptor }
  | .methodref _ _ (some d) => { insn with descriptor := d }
  | .interfaceMethodref _ _ (some d) => { insn with descriptor := d }
  | .invokeDynamic _ _ (some d) _ => { insn with descriptor := d }
  | _ => insn

/-- The bits of the floats 0, 1 and 2. -/
def smallFloatBits (n : Nat) : Nat := [0, 0x3f800000, 0x40000000].getD n 0

/-- The bits of the doubles 0 and 1. -/
def smallDoubleBits (n : Nat) : Nat := [0, 0x3ff0000000000000].getD n 0

/-- An entry whose index is in the next `n` bytes. -/
def nextEntry (pool : ConstantPool) (indexReason : String) (n : Nat) (expectedKinds : List CpKind)
    (reason : String) : Parser (Nat × CpInfo) := do
  let index ← nextNat indexReason n
  let info ← lift (checkedCpEntry pool index expectedKinds reason)
  return (index, info)

/-- The case `wide`, whose message has the number of `wide` itself. -/
def parseWideInsn : Parser ParsedInsn := do
  let opcode ← readerNextU8 "widened opcode"
  match localInsn opcode with
  | some (kind, name) =>
    let index ← readerNextU16 ("wide " ++ name ++ " index")
    return { kind, index }
  | none =>
    if opcode = 0x84 then do
      let index ← readerNextU16 "wide iinc index"
      let const ← readerNextS16 "wide iinc const"
      return { kind := .iinc, iincIndex := index, iincConst := const }
    else fail "invalid wide opcode 196"

/-- The cases of `parse_insn_impl` that are alone in what they do. -/
def parseOtherInsn (pool : ConstantPool) (maxPc : Int) (pc : Nat) : Nat → Parser ParsedInsn
  | 0x10 => return { kind := .iconst, integerImm := ← readerNextS8 "bipush immediate" }
  | 0x11 => return { kind := .iconst, integerImm := ← readerNextS16 "sipush immediate" }
  | 0x12 => do
    let (index, info) ← nextEntry pool "ldc index" 1 [.integer, .float, .classInfo, .string]
      "ldc/ldc_w index"
    return ldcInsn index info
  | 0x13 => do
    let (index, info) ← nextEntry pool "ldc_w index" 2 [.integer, .float, .classInfo, .string]
      "ldc/ldc_w index"
    return ldcInsn index info
  | 0x14 => do
    let (index, info) ← nextEntry pool "ldc2_w index" 2 [.long, .double] "ldc2_w index"
    return ldcInsn index info
  | 0x84 => do
    let index ← readerNextU8 "iinc index"
    let const ← readerNextS8 "iinc const"
    return { kind := .iinc, iincIndex := index, iincConst := const }
  | 0xaa => parseTableswitchInsn maxPc pc
  | 0xab => parseLookupswitchInsn maxPc pc
  | 0xb9 => do
    let (index, info) ← nextEntry pool "invokeinterface index" 2 [.interfaceMethodRef]
      "invokeinterface method ref"
    let _ ← readerNextU8 "invokeinterface count"
    let _ ← readerNextU8 "invokeinterface zero"
    return withDescriptors info { kind := .invokeinterface, cp := index }
  | 0xba => do
    let (index, info) ← nextEntry pool "invokedynamic index" 2 [.invokeDynamic] "indy method ref"
    let _ ← readerNextU16 "invokedynamic zero"
    return withDescriptors info { kind := .invokedynamic, cp := index }
  | 0xbc => do
    let atype ← readerNextU8 "newarray type"
    return { kind := .newarray, arrayType := ← lift (parseAtype atype) }
  | 0xc4 => parseWideInsn
  | 0xc5 => do
    let index ← readerNextU16 "multianewarray index"
    let dimensions ← readerNextU8 "multianewarray dimensions"
    let _ ← lift (checkedCpEntry pool index [.classInfo] "multianewarray class")
    return { kind := .multianewarray, cp := index, dimensions }
  | opcode => fail ("invalid opcode " ++ Nat.repr opcode)

/-- `parse_insn_impl`. -/
def parseInsnImpl (pool : ConstantPool) (maxPc : Int) (pc : Nat) : Parser ParsedInsn := do
  let opcode ← readerNextU8 "instruction opcode"
  if let some kind := operandless opcode then
    return { kind }
  else if 0x02 ≤ opcode ∧ opcode ≤ 0x08 then
    return { kind := .iconst, integerImm := (opcode : Int) - 0x03 }
  else if 0x09 ≤ opcode ∧ opcode ≤ 0x0a then
    return { kind := .lconst, integerImm := opcode - 0x09 }
  else if 0x0b ≤ opcode ∧ opcode ≤ 0x0d then
    return { kind := .fconst, fImm := smallFloatBits (opcode - 0x0b) }
  else if 0x0e ≤ opcode ∧ opcode ≤ 0x0f then
    return { kind := .dconst, dImm := smallDoubleBits (opcode - 0x0e) }
  else if let some (kind, name) := localInsn opcode then
    return { kind, index := ← readerNextU8 (name ++ " index") }
  else if let some (kind, index) := shortLocalInsn opcode then
    return { kind, index }
  else if let some (kind, name) := branchInsn opcode then
    let offset ← readerNextS16 (name ++ " offset")
    return { kind, index := ← lift (checkedPc maxPc pc offset) }
  else if let some (kind, name) := wideBranchInsn opcode then
    let offset ← readerNextS32 (name ++ " offset")
    return { kind, index := ← lift (checkedPc maxPc pc offset) }
  else if let some insn := cpInsn opcode then
    let (index, info) ← nextEntry pool insn.indexReason 2 insn.expectedKinds insn.reason
    return withDescriptors info { kind := insn.kind, cp := index }
  else parseOtherInsn pool maxPc pc opcode

/-- `parse_insn`; the offset is narrowed to 16 bits. -/
def parseInsn (pool : ConstantPool) (maxPc : Int) (pc : Nat) : Parser ParsedInsn := do
  let insn ← parseInsnImpl pool maxPc pc
  return { insn with originalPc := pc % 2 ^ 16 }

end BJvm.ClassFile
