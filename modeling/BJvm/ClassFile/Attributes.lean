import BJvm.Method
import BJvm.ClassFile.Instructions
import Mathlib.Logic.Function.Basic

/-!
# Attributes

`parse_attribute` of `classfile.c`, which calls itself for the attributes of a `Code` attribute.
-/

namespace BJvm.ClassFile

open Parsing Parser
open Function (update)

/-- `utf8_equals`. -/
def utf8Equals (s : Chars) (t : String) : Bool := s.map charOf = t.toList

/-- `exception_table_entry` with its `catch_type`. -/
structure ParsedException extends ExceptionTableEntry where
  catchType : Option Nat := none
deriving DecidableEq, Repr, Inhabited

/-- `attribute_code`, for attributes of any type. -/
structure ParsedCode (α : Type) where
  maxStack : Nat
  maxLocals : Nat
  code : List ParsedInsn
  exceptionTable : List ParsedException
  attributes : List α

/-- `bootstrap_method`, with indices of constant pool entries. -/
structure BootstrapMethod where
  ref : Nat
  args : List Nat
deriving DecidableEq, Repr, Inhabited

/-- `attribute_lvt_entry`. -/
structure LvtEntry where
  startPc : Nat
  endPc : Nat
  index : Nat
  name : Chars
  descriptor : Chars
deriving DecidableEq, Repr, Inhabited

/-- The union of `attribute`; a `cp_class_info *` is the index of the entry. -/
inductive AttributeData (α : Type)
  | code (code : ParsedCode α)
  | constantValue (entry : Nat)
  | unknown
  | bootstrapMethods (methods : List BootstrapMethod)
  | enclosingMethod (classInfo nat : Option Nat)
  | sourceFile (name : Chars)
  | lineNumberTable (entries : List (Nat × Nat))
  | methodParameters (params : List (Option Chars × Nat))
  | runtimeVisibleAnnotations (data : Chars)
  | signature (utf8 : Chars)
  | runtimeVisibleParameterAnnotations (data : Chars)
  | runtimeVisibleTypeAnnotations (data : Chars)
  | annotationDefault (data : Chars)
  | nestHost (classInfo : Nat)
  | localVariableTable (entries : List LvtEntry)
  | stackMapTable (smt : StackMapTable)
  | innerClasses (classes : List Nat)
  | permittedSubclasses (entries : List Nat)

/-- `attribute`. -/
inductive Attribute
  | mk (name : Chars) (length : Nat) (data : AttributeData Attribute)

def Attribute.data : Attribute → AttributeData Attribute
  | mk _ _ data => data

/-- `pc_to_insn`. -/
abbrev PcToInsn := Nat → Option Nat

/-- `convert_pc_to_insn`. -/
def convertPcToInsn (pcToInsn : PcToInsn) (pc : Nat) : Except String Nat :=
  match pcToInsn pc with
  | some insn => .ok insn
  | none => .error ("invalid program counter " ++ Nat.repr pc)

/-- `end_insn`: the end of the code stays an offset. -/
def convertEndPc (codeLength : Nat) (pcToInsn : PcToInsn) (endPc : Nat) : Except String Nat :=
  if endPc = codeLength then .ok codeLength else convertPcToInsn pcToInsn endPc

/-- The loop of `parse_code_attribute` over the instructions. -/
def parseInsns (pool : ConstantPool) (maxPc : Int) (codeStart : Nat) :
    Nat → Nat → PcToInsn → Parser (List ParsedInsn × PcToInsn)
  | 0, _, pcToInsn => pure ([], pcToInsn)
  | fuel + 1, insnCount, pcToInsn => do
    if (← remaining) = 0 then return ([], pcToInsn)
    else
      let pc := (← position) - codeStart
      let insn ← parseInsn pool maxPc pc
      let (code, pcToInsn) ←
        parseInsns pool maxPc codeStart fuel (insnCount + 1) (update pcToInsn pc (some insnCount))
      return (insn :: code, pcToInsn)

/-- The body of `convert_pcs_to_insn_indices`. -/
def convertInsn (pcToInsn : PcToInsn) (insn : ParsedInsn) : Except String ParsedInsn :=
  if insn.kind = .tableswitch then do
    let defaultTarget ← convertPcToInsn pcToInsn insn.tableswitch.defaultTarget
    let targets ← insn.tableswitch.targets.mapM (convertPcToInsn pcToInsn)
    return { insn with tableswitch := { defaultTarget, targets } }
  else if insn.kind = .lookupswitch then do
    let defaultTarget ← convertPcToInsn pcToInsn insn.lookupswitch.defaultTarget
    let targets ← insn.lookupswitch.targets.mapM (convertPcToInsn pcToInsn)
    return { insn with lookupswitch := { defaultTarget, targets } }
  else if insn.kind.isBranch then do
    return { insn with index := ← convertPcToInsn pcToInsn insn.index }
  else return insn

/-- `convert_pcs_to_insn_indices`. -/
def convertPcsToInsnIndices (pcToInsn : PcToInsn) (code : List ParsedInsn) :
    Except String (List ParsedInsn) :=
  code.mapM (convertInsn pcToInsn)

/-- The body of the loop over the exception table. -/
def parseException (pool : ConstantPool) (codeLength : Nat) (pcToInsn : PcToInsn) :
    Parser ParsedException := do
  let startPc ← readerNextU16 "exception start pc"
  let endPc ← readerNextU16 "exception end pc"
  let handlerPc ← readerNextU16 "exception handler pc"
  let catchType ← readerNextU16 "exception catch type"
  if startPc ≥ codeLength ∨ endPc > codeLength ∨ handlerPc ≥ codeLength then
    fail "exception table entry out of bounds"
  else if startPc ≥ endPc then fail "exception table entry start >= end"
  else do
    let startInsn ← lift (convertPcToInsn pcToInsn startPc)
    let endInsn ← lift (convertEndPc codeLength pcToInsn endPc)
    let handlerInsn ← lift (convertPcToInsn pcToInsn handlerPc)
    if catchType = 0 then return { startInsn, endInsn, handlerInsn }
    else do
      let _ ← lift (checkedCpEntry pool catchType [.classInfo] "exception catch type")
      return { startInsn, endInsn, handlerInsn, catchType := some catchType }

/-- `parse_code_attribute`; `nested` parses the attributes in it.  `current_code_max_pc` is a
32-bit `int`. -/
def parseCodeAttribute {α : Type} (pool : ConstantPool) (nested : Parser α) :
    Parser (ParsedCode α) := do
  let maxStack ← readerNextU16 "max stack"
  let maxLocals ← readerNextU16 "max locals"
  let codeLength ← readerNextU32 "code length"
  let codeStart ← position
  let (code, pcToInsn) ← withSlice "End of slice while reading code" codeLength
    (parseInsns pool (toSigned 32 codeLength) codeStart codeLength 0 fun _ => none)
  let code ← lift (convertPcsToInsnIndices pcToInsn code)
  let exceptionTableLength ← readerNextU16 "exception table length"
  let exceptionTable ← (parseException pool codeLength pcToInsn).times exceptionTableLength
  let attributesCount ← readerNextU16 "code attributes count"
  let attributes ← nested.times attributesCount
  return { maxStack, maxLocals, code, exceptionTable, attributes }

/-- The index of an entry that is in the next two bytes. -/
def nextRef (pool : ConstantPool) (indexReason : String) (expectedKinds : List CpKind)
    (reason : String) : Parser Nat := do
  return (← nextEntry pool indexReason 2 expectedKinds reason).1

/-- The bytes of an entry whose index is in the next two bytes. -/
def nextUtf8 (pool : ConstantPool) (indexReason reason : String) : Parser Chars := do
  let index ← readerNextU16 indexReason
  lift (checkedGetUtf8 pool index reason)

/-- `parse_bootstrap_methods_attribute`. -/
def parseBootstrapMethodsAttribute (pool : ConstantPool) : Parser (List BootstrapMethod) := do
  let count ← readerNextU16 "bootstrap methods count"
  times (do
    let ref ← nextRef pool "bootstrap method ref" [.methodHandle] "bootstrap method ref"
    let argCount ← readerNextU16 "bootstrap method arg count"
    let args ← (nextRef pool "bootstrap method arg" [.integer, .float, .long, .double, .classInfo,
      .string, .methodHandle, .methodType, .dynamicConstant] "bootstrap method arg").times argCount
    return { ref, args }) count

/-- `check_unqualified_name`. -/
def checkUnqualifiedName (name : Chars) (isMethod : Bool) (reading : String) : Except String Unit :=
  if name = [] then .error ("empty " ++ reading ++ " name")
  else if utf8Equals name "<init>" ∨ utf8Equals name "<clinit>" then .ok ()
  else if (name.map charOf).any fun c =>
      c ∈ ['.', ';', '[', '/'] || (isMethod && c ∈ ['<', '>']) then
    .error (("invalid " ++ reading ++ " name: '" ++ fmtSlice name ++ "'").take 1023).toString
  else .ok ()

/-- `parse_inner_classes_attribute`. -/
def parseInnerClassesAttribute (pool : ConstantPool) : Parser (List Nat) := do
  let count ← readerNextU16 "inner classes count"
  times (do
    let inner ← nextRef pool "inner class index" [.classInfo] "inner class"
    let _ ← readerNextU16 "outer class index"
    let _ ← readerNextU16 "inner class name index"
    let _ ← readerNextU16 "inner class access flags"
    return inner) count

/-- The case `EnclosingMethod`, where an index 0 stands for nothing. -/
def parseEnclosingMethod (pool : ConstantPool) : Parser (AttributeData Attribute) := do
  let enclosingClassIndex ← readerNextU16 "enclosing class index"
  let enclosingMethodIndex ← readerNextU16 "enclosing method index"
  let classInfo ← optional enclosingClassIndex [.classInfo] "enclosing class"
  let nat ← optional enclosingMethodIndex [.nameAndType] "enclosing method"
  return .enclosingMethod classInfo nat
where
  optional (index : Nat) (expectedKinds : List CpKind) (reason : String) : Parser (Option Nat) :=
    if index = 0 then pure none
    else do return some (← lift (checkedRef pool index expectedKinds reason))

def parseMethodParameters (pool : ConstantPool) : Parser (List (Option Chars × Nat)) := do
  let count ← readerNextU8 "method parameters count"
  times (do
    let nameIndex ← readerNextU16 "method parameter name"
    let name ← if nameIndex = 0 then pure none else do
      let paramName ← lift (checkedGetUtf8 pool nameIndex "method parameter name")
      let _ ← lift (checkUnqualifiedName paramName false "method parameter name")
      pure (some paramName)
    let accessFlags ← readerNextU16 "method parameter access flags"
    return (name, accessFlags)) count

def parseLocalVariableTable (pool : ConstantPool) : Parser (List LvtEntry) := do
  let count ← readerNextU16 "local variable table count"
  times (do
    let startPc ← readerNextU16 "local variable start pc"
    let length ← readerNextU16 "local variable length"
    let name ← nextUtf8 pool "local variable name" "local variable name"
    let descriptor ← nextUtf8 pool "local variable descriptor" "local variable descriptor"
    let index ← readerNextU16 "local variable index"
    return { startPc, endPc := startPc + length, index, name, descriptor }) count

/-- The cases of `parse_attribute`, in the slice of the attribute. -/
def parseAttributeData (pool : ConstantPool) (nested : Parser Attribute) (name : Chars) :
    Parser (AttributeData Attribute) := do
  if utf8Equals name "Code" then return .code (← parseCodeAttribute pool nested)
  else if utf8Equals name "StackMapTable" then
    let entriesCount ← readerNextU16 "stack map table count"
    return .stackMapTable { entriesCount, data := ← allBytes }
  else if utf8Equals name "ConstantValue" then
    return .constantValue (← nextRef pool "constant value index"
      [.integer, .float, .long, .double, .string] "constant value")
  else if utf8Equals name "BootstrapMethods" then
    return .bootstrapMethods (← parseBootstrapMethodsAttribute pool)
  else if utf8Equals name "InnerClasses" then
    return .innerClasses (← parseInnerClassesAttribute pool)
  else if utf8Equals name "EnclosingMethod" then parseEnclosingMethod pool
  else if utf8Equals name "PermittedSubclasses" then
    let count ← readerNextU16 "permitted subclasses count"
    return .permittedSubclasses (← (nextRef pool "permitted subclass index" [.classInfo]
      "permitted subclass").times count)
  else if utf8Equals name "SourceFile" then
    return .sourceFile (← nextUtf8 pool "source file index" "source file")
  else if utf8Equals name "LineNumberTable" then
    let count ← readerNextU16 "line number table count"
    return .lineNumberTable (← times (do
      let startPc ← readerNextU16 "line number start pc"
      let line ← readerNextU16 "line number"
      return (startPc, line)) count)
  else if utf8Equals name "MethodParameters" then
    return .methodParameters (← parseMethodParameters pool)
  else if utf8Equals name "RuntimeVisibleAnnotations" then
    return .runtimeVisibleAnnotations (← allBytes)
  else if utf8Equals name "RuntimeVisibleParameterAnnotations" then
    return .runtimeVisibleParameterAnnotations (← allBytes)
  else if utf8Equals name "RuntimeVisibleTypeAnnotations" then
    return .runtimeVisibleTypeAnnotations (← allBytes)
  else if utf8Equals name "AnnotationDefault" then return .annotationDefault (← allBytes)
  else if utf8Equals name "Signature" then
    return .signature (← nextUtf8 pool "Signature index" "Signature index")
  else if utf8Equals name "NestHost" then
    return .nestHost (← nextRef pool "NestHost index" [.classInfo] "NestHost index")
  else if utf8Equals name "LocalVariableTable" then
    return .localVariableTable (← parseLocalVariableTable pool)
  else return .unknown

/-- `parse_attribute`; the fuel bounds how deep attributes are in one another. -/
def parseAttribute (pool : ConstantPool) : Nat → Parser Attribute
  | 0 => fail "out of fuel"
  | fuel + 1 => do
    let name ← nextUtf8 pool "method attribute name" "method attribute name"
    let length ← readerNextU32 "method attribute length"
    let data ← withSlice "End of slice while reading Attribute data" length
      (parseAttributeData pool (parseAttribute pool fuel) name)
    return .mk name length data

end BJvm.ClassFile
