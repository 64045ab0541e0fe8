import BJvm.ClassFile.Attributes

/-!
# Class files

`parse_classfile` of `classfile.c`.  A message is what it leaves in `error` when it returns
`PARSE_ERR`.
-/

namespace BJvm.ClassFile

open Parsing Parser

/-- `cp_field`. -/
structure ParsedField where
  accessFlags : Nat
  name : Chars
  descriptor : Chars
  attributes : List Attribute
  parsedDescriptor : ParsedDescriptor

/-- `cp_method`. -/
structure ParsedMethod where
  accessFlags : Nat
  name : Chars
  unparsedDescriptor : Chars
  attributes : List Attribute
  descriptor : MethodDescriptor
  isCtor : Bool
  isClinit : Bool
  missingSmt : Bool := false
  isSignaturePolymorphic : Bool := false
  myIndex : Nat := 0

/-- `classdesc`, after `parse_classfile`; classes are indices of entries. -/
structure ParsedClass where
  pool : ConstantPool
  accessFlags : Nat
  self : Nat
  name : Chars
  superClass : Option Nat
  interfaces : List Nat
  fields : List ParsedField
  methods : List ParsedMethod
  attributes : List Attribute

/-- The `code` of the last `Code` attribute. -/
def ParsedMethod.code (method : ParsedMethod) : Option (ParsedCode Attribute) :=
  method.attributes.reverse.findSome? fun attr =>
    match attr.data with
    | .code code => some code
    | _ => none

/-- `no_smt_found`. -/
def noSmtFound (code : ParsedCode Attribute) : Bool :=
  code.attributes.all fun attr =>
    match attr.data with
    | .stackMapTable _ => false
    | _ => true

/-- The code attribute as the analysis reads it. -/
def ParsedCode.attributeCode (code : ParsedCode Attribute) : AttributeCode where
  maxStack := code.maxStack
  maxLocals := code.maxLocals
  code := code.code.map (·.toBytecodeInsn)
  exceptionTable := code.exceptionTable.map (·.toExceptionTableEntry)
  stackMapTable := code.attributes.findSome? fun attr =>
    match attr.data with
    | .stackMapTable smt => some smt
    | _ => none
  localVariableTable := (code.attributes.reverse.findSome? fun attr =>
    match attr.data with
    | .localVariableTable entries => some (entries.map (·.index))
    | _ => none).getD []

/-- `find_attribute_by_kind`, for `BootstrapMethods`. -/
def findBootstrapMethods (attributes : List Attribute) : Option (List BootstrapMethod) :=
  attributes.findSome? fun attr =>
    match attr.data with
    | .bootstrapMethods methods => some methods
    | _ => none

def accessStatic : Nat := 0x0008
def accessNative : Nat := 0x0100
def accessModule : Nat := 0x8000

/-- A method of the class, with the given code, as the analysis reads it. -/
def ParsedMethod.cpMethod (method : ParsedMethod) (cf : ParsedClass) (code : ParsedCode Attribute) :
    CpMethod where
  isStatic := method.accessFlags &&& accessStatic != 0
  isCtor := method.isCtor
  className := String.ofList (cf.name.map charOf)
  descriptor := method.descriptor
  code := code.attributeCode
  missingSmt := method.missingSmt

/-- `read_field`; the fuel is that of `parseAttribute`. -/
def readField (pool : ConstantPool) (fuel : Nat) : Parser ParsedField := do
  let accessFlags ← readerNextU16 "field access flags"
  let name ← nextUtf8 pool "field name" "field name"
  let descriptor ← nextUtf8 pool "field descriptor" "field descriptor"
  let attributesCount ← readerNextU16 "field attributes count"
  let attributes ← (parseAttribute pool fuel).times attributesCount
  let parsedDescriptor ← lift (parseCompleteFieldDescriptor descriptor)
  return { accessFlags, name, descriptor, attributes, parsedDescriptor }

/-- `parse_method`. -/
def parseMethod (pool : ConstantPool) (fuel : Nat) : Parser ParsedMethod := do
  let accessFlags ← readerNextU16 "method access flags"
  let name ← nextUtf8 pool "method name" "method name"
  let unparsedDescriptor ← nextUtf8 pool "method descriptor" "method descriptor"
  let attributesCount ← readerNextU16 "method attributes count"
  let descriptor ← lift (parseMethodDescriptor unparsedDescriptor)
  let attributes ← (parseAttribute pool fuel).times attributesCount
  return { accessFlags, name, unparsedDescriptor, attributes, descriptor,
           isCtor := utf8Equals name "<init>", isClinit := utf8Equals name "<clinit>" }

/-- What the loop of `parse_classfile` sets in a method. -/
def markMethod (maybeMissingSmt inMethodHandle : Bool) (i : Nat) (method : ParsedMethod) :
    ParsedMethod :=
  { method with
    missingSmt := maybeMissingSmt && method.code.any noSmtFound
    isSignaturePolymorphic := inMethodHandle && method.accessFlags &&& accessNative != 0
    myIndex := i }

/-- The body of `link_bootstrap_methods`. -/
def linkBootstrapMethod (attributes : List Attribute) : CpInfo → Except String CpInfo
  | .invokeDynamic index nat methodDescriptor _ =>
    match findBootstrapMethods attributes with
    | none => .error "Missing BootstrapMethods attribute"
    | some methods =>
      if methods.length ≤ index then .error "Invalid bootstrap method index"
      else .ok (.invokeDynamic index nat methodDescriptor (some index))
  | info => .ok info

/-- `link_bootstrap_methods`. -/
def linkBootstrapMethods (attributes : List Attribute) (pool : ConstantPool) :
    Except String ConstantPool :=
  pool.mapM fun entry =>
    (linkBootstrapMethod attributes entry.info).map fun info => { entry with info }

/-- `%08x`. -/
def hex8 (n : Nat) : String :=
  let digits := Nat.toDigits 16 n
  String.ofList (List.replicate (8 - digits.length) '0' ++ digits)

/-- `parse_classfile`. -/
def parseClassfile : Parser ParsedClass := do
  let fuel ← remaining
  let magic ← readerNextU32 "magic"
  if magic ≠ 0xCAFEBABE then fail ("Invalid magic number 0x" ++ hex8 magic)
  else do
    let _minor ← readerNextU16 "minor version"
    let major ← readerNextU16 "major version"
    let maybeMissingSmt := decide (major < 50)
    let pool ← parseConstantPool
    -- clears the bit `ACC_SUPER`
    let accessFlags := (← readerNextU16 "access flags") &&& 0xffdf
    let thisClass ← nextEntry pool "this class" 2 [.classInfo] "this class"
    let name := className thisClass.2
    let superIndex ← readerNextU16 "super class"
    let superClass ← lift (superEntry pool accessFlags name superIndex)
    let interfacesCount ← readerNextU16 "interfaces count"
    let interfaces ← (nextRef pool "interface" [.classInfo] "superinterface").times interfacesCount
    let fieldsCount ← readerNextU16 "fields count"
    let fields ← (readField pool fuel).times fieldsCount
    let methodsCount ← readerNextU16 "methods count"
    let inMethodHandle := utf8Equals name "java/lang/invoke/MethodHandle" ||
      utf8Equals name "java/lang/invoke/VarHandle"
    let methods ← (parseMethod pool fuel).times methodsCount
    let attributesCount ← readerNextU16 "class attributes count"
    let attributes ← (parseAttribute pool fuel).times attributesCount
    if (← remaining) > 0 then fail "Trailing bytes in classfile"
    else do
      let pool ← lift (linkBootstrapMethods attributes pool)
      return { pool, accessFlags, self := thisClass.1, name, superClass, interfaces, fields,
               methods := methods.mapIdx (markMethod maybeMissingSmt inMethodHandle), attributes }
where
  className : CpInfo → Chars
    | .classInfo name => name.getD []
    | _ => []
  superEntry (pool : ConstantPool) (accessFlags : Nat) (name : Chars) (superIndex : Nat) :
      Except String (Option Nat) :=
    let isPrimordialObject := utf8Equals name "java/lang/Object"
    if accessFlags &&& accessModule ≠ 0 ∨ isPrimordialObject then return none
    else return some (← checkedRef pool superIndex [.classInfo] "super class")

end BJvm.ClassFile
