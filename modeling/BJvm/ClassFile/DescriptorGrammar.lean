import BJvm.ClassFile.ParseClassfile

/-!
# The grammar of descriptors

What the descriptors of fields and methods have to look like (JVMS 4.3), by how a descriptor is
written, and what is asked of the descriptors of a class file.
-/

namespace BJvm.ClassFile

/-! ### Descriptors of fields -/

/-- The letter of a base kind, that of a class for references. -/
def kindChar : TypeKind → Char
  | .byte => 'B'
  | .char => 'C'
  | .double => 'D'
  | .float => 'F'
  | .int => 'I'
  | .long => 'J'
  | .short => 'S'
  | .boolean => 'Z'
  | .void => 'V'
  | .reference => 'L'

namespace ParsedDescriptor

/-- The descriptor without its dimensions. -/
def printBase (d : ParsedDescriptor) : Chars :=
  (kindChar d.baseKind).toUInt8 ::
    if d.baseKind = .reference then d.className ++ [';'.toUInt8] else []

/-- The descriptor as it is written. -/
def print (d : ParsedDescriptor) : Chars :=
  List.replicate d.dimensions '['.toUInt8 ++ d.printBase

end ParsedDescriptor

/-- An unqualified name (JVMS 4.2.2). -/
def isUnqualifiedName (name : Chars) : Bool :=
  name ≠ [] && name.all fun b => charOf b ∉ ['.', ';', '[', '/']

/-- The internal form of a class name (JVMS 4.2.1): unqualified names with slashes between them. -/
def isInternalName (name : Chars) : Bool := (name.splitOn '/'.toUInt8).all isUnqualifiedName

/-- A field type (JVMS 4.3.2). -/
structure ParsedDescriptor.IsFieldType (d : ParsedDescriptor) : Prop where
  notVoid : d.baseKind ≠ .void
  dimensions : d.dimensions ≤ 255
  className : if d.baseKind = .reference then isInternalName d.className = true else d.className = []

/-- A field descriptor (JVMS 4.3.2). -/
def IsFieldDescriptor (chars : Chars) : Prop := ∃ d : ParsedDescriptor, d.IsFieldType ∧ d.print = chars

/-! ### Descriptors of methods -/

/-- `method_descriptor`, with the names of the classes. -/
structure ParsedMethodDescriptor where
  args : List ParsedDescriptor
  returnType : ParsedDescriptor
deriving DecidableEq, Repr

namespace ParsedMethodDescriptor

def print (d : ParsedMethodDescriptor) : Chars :=
  '('.toUInt8 :: (d.args.flatMap (·.print) ++ ')'.toUInt8 :: d.returnType.print)

/-- Without the names of the classes. -/
def toMethodDescriptor (d : ParsedMethodDescriptor) : MethodDescriptor where
  args := d.args.map (·.toFieldDescriptor)
  returnType := d.returnType.toFieldDescriptor

/-- The slots that the arguments take up, `long` and `double` two of them. -/
def argumentSlots (d : ParsedMethodDescriptor) : Nat :=
  (d.args.map fun arg => if arg.isWide then 2 else 1).sum

/-- What a method descriptor stands for (JVMS 4.3.3). -/
structure IsMethodType (d : ParsedMethodDescriptor) : Prop where
  args : ∀ arg ∈ d.args, arg.IsFieldType
  returnType : d.returnType.IsFieldType ∨ d.returnType = { baseKind := .void }
  slots : d.argumentSlots ≤ 255

end ParsedMethodDescriptor

/-- A method descriptor (JVMS 4.3.3). -/
def IsMethodDescriptor (chars : Chars) : Prop :=
  ∃ d : ParsedMethodDescriptor, d.IsMethodType ∧ d.print = chars

/-- `parse_method_descriptor`, with the names of the classes. -/
def parseMethodTypes (entry : Chars) : Except String ParsedMethodDescriptor :=
  match entry with
  | [] => .error "Expected '('"
  | b :: chars =>
    if charOf b ≠ '(' then .error "Expected '('"
    else do
      let (args, chars) ← parseArguments chars.length chars
      match chars with
      | [] => throw "missing ')' in method descriptor"
      | _ :: chars =>
        let (returnType, _) ← parseFieldDescriptor 0 chars
        return { args, returnType }

/-! ### The descriptors of a class file -/

/-- The string is a field descriptor, and what it is parsed to prints to it. -/
def FieldRight (chars : Chars) (parsed : ParsedDescriptor) : Prop :=
  IsFieldDescriptor chars ∧ parsed.print = chars

/-- The string is a method descriptor, and what it is parsed to prints to it. -/
def MethodRight (chars : Chars) (parsed : MethodDescriptor) : Prop :=
  IsMethodDescriptor chars ∧ ∃ d, parseMethodTypes chars = .ok d ∧
    d.toMethodDescriptor = parsed ∧ d.print = chars

/-- The descriptor of the name and type at an index. -/
def ConstantPool.descriptorAt (pool : ConstantPool) (nat : Option Nat) : Chars :=
  (pool.info (nat.getD 0)).nat.2

/-- A reference to a method, of a class or of an interface. -/
def CpInfo.IsMethodref (info : CpInfo) (nat : Option Nat) (descriptor : Option MethodDescriptor) :
    Prop :=
  ∃ classInfo, info = .methodref classInfo nat descriptor ∨
    info = .interfaceMethodref classInfo nat descriptor

/-- The descriptors of the fields, the methods and the references to them are what they have to be. -/
structure DescriptorsRight (cf : ParsedClass) : Prop where
  fields : ∀ f ∈ cf.fields, FieldRight f.descriptor f.parsedDescriptor
  fieldrefs : ∀ i classInfo nat descriptor, cf.pool.info i = .field classInfo nat descriptor →
    ∃ d, descriptor = some d ∧ FieldRight (cf.pool.descriptorAt nat) d
  methods : ∀ f ∈ cf.methods, MethodRight f.unparsedDescriptor f.descriptor
  methodrefs : ∀ i nat descriptor, (cf.pool.info i).IsMethodref nat descriptor →
    ∃ d, descriptor = some d ∧ MethodRight (cf.pool.descriptorAt nat) d

/-! ### What is let through -/

/-- A field type but for the name of its class, or `void`. -/
structure ParsedDescriptor.IsLoose (d : ParsedDescriptor) : Prop where
  notVoid : d.baseKind = .void → d.dimensions = 0
  dimensions : d.dimensions ≤ 255
  className : if d.baseKind = .reference then d.className ≠ [] ∧ ';'.toUInt8 ∉ d.className
    else d.className = []

/-- Not the descriptor of `void`, and a class that it names has a name in internal form. -/
def FieldClean (chars : Chars) : Prop :=
  chars ≠ ['V'.toUInt8] ∧ ∀ dimensions name,
    chars = List.replicate dimensions '['.toUInt8 ++ 'L'.toUInt8 :: (name ++ [';'.toUInt8]) →
      isInternalName name

/-- Nothing is behind the type that is returned, the arguments take up at most 255 slots, and the
classes have names in internal form. -/
def MethodClean (chars : Chars) : Prop :=
  ∀ (d : ParsedMethodDescriptor) (rest : Chars), (∀ arg ∈ d.args, arg.IsLoose ∧ arg.baseKind ≠ .void) →
    d.returnType.IsLoose → chars = d.print ++ rest →
    rest = [] ∧ d.argumentSlots ≤ 255 ∧
      ∀ t ∈ d.returnType :: d.args, t.baseKind = .reference → isInternalName t.className

structure DescriptorsClean (cf : ParsedClass) : Prop where
  fields : ∀ f ∈ cf.fields, FieldClean f.descriptor
  fieldrefs : ∀ i classInfo nat descriptor, cf.pool.info i = .field classInfo nat descriptor →
    FieldClean (cf.pool.descriptorAt nat)
  methods : ∀ f ∈ cf.methods, MethodClean f.unparsedDescriptor
  methodrefs : ∀ i nat descriptor, (cf.pool.info i).IsMethodref nat descriptor →
    MethodClean (cf.pool.descriptorAt nat)

end BJvm.ClassFile
