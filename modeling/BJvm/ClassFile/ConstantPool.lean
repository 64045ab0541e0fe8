import BJvm.Parsing.Reader
import BJvm.ClassFile.Descriptors

/-!
# The constant pool

The first part of `classfile.c`.  A pointer to an entry is its index.  `Float` and `Double` entries
are kept as the bits in the file.
-/

namespace BJvm.ClassFile

open Parsing Parser

/-- `cp_kind`. -/
inductive CpKind
  | invalid | utf8 | integer | float | long | double | classInfo | string | fieldRef | methodRef
  | interfaceMethodRef | nameAndType | methodHandle | methodType | invokeDynamic | dynamicConstant
  | module | package
deriving DecidableEq, Repr

/-- The bit of the kind. -/
def CpKind.toNat : CpKind → Nat
  | .invalid => 0
  | k => 2 ^ (k.ctorIdx - 1)

/-- `cp_kind_to_string`. -/
def CpKind.toString : CpKind → String
  | .invalid => "invalid"
  | .utf8 => "utf8"
  | .integer => "integer"
  | .float => "float"
  | .long => "long"
  | .double => "double"
  | .classInfo => "class"
  | .string => "string"
  | .fieldRef => "field"
  | .methodRef => "method"
  | .interfaceMethodRef => "interfacemethod"
  | .nameAndType => "nameandtype"
  | .methodHandle => "methodhandle"
  | .methodType => "methodtype"
  | .invokeDynamic => "invokedynamic"
  -- `UNREACHABLE()`
  | .dynamicConstant | .module | .package => ""

/-- The union of `cp_entry`; what is not linked yet is none. -/
inductive CpInfo
  | invalid
  | utf8 (chars : Chars)
  | integer (ivalue : Int)
  | float (bits : Nat)
  | long (ivalue : Int)
  | double (bits : Nat)
  | classInfo (name : Option Chars)
  | module (name : Option Chars)
  | package (name : Option Chars)
  | string (chars : Option Chars)
  | field (classInfo nat : Option Nat) (parsedDescriptor : Option ParsedDescriptor)
  | methodref (classInfo nat : Option Nat) (descriptor : Option MethodDescriptor)
  | interfaceMethodref (classInfo nat : Option Nat) (descriptor : Option MethodDescriptor)
  | nameAndType (name descriptor : Option Chars)
  | methodHandle (handleKind : Nat) (reference : Option Nat)
  | methodType (descriptor : Option Chars) (parsedDescriptor : Option MethodDescriptor)
  | invokeDynamic (methodIndex : Nat) (nat : Option Nat)
      (methodDescriptor : Option MethodDescriptor) (method : Option Nat)
  | dynamicConstant (methodIndex : Nat) (nat : Option Nat)
deriving DecidableEq, Repr

def CpInfo.kind : CpInfo → CpKind
  | .invalid => .invalid
  | .utf8 _ => .utf8
  | .integer _ => .integer
  | .float _ => .float
  | .long _ => .long
  | .double _ => .double
  | .classInfo _ => .classInfo
  | .module _ => .module
  | .package _ => .package
  | .string _ => .string
  | .field .. => .fieldRef
  | .methodref .. => .methodRef
  | .interfaceMethodref .. => .interfaceMethodRef
  | .nameAndType .. => .nameAndType
  | .methodHandle .. => .methodHandle
  | .methodType .. => .methodType
  | .invokeDynamic .. => .invokeDynamic
  | .dynamicConstant .. => .dynamicConstant

def CpInfo.utf8Chars : CpInfo → Chars
  | .utf8 chars => chars
  | _ => []

/-- The name and the descriptor. -/
def CpInfo.nat : CpInfo → Chars × Chars
  | .nameAndType name descriptor => (name.getD [], descriptor.getD [])
  | _ => ([], [])

/-- `cp_entry`. -/
structure CpEntry where
  info : CpInfo := .invalid
  myIndex : Nat := 0
deriving DecidableEq, Repr

/-- `constant_pool`. -/
abbrev ConstantPool := List CpEntry

def ConstantPool.info (pool : ConstantPool) (i : Nat) : CpInfo :=
  (pool[i]?.map (·.info)).getD .invalid

/-- `check_cp_entry`. -/
def checkCpEntry (entry : CpEntry) (expectedKinds : List CpKind) (reason : String) :
    Except String CpInfo :=
  if entry.info.kind ∈ expectedKinds then .ok entry.info
  else .error ("Unexpected constant pool entry kind " ++ Nat.repr entry.info.kind.toNat ++
    " at index " ++ Nat.repr entry.myIndex ++ " (expected one of: [ " ++
    String.join (expectedKinds.map fun k => k.toString ++ " ") ++ "]) while reading " ++ reason)

/-- `checked_cp_entry`. -/
def checkedCpEntry (pool : ConstantPool) (index : Nat) (expectedKinds : List CpKind)
    (reason : String) : Except String CpInfo :=
  match pool[index]? with
  | none => .error ("Invalid constant pool entry index " ++ Nat.repr index ++ " (pool size " ++
      Nat.repr pool.length ++ ") while reading " ++ reason)
  | some entry => checkCpEntry entry expectedKinds reason

/-- `checked_get_utf8`. -/
def checkedGetUtf8 (pool : ConstantPool) (index : Nat) (reason : String) : Except String Chars :=
  (checkedCpEntry pool index [.utf8] reason).map CpInfo.utf8Chars

def readerNextU8 (reason : String) : Parser Nat := nextNat reason 1
def readerNextU16 (reason : String) : Parser Nat := nextNat reason 2
def readerNextU32 (reason : String) : Parser Nat := nextNat reason 4
def readerNextU64 (reason : String) : Parser Nat := nextNat reason 8
def readerNextS8 (reason : String) : Parser Int := nextInt reason 1
def readerNextS16 (reason : String) : Parser Int := nextInt reason 2
def readerNextS32 (reason : String) : Parser Int := nextInt reason 4
def readerNextS64 (reason : String) : Parser Int := nextInt reason 8

/-- `cp_resolution_pass`. -/
inductive CpResolutionPass
  | read | link
deriving DecidableEq

/-- What is linked in the second pass only. -/
def CpResolutionPass.link? {α : Type} (pass : CpResolutionPass) (x : Except String α) :
    Parser (Option α) :=
  match pass with
  | .read => pure none
  | .link => do return some (← lift x)

/-- A pointer to an entry that must have one of the kinds. -/
def checkedRef (pool : ConstantPool) (index : Nat) (expectedKinds : List CpKind)
    (reason : String) : Except String Nat :=
  (checkedCpEntry pool index expectedKinds reason).map fun _ => index

/-- The cases of `parse_constant_pool_entry` that have a class and a name and type. -/
def parseMemberRef (pool : ConstantPool) (pass : CpResolutionPass) :
    Parser (Option Nat × Option Nat) := do
  let classIndex ← readerNextU16 "class index"
  let nameAndTypeIndex ← readerNextU16 "name and type index"
  let classInfo ← pass.link? (checkedRef pool classIndex [.classInfo]
    "fieldref/methodref/interfacemethodref class info")
  let nameAndType ← pass.link? (checkedRef pool nameAndTypeIndex [.nameAndType]
    "fieldref/methodref/interfacemethodref name and type")
  return (classInfo, nameAndType)

/-- The cases that have a class name. -/
def parseClassName (pool : ConstantPool) (pass : CpResolutionPass) : Parser (Option Chars) := do
  let index ← readerNextU16 "class index"
  pass.link? (checkedGetUtf8 pool index "class info name")

/-- The cases that have a bootstrap method. -/
def parseDynamic (pool : ConstantPool) (pass : CpResolutionPass) : Parser (Nat × Option Nat) := do
  let bootstrapMethodAttrIndex ← readerNextU16 "bootstrap method attr index"
  let nameAndTypeIndex ← readerNextU16 "name and type index"
  let nameAndType ← pass.link? (checkedRef pool nameAndTypeIndex [.nameAndType]
    "indy name and type")
  return (bootstrapMethodAttrIndex, nameAndType)

/-- `parse_constant_pool_entry`. -/
def parseConstantPoolEntry (pool : ConstantPool) (pass : CpResolutionPass) : Parser CpInfo := do
  match ← readerNextU8 "cp kind" with
  | 19 => return .module (← parseClassName pool pass)
  | 20 => return .package (← parseClassName pool pass)
  | 7 => return .classInfo (← parseClassName pool pass)
  | 9 =>
    let (classInfo, nat) ← parseMemberRef pool pass
    return .field classInfo nat none
  | 10 =>
    let (classInfo, nat) ← parseMemberRef pool pass
    return .methodref classInfo nat none
  | 11 =>
    let (classInfo, nat) ← parseMemberRef pool pass
    return .interfaceMethodref classInfo nat none
  | 8 =>
    let index ← readerNextU16 "string index"
    return .string (← pass.link? (checkedGetUtf8 pool index "string value"))
  | 3 => return .integer (← readerNextS32 "integer value")
  | 4 => return .float (← readerNextU32 "double value")
  | 5 => return .long (← readerNextS64 "long value")
  | 6 => return .double (← readerNextU64 "double value")
  | 12 =>
    let nameIndex ← readerNextU16 "name index"
    let descriptorIndex ← readerNextU16 "descriptor index"
    let name ← pass.link? (checkedGetUtf8 pool nameIndex "name and type name")
    let descriptor ← pass.link? (checkedGetUtf8 pool descriptorIndex "name and type descriptor")
    return .nameAndType name descriptor
  | 1 =>
    let length ← readerNextU16 "utf8 length"
    match pass with
    | .read => return .utf8 (← withSlice "End of slice while reading utf8 data" length allBytes)
    | .link => return .utf8 (← withSlice "End of slice while reading utf8 data" length (pure []))
  | 15 =>
    let handleKind ← readerNextU8 "method handle kind"
    let referenceIndex ← readerNextU16 "reference index"
    let entry ← pass.link? (checkedRef pool referenceIndex
      [.fieldRef, .methodRef, .interfaceMethodRef] "method handle reference")
    return .methodHandle handleKind entry
  | 16 =>
    let descIndex ← readerNextU16 "descriptor index"
    return .methodType (← pass.link? (checkedGetUtf8 pool descIndex "method type descriptor")) none
  | 17 =>
    let (methodIndex, nat) ← parseDynamic pool pass
    return .dynamicConstant methodIndex nat
  | 18 =>
    let (methodIndex, nat) ← parseDynamic pool pass
    return .invokeDynamic methodIndex nat none none
  | _ => fail "Invalid constant pool entry kind"

/-- `init_constant_pool`. -/
def initConstantPool (count : Nat) : ConstantPool := List.replicate (count + 1) {}

/-- The new entry; in the second pass UTF-8 entries stay. -/
def storeEntry (pass : CpResolutionPass) (i : Nat) (info : CpInfo) (pool : ConstantPool) :
    ConstantPool :=
  if info.kind ≠ .utf8 ∨ pass = .read then pool.set i { info, myIndex := i }
  else pool.set i { info := pool.info i, myIndex := i }

def CpKind.isWide (kind : CpKind) : Bool := kind = .long ∨ kind = .double

/-- The entry behind a long or double. -/
def invalidate (i : Nat) (pool : ConstantPool) : ConstantPool :=
  pool.modify i fun entry => { entry with info := .invalid }

/-- The loop of a pass from the entry `i` on. -/
def runPass (pass : CpResolutionPass) (cpCount : Nat) :
    Nat → Nat → ConstantPool → Parser ConstantPool
  | 0, _, pool => pure pool
  | fuel + 1, i, pool =>
    if i < cpCount then do
      let info ← parseConstantPoolEntry pool pass
      let pool := storeEntry pass i info pool
      if info.kind.isWide then runPass pass cpCount fuel (i + 2) (invalidate (i + 1) pool)
      else runPass pass cpCount fuel (i + 1) pool
    else pure pool

/-- `finish_constant_pool_entry`. -/
def finishConstantPoolEntry (pool : ConstantPool) : CpInfo → Except String CpInfo
  | .field classInfo nat _ => do
    let descriptor ← parseCompleteFieldDescriptor (pool.info (nat.getD 0)).nat.2
    return .field classInfo nat (some descriptor)
  | .invokeDynamic methodIndex nat _ method => do
    let descriptor ← parseMethodDescriptor (pool.info (nat.getD 0)).nat.2
    return .invokeDynamic methodIndex nat (some descriptor) method
  | .methodref classInfo nat _ => do
    let descriptor ← methodDescriptor nat
    return .methodref classInfo nat (some descriptor)
  | .interfaceMethodref classInfo nat _ => do
    let descriptor ← methodDescriptor nat
    return .interfaceMethodref classInfo nat (some descriptor)
  | .methodType descriptor _ => do
    let parsed ← parseMethodDescriptor (descriptor.getD [])
    return .methodType descriptor (some parsed)
  | info => return info
where
  methodDescriptor (nat : Option Nat) : Except String MethodDescriptor :=
    let (name, descriptor) := (pool.info (nat.getD 0)).nat
    (parseMethodDescriptor descriptor).mapError fun error =>
      ("Method '" ++ fmtSlice name ++ "' has invalid descriptor '" ++ fmtSlice descriptor ++
        "': " ++ error).take 999 |>.toString

def finishEntry (pool : ConstantPool) (entry : CpEntry) : Except String CpEntry :=
  (finishConstantPoolEntry pool entry.info).map fun info => { entry with info }

/-- `parse_constant_pool`. -/
def parseConstantPool : Parser ConstantPool := do
  let cpCount ← readerNextU16 "constant pool count"
  let pool ← lookahead (runPass .read cpCount cpCount 1 (initConstantPool cpCount))
  let pool ← runPass .link cpCount cpCount 1 pool
  lift (pool.mapM (finishEntry pool))

end BJvm.ClassFile
