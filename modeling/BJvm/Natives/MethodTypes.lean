import BJvm.ClassFile.DescriptorGrammar
import BJvm.Linkage.MethodResolution
import BJvm.Natives.ClassNames

/-!
# Descriptors of method types

`unparse_method_type` of `MethodHandleNatives.c`, with the names that `arrays.c` gives the classes of
arrays, and the lookup of `resolve_mn` with the descriptor.
-/

namespace BJvm.MethodTypes

open CBuffers StackString ClassFile
open ClassNames (maxCfNameLength)

/-! ### Classes -/

/-- A class that a `MethodType` refers to.  The name of one that is no array comes from a class file. -/
inductive ClassDesc
  | ordinary (name : Chars) (length : name.length < 2 ^ 16)
  | primitive (kind : TypeKind) (notReference : kind ≠ .reference)
  | array (component : ClassDesc)

/-- `type_kind_to_char`. -/
def typeKindToChar (kind : TypeKind) : UInt8 := (kindChar kind).toUInt8

/-- `arena_make_str` of a string on the stack. -/
def arenaMakeStr (buffer : Chars) (str : Slice) : Option Chars := str.chars buffer

/-- The text that `ordinary_array_classdesc` prints, with the name of the component. -/
def nameOfArray (text : Chars) : Option Chars := do
  let (buffer, name) := initStackString (maxCfNameLength + 256)
  let (buffer, name) ← bprintf buffer name text
  arenaMakeStr buffer name

namespace ClassDesc

/-- The name of the class of arrays of the component: `get_or_create_array_classdesc`. -/
def arrayName : ClassDesc → Option Chars
  | primitive kind _ => do
    let (buffer, name) := initStackString 3
    let (buffer, name) ← bprintf buffer name ['['.toUInt8, typeKindToChar kind]
    arenaMakeStr buffer name
  | ordinary name _ => nameOfArray ('['.toUInt8 :: 'L'.toUInt8 :: (cstr name ++ [';'.toUInt8]))
  | array component => do
    let name ← arrayName component
    nameOfArray ('['.toUInt8 :: cstr name)

/-- `unparse_classdesc_to_field_descriptor`. -/
def unparseToFieldDescriptor (buffer : Chars) (str : Slice) : ClassDesc → Option (Chars × Slice)
  | ordinary name _ => bprintf buffer str ('L'.toUInt8 :: (cstr name ++ [';'.toUInt8]))
  | array component => do
    let name ← arrayName component
    bprintf buffer str (cstr name)
  | primitive kind _ => bprintf buffer str [typeKindToChar kind]

/-- The type that the class stands for. -/
def descriptor : ClassDesc → ParsedDescriptor
  | ordinary name _ => { baseKind := .reference, dimensions := 0, className := name }
  | primitive kind _ => { baseKind := kind, dimensions := 0 }
  | array component =>
    { component.descriptor with dimensions := component.descriptor.dimensions + 1 }

end ClassDesc

/-! ### Method types -/

/-- `native_MethodType`. -/
structure MethodType where
  ptypes : List ClassDesc
  rtype : ClassDesc

/-- Goes on behind what has been printed. -/
def advance (dchecks : Bool) (write : Slice) (printed : Option (Chars × Slice)) :
    Option (Chars × Slice) := do
  let (buffer, piece) ← printed
  let write ← subslice dchecks write piece.len
  return (buffer, write)

namespace MethodType

variable (mt : MethodType)

/-- `unparse_method_type`. -/
def unparse (dchecks : Bool) : Option Chars := do
  let (buffer, desc) := initStackString 10000
  let (buffer, write) ← advance dchecks desc (bprintf buffer desc ['('.toUInt8])
  let (buffer, write) ← mt.ptypes.foldlM (fun (buffer, write) cls =>
    advance dchecks write (cls.unparseToFieldDescriptor buffer write)) (buffer, write)
  let (buffer, write) ← advance dchecks write (bprintf buffer write [')'.toUInt8])
  let (buffer, write) ← advance dchecks write (mt.rtype.unparseToFieldDescriptor buffer write)
  ({ desc with len := write.offset - desc.offset } : Slice).chars buffer

/-- The descriptor that the type stands for. -/
def signature : ParsedMethodDescriptor where
  args := mt.ptypes.map (·.descriptor)
  returnType := mt.rtype.descriptor

/-- The lookup of `resolve_mn` for a method of the class `c`. -/
def resolveMn (dchecks : Bool) (classes : Nat → Linkage.Classdesc) (fuel c : Nat)
    (name : List Char) : Option Linkage.MethodPtr :=
  (mt.unparse dchecks).bind fun descriptor =>
    Linkage.lookupMethod classes name (descriptor.map charOf) fuel c true false

/-- The descriptor is that of the signature, it is parsed to the same types, and a method that the
class declares with it is found. -/
structure UnparsesRight (dchecks : Bool) : Prop where
  descriptor : mt.unparse dchecks = some mt.signature.print
  parses : (mt.unparse dchecks).map parseMethodTypes = some (.ok mt.signature)
  resolves : ∀ classes fuel c name,
    (∃ m ∈ (classes c).methods, m.name = name ∧
      m.unparsedDescriptor = mt.signature.print.map charOf) →
    ∃ p, mt.resolveMn dchecks classes (fuel + 1) c name = some p ∧
      Linkage.methodCandidateMatches (Linkage.methodAt classes p) name
        (mt.signature.print.map charOf) = true

end MethodType

/-- A class whose name has no zero byte, or an array class whose descriptor fits into the buffer for
its name. -/
def ClassDesc.Printable : ClassDesc → Prop
  | ordinary name _ => 0 ∉ name
  | primitive _ _ => True
  | array component =>
    component.Printable ∧ (array component).descriptor.print.length ≤ maxCfNameLength + 256

/-- The method types with the right descriptors.  A class may have any name that the parser of
descriptors takes. -/
structure MethodType.Fits (mt : MethodType) : Prop where
  length : mt.signature.print.length ≤ 10000
  printable : ∀ cls ∈ mt.rtype :: mt.ptypes, cls.Printable
  args : ∀ arg ∈ mt.signature.args, arg.IsLoose ∧ arg.baseKind ≠ .void
  returnType : mt.signature.returnType.IsLoose

end BJvm.MethodTypes
