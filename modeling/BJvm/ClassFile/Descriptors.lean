import BJvm.Insn

/-!
# Descriptors

The parsers of field and method descriptors of `classfile.c`.  Strings are lists of bytes.
-/

namespace BJvm.ClassFile

/-- The bytes of a `slice`. -/
abbrev Chars := List UInt8

def charOf (b : UInt8) : Char := Char.ofNat b.toNat

/-- The bytes as text of a message. -/
def fmtSlice (s : Chars) : String := String.ofList (s.map charOf)

/-- `field_descriptor`, with its `class_name`. -/
structure ParsedDescriptor extends FieldDescriptor where
  className : Chars := []
deriving DecidableEq, Repr, Inhabited

/-- `read_type_kind_char`, of the kinds that are neither references nor arrays. -/
def readTypeKindChar : Char → Option TypeKind
  | 'B' => some .byte
  | 'C' => some .char
  | 'D' => some .double
  | 'F' => some .float
  | 'I' => some .int
  | 'J' => some .long
  | 'S' => some .short
  | 'Z' => some .boolean
  | 'V' => some .void
  | _ => none

/-- The case of `parse_field_descriptor` for a class, behind the `L`. -/
def parseClassDescriptor (dimensions : Nat) (chars : Chars) :
    Except String (ParsedDescriptor × Chars) :=
  let name := chars.takeWhile fun b => charOf b ≠ ';'
  match chars.dropWhile fun b => charOf b ≠ ';' with
  | [] => .error "missing ';' in reference type"
  | _ :: chars =>
    if name = [] then .error "missing reference type name"
    else .ok ({ baseKind := .reference, dimensions, className := name }, chars)

/-- `parse_field_descriptor`, behind as many brackets; the rest of the bytes. -/
def parseFieldDescriptor : Nat → Chars → Except String (ParsedDescriptor × Chars)
  | _, [] => .error "Expected field descriptor character, but reached end of string"
  | dimensions, b :: chars =>
    if 255 < dimensions then .error "too many dimensions (max 255)"
    else
      match readTypeKindChar (charOf b) with
      | some prim =>
        if prim = .void ∧ 0 < dimensions then .error "void cannot have dimensions"
        else .ok ({ baseKind := prim, dimensions }, chars)
      | none =>
        if charOf b = '[' then parseFieldDescriptor (dimensions + 1) chars
        else if charOf b = 'L' then parseClassDescriptor dimensions chars
        else .error ("invalid field descriptor character '" ++ (charOf b).toString ++ "'")

/-- `parse_complete_field_descriptor`. -/
def parseCompleteFieldDescriptor (entry : Chars) : Except String ParsedDescriptor := do
  match ← parseFieldDescriptor 0 entry with
  | (result, []) => return result
  | (_, b :: _) => throw ("trailing character(s): '" ++ (charOf b).toString ++ "'")

/-- The loop of `parse_method_descriptor` over the arguments. -/
def parseArguments : Nat → Chars → Except String (List ParsedDescriptor × Chars)
  | fuel + 1, b :: chars =>
    if charOf b = ')' then .ok ([], b :: chars)
    else do
      let (arg, chars) ← parseFieldDescriptor 0 (b :: chars)
      if arg.baseKind = .void then throw "void as method parameter"
      let (args, chars) ← parseArguments fuel chars
      return (arg :: args, chars)
  | _, chars => .ok ([], chars)

/-- `parse_method_descriptor`. -/
def parseMethodDescriptor (entry : Chars) : Except String MethodDescriptor :=
  match entry with
  | [] => .error "Expected '('"
  | b :: chars =>
    if charOf b ≠ '(' then .error "Expected '('"
    else do
      let (args, chars) ← parseArguments chars.length chars
      match chars with
      | [] => throw "missing ')' in method descriptor"
      | _ :: chars =>
        let (returnType, _) ← parseFieldDescriptor 0 chars
        return { args := args.map (·.toFieldDescriptor), returnType := returnType.toFieldDescriptor }

end BJvm.ClassFile
