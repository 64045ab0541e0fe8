import BJvm.Method

/-!
# The stack map frame iterator

`stackmaptable.c`.  The buffers of the C code are lists of the length that goes with them, and
`data` is what is left of the table.
-/

namespace BJvm

/-- `stack_map_frame_validation_type_kind`. -/
inductive ValidationTypeKind
  | top | integer | float | double | long | null | uninitThis | object | uninit
  deriving DecidableEq, Repr, Inhabited

/-- `stack_map_frame_validation_type`.  Of the name only the mark of an implicit top is ever
read. -/
structure ValidationType where
  kind : ValidationTypeKind
  implicit : Bool := false
  deriving DecidableEq, Repr, Inhabited

/-- The top that follows a double or long among the locals. -/
def implicitTop : ValidationType := { kind := .top, implicit := true }

def ValidationType.isImplicitTop (v : ValidationType) : Bool := v.kind = .top && v.implicit

/-- `is_wide` of `read_verification_type`. -/
def ValidationTypeKind.isWide (k : ValidationTypeKind) : Bool := k = .double || k = .long

/-- `type_to_validation_type`; the kinds it does not list are zero. -/
def typeToValidationType : TypeKind → ValidationTypeKind
  | .reference => .object
  | .int => .integer
  | .long => .long
  | .float => .float
  | .double => .double
  | _ => .top

/-- `stack_map_frame_iterator` with its implementation. -/
structure StackMapFrameIterator where
  pc : Nat := 0
  stack : List ValidationType := []
  locals : List ValidationType := []
  data : List UInt8 := []
  hasNext : Bool := false
  isFirst : Bool := true
  deriving DecidableEq, Repr, Inhabited

/-- A local and, behind a double or long, the implicit top. -/
def withImplicitTop (v : ValidationType) : List ValidationType :=
  if v.kind.isWide then [v, implicitTop] else [v]

/-- `init_locals`. -/
def initLocals (m : CpMethod) : List ValidationType :=
  (if m.isStatic then [] else
    [{ kind := if m.isCtor then ValidationTypeKind.uninitThis else .object }]) ++
  m.descriptor.args.flatMap fun arg => withImplicitTop { kind := typeToValidationType arg.reprKind }

def unexpectedEnd : String := "Unexpected end of stackmaptable"

def readU8 : List UInt8 → Except String (Nat × List UInt8)
  | [] => .error unexpectedEnd
  | b :: data => .ok (b.toNat, data)

def readU16 : List UInt8 → Except String (Nat × List UInt8)
  | hi :: lo :: data => .ok (hi.toNat * 256 + lo.toNat, data)
  | _ => .error unexpectedEnd

/-- The kind with the given number, up to `STACK_MAP_FRAME_VALIDATION_TYPE_UNINIT`. -/
def validationTypeKind : Nat → Option ValidationTypeKind
  | 0 => some .top
  | 1 => some .integer
  | 2 => some .float
  | 3 => some .double
  | 4 => some .long
  | 5 => some .null
  | 6 => some .uninitThis
  | 7 => some .object
  | 8 => some .uninit
  | _ => none

def readVerificationType (data : List UInt8) : Except String (ValidationType × List UInt8) := do
  let (typeKind, data) ← readU8 data
  match validationTypeKind typeKind with
  | none => throw "Invalid verification type"
  | some kind =>
    if kind = .object ∨ kind = .uninit then
      let (_, data) ← readU16 data
      return ({ kind }, data)
    else return ({ kind }, data)

/-- The loop of `chop_frame`. -/
def chopLocals : Nat → List ValidationType → Except String (List ValidationType)
  | 0, locals => .ok locals
  | n + 1, locals =>
    match locals.getLast? with
    | none => .error "chop_frame underflow"
    | some v =>
      if v.isImplicitTop then
        if locals.length < 2 then .error "chop_frame underflow"
        else chopLocals n locals.dropLast.dropLast
      else chopLocals n locals.dropLast

/-- The loops that read locals, in `append_frame` and `full_frame`. -/
def readLocals (maxLocals : Nat) (overflow : String) :
    Nat → List ValidationType → List UInt8 → Except String (List ValidationType × List UInt8)
  | 0, locals, data => .ok (locals, data)
  | n + 1, locals, data => do
    let (v, data) ← readVerificationType data
    let locals := locals ++ withImplicitTop v
    if locals.length > maxLocals then throw overflow
    readLocals maxLocals overflow n locals data

/-- The loop of `full_frame` that reads the stack. -/
def readStack (maxStack : Nat) :
    Nat → List ValidationType → List UInt8 → Except String (List ValidationType × List UInt8)
  | 0, stack, data => .ok (stack, data)
  | n + 1, stack, data => do
    let (v, data) ← readVerificationType data
    let stack := stack ++ [v]
    if stack.length > maxStack then throw "full_frame stack overflow"
    readStack maxStack n stack data

namespace StackMapFrameIterator

/-- The body of `stack_map_frame_iterator_next` for one frame: the offset delta, the stack, the
locals, and what is left of the table. -/
def readFrame (maxLocals maxStack : Nat) (locals : List ValidationType) (data : List UInt8) :
    Except String (Nat × List ValidationType × List ValidationType × List UInt8) := do
  let (frameKind, data) ← readU8 data
  if frameKind ≤ 63 then
    return (frameKind, [], locals, data)
  else if (64 ≤ frameKind ∧ frameKind ≤ 127) ∨ frameKind = 247 then
    let (offsetDelta, data) ←
      if frameKind = 247 then readU16 data else pure (frameKind - 64, data)
    let (v, data) ← readVerificationType data
    return (offsetDelta, [v], locals, data)
  else if frameKind ≤ 246 then
    throw "Reserved frame kind"
  else if frameKind ≤ 250 then
    let locals ← chopLocals (251 - frameKind) locals
    let (offsetDelta, data) ← readU16 data
    return (offsetDelta, [], locals, data)
  else if frameKind = 251 then
    let (offsetDelta, data) ← readU16 data
    return (offsetDelta, [], locals, data)
  else if frameKind ≤ 254 then
    let (offsetDelta, data) ← readU16 data
    let (locals, data) ←
      readLocals maxLocals "append_frame locals overflow" (frameKind - 251) locals data
    return (offsetDelta, [], locals, data)
  else
    let (offsetDelta, data) ← readU16 data
    let (numLocals, data) ← readU16 data
    let (locals, data) ← readLocals maxLocals "full_frame locals overflow" numLocals [] data
    let (numStack, data) ← readU16 data
    let (stack, data) ← readStack maxStack numStack [] data
    return (offsetDelta, stack, locals, data)

/-- `stack_map_frame_iterator_next`. -/
def next (code : AttributeCode) (it : StackMapFrameIterator) :
    Except String StackMapFrameIterator := do
  let (offsetDelta, stack, locals, data) ←
    readFrame code.maxLocals code.maxStack it.locals it.data
  if stack.length > code.maxStack ∨ locals.length > code.maxLocals then
    throw "Stack map frame overflow"
  return {
    pc := if it.isFirst then it.pc + offsetDelta else it.pc + offsetDelta + 1
    stack, locals, data
    hasNext := !data.isEmpty
    isFirst := false }

/-- `stack_map_frame_iterator_init`.  A failure to skip the first frame writes its message through
a null pointer. -/
def init (m : CpMethod) : Except Failure StackMapFrameIterator :=
  let it : StackMapFrameIterator :=
    { locals := initLocals m
      data := (m.code.stackMapTable.map (·.data)).getD []
      hasNext := m.code.stackMapTable.isSome }
  if it.data.head? = some 0 then
    match it.next m.code with
    | .ok it => .ok it
    | .error _ => .error .abort
  else .ok it

end StackMapFrameIterator

end BJvm
