import BJvm.StackMap.Iterator
import Mathlib.Algebra.Order.Ring.Nat

/-!
# Stack map frames

The frames of a `StackMapTable` as the class file format defines them: their bytes, the type state
each gives from the one before, and the offset it stands at.  `Yields` says that the iterator goes
through a sequence of such states and stops behind the last.
-/

namespace BJvm

/-- `verification_type_info`. -/
inductive VerificationType
  | top | integer | float | double | long | null | uninitializedThis
  | object (cpoolIndex : UInt16)
  | uninitialized (offset : UInt16)
  deriving DecidableEq, Repr

/-- `stack_map_frame`.  The lists of an append frame and of a full frame are as long as their
counts allow in a valid frame. -/
inductive StackMapFrame
  | same (offsetDelta : Fin 64)
  | sameLocals1 (offsetDelta : Fin 64) (stack : VerificationType)
  | sameLocals1Extended (offsetDelta : UInt16) (stack : VerificationType)
  | chop (k : Fin 3) (offsetDelta : UInt16)
  | sameExtended (offsetDelta : UInt16)
  | append (offsetDelta : UInt16) (locals : List VerificationType)
  | full (offsetDelta : UInt16) (locals stack : List VerificationType)
  deriving DecidableEq, Repr

namespace VerificationType

def kind : VerificationType → ValidationTypeKind
  | top => .top
  | integer => .integer
  | float => .float
  | double => .double
  | long => .long
  | null => .null
  | uninitializedThis => .uninitThis
  | object _ => .object
  | uninitialized _ => .uninit

/-- Whether the type takes two locals, or two words of the stack. -/
def isWide (v : VerificationType) : Bool := v.kind.isWide

def words (v : VerificationType) : Nat := if v.isWide then 2 else 1

end VerificationType

def encodeU16 (n : UInt16) : List UInt8 := [(n >>> 8).toUInt8, n.toUInt8]

def VerificationType.encode : VerificationType → List UInt8
  | top => [0]
  | integer => [1]
  | float => [2]
  | double => [3]
  | long => [4]
  | null => [5]
  | uninitializedThis => [6]
  | object cpoolIndex => 7 :: encodeU16 cpoolIndex
  | uninitialized offset => 8 :: encodeU16 offset

/-- The type state at a bytecode offset.  A double or long is one entry of either list. -/
structure FrameState where
  pc : Nat
  locals : List VerificationType
  stack : List VerificationType
  deriving DecidableEq, Repr

namespace StackMapFrame

def offsetDelta : StackMapFrame → Nat
  | same d => d
  | sameLocals1 d _ => d
  | sameLocals1Extended d _ => d.toNat
  | chop _ d => d.toNat
  | sameExtended d => d.toNat
  | append d _ => d.toNat
  | full d _ _ => d.toNat

def encode : StackMapFrame → List UInt8
  | same d => [UInt8.ofNat d]
  | sameLocals1 d v => UInt8.ofNat (64 + d) :: v.encode
  | sameLocals1Extended d v => 247 :: (encodeU16 d ++ v.encode)
  | chop k d => UInt8.ofNat (250 - k) :: encodeU16 d
  | sameExtended d => 251 :: encodeU16 d
  | append d locals =>
    UInt8.ofNat (251 + locals.length) :: (encodeU16 d ++ locals.flatMap VerificationType.encode)
  | full d locals stack =>
    255 :: (encodeU16 d ++ encodeU16 (UInt16.ofNat locals.length) ++
      locals.flatMap VerificationType.encode ++ encodeU16 (UInt16.ofNat stack.length) ++
      stack.flatMap VerificationType.encode)

/-- The locals and the stack of the frame, behind one with the given locals. -/
def apply (locals : List VerificationType) :
    StackMapFrame → List VerificationType × List VerificationType
  | same _ | sameExtended _ => (locals, [])
  | sameLocals1 _ v | sameLocals1Extended _ v => (locals, [v])
  | chop k _ => (locals.take (locals.length - (k + 1)), [])
  | append _ more => (locals ++ more, [])
  | full _ locals stack => (locals, stack)

/-- The counts of the frame are what its form allows, and it chops no more locals than there
are. -/
def Valid (locals : List VerificationType) : StackMapFrame → Prop
  | chop k _ => k + 1 ≤ locals.length
  | append _ more => 1 ≤ more.length ∧ more.length ≤ 3
  | full _ locals stack => locals.length < 65536 ∧ stack.length < 65536
  | _ => True

end StackMapFrame

/-- The states of the frames behind `prev`, the first of which stands at `offsetDelta` from
`base`. -/
def frameStates (locals : List VerificationType) (base : Nat) : List StackMapFrame → List FrameState
  | [] => []
  | f :: fs =>
    let s := f.apply locals
    { pc := base + f.offsetDelta, locals := s.1, stack := s.2 } ::
      frameStates s.1 (base + f.offsetDelta + 1) fs

/-- Every frame is valid where it stands, and fits in the frame of the method. -/
def FramesFit (code : AttributeCode) (locals : List VerificationType) : List StackMapFrame → Prop
  | [] => True
  | f :: fs => f.Valid locals ∧ ((f.apply locals).1.map VerificationType.words).sum ≤ code.maxLocals ∧
      ((f.apply locals).2.map VerificationType.words).sum ≤ code.maxStack ∧
      FramesFit code (f.apply locals).1 fs

/-- The type of an argument, without its class. -/
def FieldDescriptor.verificationType (d : FieldDescriptor) : VerificationType :=
  match d.reprKind with
  | .float => .float
  | .double => .double
  | .long => .long
  | .reference => .object 0
  | _ => .integer

/-- The locals of the implicit first frame.  In the constructor of `Object` itself `this` needs no
initialisation. -/
def CpMethod.initialLocals (m : CpMethod) : List VerificationType :=
  (if m.isStatic then [] else
    [if m.isCtor ∧ m.className ≠ "java/lang/Object" then .uninitializedThis else .object 0]) ++
  m.descriptor.args.map FieldDescriptor.verificationType

/-- The type states that the table gives, in order: that of method entry, unless the first frame
stands at offset 0 too, and those of the frames. -/
def CpMethod.frameSequence (m : CpMethod) (frames : List StackMapFrame) : List FrameState :=
  match frameStates m.initialLocals 0 frames with
  | [] => [{ pc := 0, locals := m.initialLocals, stack := [] }]
  | s :: ss => if s.pc = 0 then s :: ss
    else { pc := 0, locals := m.initialLocals, stack := [] } :: s :: ss

/-- The table holds the frames, and they fit the method. -/
structure Conforms (m : CpMethod) (frames : List StackMapFrame) : Prop where
  table : m.code.stackMapTable =
    some { entriesCount := frames.length, data := frames.flatMap StackMapFrame.encode }
  entry : (m.initialLocals.map VerificationType.words).sum ≤ m.code.maxLocals
  args : ∀ arg ∈ m.descriptor.args, arg.baseKind ≠ .void
  fit : FramesFit m.code m.initialLocals frames

/-- The locals as the iterator holds them. -/
def expand (locals : List VerificationType) : List ValidationType :=
  locals.flatMap fun v => withImplicitTop { kind := v.kind }

/-- The iterator stands at the frame. -/
structure StackMapFrameIterator.At (it : StackMapFrameIterator) (s : FrameState) : Prop where
  pc : it.pc = s.pc
  locals : it.locals = expand s.locals
  stack : it.stack = s.stack.map fun v => { kind := v.kind }

/-- From `it` on, the iterator goes through the states and has no next frame at the last. -/
def Yields (code : AttributeCode) : StackMapFrameIterator → List FrameState → Prop
  | _, [] => False
  | it, [s] => it.At s ∧ it.hasNext = false
  | it, s :: ss => it.At s ∧ it.hasNext = true ∧ ∃ it', it.next code = .ok it' ∧ Yields code it' ss

end BJvm
