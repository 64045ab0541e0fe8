import BJvm.StackMap.Frames

/-!
# The buffers of the iterator

`stackmaptable.c` once more, with the two buffers that the iterator writes its frames to.  They have
the length they are allocated with, and an access beside them is a fault of its own.
-/

namespace BJvm

/-- How an operation on the buffers ends early. -/
inductive BufferFault
  | outOfBounds
  | error (msg : String)
  | abort
  deriving DecidableEq, Repr

/-- A buffer for `count` entries, with one of slop. -/
abbrev ValidationBuffer (count : Nat) := Vector ValidationType (count + 1)

/-- `allocate_validation_buffer`. -/
def allocateValidationBuffer (count : Nat) : ValidationBuffer count :=
  Vector.replicate (count + 1) { kind := .top }

namespace ValidationBuffer

variable {count : Nat}

def read (b : ValidationBuffer count) (i : Int) : Except BufferFault ValidationType :=
  if h : 0 ≤ i ∧ i.toNat < count + 1 then .ok (b.get ⟨i.toNat, h.2⟩) else .error .outOfBounds

def write (b : ValidationBuffer count) (i : Nat) (v : ValidationType) :
    Except BufferFault (ValidationBuffer count) :=
  if h : i < count + 1 then .ok (b.set i v) else .error .outOfBounds

end ValidationBuffer

/-- A message of a reader is one of the iterator. -/
def liftRead {α : Type} : Except String α → Except BufferFault α
  | .ok a => .ok a
  | .error msg => .error (.error msg)

section

variable {count : Nat}

/-- `read_verification_type` into an entry of the buffer, with `is_wide`. -/
def readVerificationTypeAt (b : ValidationBuffer count) (i : Nat) (data : List UInt8) :
    Except BufferFault (ValidationBuffer count × Bool × List UInt8) := do
  let (typeKind, data) ← liftRead (readU8 data)
  match validationTypeKind typeKind with
  | none => throw (.error "Invalid verification type")
  | some kind =>
    let b ← b.write i { kind }
    if kind = .object ∨ kind = .uninit then
      let (_, data) ← liftRead (readU16 data)
      return (b, kind.isWide, data)
    else return (b, kind.isWide, data)

/-- The implicit top behind a local that has just been written at `i`, and the next entry. -/
def placeImplicitTop (b : ValidationBuffer count) (i : Nat) (isWide : Bool) :
    Except BufferFault (ValidationBuffer count × Nat) :=
  if isWide then do
    let b ← b.write (i + 1) implicitTop
    return (b, i + 2)
  else .ok (b, i + 1)

/-- One round of the loop in `init_locals`. -/
def placeLocal (b : ValidationBuffer count) (i : Nat) (kind : ValidationTypeKind) :
    Except BufferFault (ValidationBuffer count × Nat) := do
  let b ← b.write i { kind }
  placeImplicitTop b i kind.isWide

/-- The loop of `chop_frame`, over the number of locals. -/
def chopBuffer (b : ValidationBuffer count) : Nat → Int → Except BufferFault Int
  | 0, size => .ok size
  | n + 1, size => do
    let v ← b.read (size - 1)
    let size := if v.isImplicitTop then size - 2 else size - 1
    if size < 0 then throw (.error "chop_frame underflow")
    chopBuffer b n size

/-- The loops that read locals, in `append_frame` and `full_frame`. -/
def placeLocals (overflow : String) : Nat → ValidationBuffer count → Nat → List UInt8 →
    Except BufferFault (ValidationBuffer count × Nat × List UInt8)
  | 0, b, size, data => .ok (b, size, data)
  | n + 1, b, size, data => do
    let (b, isWide, data) ← readVerificationTypeAt b size data
    let (b, size) ← placeImplicitTop b size isWide
    if size > count then throw (.error overflow)
    placeLocals overflow n b size data

/-- The loop of `full_frame` that reads the stack. -/
def placeStack : Nat → ValidationBuffer count → Nat → List UInt8 →
    Except BufferFault (ValidationBuffer count × Nat × List UInt8)
  | 0, b, size, data => .ok (b, size, data)
  | n + 1, b, size, data => do
    let (b, _, data) ← readVerificationTypeAt b size data
    if size + 1 > count then throw (.error "full_frame stack overflow")
    placeStack n b (size + 1) data

end

/-- `stack_map_frame_iterator` with its buffers. -/
structure FrameBuffers (code : AttributeCode) where
  pc : Nat := 0
  stack : ValidationBuffer code.maxStack
  stackSize : Nat := 0
  locals : ValidationBuffer code.maxLocals
  localsSize : Nat := 0
  data : List UInt8 := []
  hasNext : Bool := false
  isFirst : Bool := true

namespace FrameBuffers

variable {code : AttributeCode}

/-- The body of `stack_map_frame_iterator_next` for one frame, with the offset delta. -/
def readFrame (it : FrameBuffers code) : Except BufferFault (Nat × FrameBuffers code) := do
  let (frameKind, data) ← liftRead (readU8 it.data)
  if frameKind ≤ 63 then
    return (frameKind, { it with stackSize := 0, data })
  else if (64 ≤ frameKind ∧ frameKind ≤ 127) ∨ frameKind = 247 then
    let (offsetDelta, data) ←
      liftRead (if frameKind = 247 then readU16 data else pure (frameKind - 64, data))
    let (stack, _, data) ← readVerificationTypeAt it.stack 0 data
    return (offsetDelta, { it with stack, stackSize := 1, data })
  else if frameKind ≤ 246 then
    throw (.error "Reserved frame kind")
  else if frameKind ≤ 250 then
    let localsSize ← chopBuffer it.locals (251 - frameKind) it.localsSize
    let (offsetDelta, data) ← liftRead (readU16 data)
    return (offsetDelta, { it with stackSize := 0, localsSize := localsSize.toNat, data })
  else if frameKind = 251 then
    let (offsetDelta, data) ← liftRead (readU16 data)
    return (offsetDelta, { it with stackSize := 0, data })
  else if frameKind ≤ 254 then
    let (offsetDelta, data) ← liftRead (readU16 data)
    let (locals, localsSize, data) ←
      placeLocals "append_frame locals overflow" (frameKind - 251) it.locals it.localsSize data
    return (offsetDelta, { it with stackSize := 0, locals, localsSize, data })
  else
    let (offsetDelta, data) ← liftRead (readU16 data)
    let (numLocals, data) ← liftRead (readU16 data)
    let (locals, localsSize, data) ←
      placeLocals "full_frame locals overflow" numLocals it.locals 0 data
    let (numStack, data) ← liftRead (readU16 data)
    let (stack, stackSize, data) ← placeStack numStack it.stack 0 data
    return (offsetDelta, { it with stack, stackSize, locals, localsSize, data })

/-- `stack_map_frame_iterator_next`. -/
def next (it : FrameBuffers code) : Except BufferFault (FrameBuffers code) := do
  let (offsetDelta, it) ← readFrame it
  if it.stackSize > code.maxStack ∨ it.localsSize > code.maxLocals then
    throw (.error "Stack map frame overflow")
  return { it with
    pc := if it.isFirst then it.pc + offsetDelta else it.pc + offsetDelta + 1
    hasNext := !it.data.isEmpty
    isFirst := false }

/-- The kinds that `init_locals` writes, of `this` and of the arguments. -/
def entryKinds (m : CpMethod) : List ValidationTypeKind :=
  (if m.isStatic then [] else [if m.isCtor then .uninitThis else .object]) ++
    m.descriptor.args.map fun arg => typeToValidationType arg.reprKind

/-- `stack_map_frame_iterator_init`. -/
def init (m : CpMethod) : Except BufferFault (FrameBuffers m.code) := do
  let (locals, localsSize) ← (entryKinds m).foldlM (fun (b, i) kind => placeLocal b i kind)
    (allocateValidationBuffer m.code.maxLocals, 0)
  let it : FrameBuffers m.code :=
    { stack := allocateValidationBuffer m.code.maxStack
      locals, localsSize
      data := (m.code.stackMapTable.map (·.data)).getD []
      hasNext := m.code.stackMapTable.isSome }
  if it.data.head? = some 0 then
    match it.next with
    | .ok it => .ok it
    | .error .outOfBounds => .error .outOfBounds
    | .error _ => .error .abort
  else .ok it

/-- The iterators that calls of `stack_map_frame_iterator_next` lead to. -/
inductive Reaches : FrameBuffers code → FrameBuffers code → Prop
  | refl (it : FrameBuffers code) : Reaches it it
  | next {it it' it'' : FrameBuffers code} (h : Reaches it it') (hnext : it'.next = .ok it'') :
      Reaches it it''

/-- The locals of the current frame. -/
def frameLocals (it : FrameBuffers code) : List ValidationType :=
  it.locals.toList.take it.localsSize

/-- The locals that there are, a double or long being one. -/
def localsCount (it : FrameBuffers code) : Nat :=
  it.frameLocals.countP fun v => !v.isImplicitTop

/-- A step stays in the buffers: it ends with a frame that fits them or with a message, and a
`chop_frame` that is accepted removes locals that there are. -/
structure KeepsBounds (it : FrameBuffers code) : Prop where
  refused : ∀ fault, it.next = .error fault → ∃ msg, fault = .error msg
  fits : ∀ it', it.next = .ok it' →
    it'.stackSize ≤ code.maxStack ∧ it'.localsSize ≤ code.maxLocals
  chopped : ∀ it' k, it.next = .ok it' → it.data.head? = some k → 248 ≤ k → k ≤ 250 →
    251 - k.toNat ≤ it.localsCount

/-- The locals that a frame lists run over the end: those before one of category 2 fill up what the
method has. -/
def LocalsOverrun (maxLocals size n : Nat) (data : List UInt8) : Prop :=
  ∃ (types : List VerificationType) (wide : UInt8) (rest : List UInt8),
    types.length < n ∧ size + (types.map VerificationType.words).sum = maxLocals ∧
      (wide = 3 ∨ wide = 4) ∧ data = types.flatMap VerificationType.encode ++ wide :: rest

/-- The next frame makes the iterator leave its buffers. -/
inductive Overruns (it : FrameBuffers code) : Prop
  | chop (k : UInt8) (rest : List UInt8) (hdata : it.data = k :: rest) (hk : 248 ≤ k)
      (hk' : k ≤ 250) (h : it.localsCount < 251 - k.toNat)
  | append (k d1 d2 : UInt8) (rest : List UInt8) (hdata : it.data = k :: d1 :: d2 :: rest)
      (hk : 252 ≤ k) (hk' : k ≤ 254)
      (h : LocalsOverrun code.maxLocals it.localsSize (k.toNat - 251) rest)
  | full (d1 d2 n1 n2 : UInt8) (rest : List UInt8)
      (hdata : it.data = 255 :: d1 :: d2 :: n1 :: n2 :: rest)
      (h : LocalsOverrun code.maxLocals 0 (n1.toNat * 256 + n2.toNat) rest)

end FrameBuffers

/-- Whatever the table of the method is, the iterator stays in its buffers. -/
structure CpMethod.IteratesInBounds (m : CpMethod) : Prop where
  started : ∃ it, FrameBuffers.init m = .ok it
  stays : ∀ it it', FrameBuffers.init m = .ok it → it.Reaches it' → it'.KeepsBounds

end BJvm
