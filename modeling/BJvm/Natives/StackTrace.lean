import BJvm.ClassFile.LineNumbers
import BJvm.Strings.Interning

/-!
# Stack traces

`Throwable.fillInStackTrace` of `Throwable.c`, and what it is to record.  An object is known by a
number that it keeps when it is moved, a string by its content.  What memory there is is an input.
-/

namespace BJvm.StackTrace

open ClassFile Strings
open Function (update)

/-- A name in a class file. -/
structure Name where
  bytes : List UInt8
  decodes : (modifiedUtf8String bytes).isSome

namespace Name

variable (name : Name)

/-- The string that is made of the name. -/
def string : NativeString := (modifiedUtf8String name.bytes).get name.decodes

def units : List UInt16 := name.string.units

/-- `utf8_equals` -/
def utf8Equals (s : String) : Bool := name.bytes = s.toList.map fun c => UInt8.ofNat c.toNat

end Name

/-- `classdesc`, with its mirror. -/
structure ClassDesc where
  name : Name
  mirror : Nat
  sourceFile : Option Name

/-- `cp_method`, with its code. -/
structure Method where
  name : Name
  myClass : ClassDesc
  code : List BytecodeInsn := []
  lineNumberTable : Option (List (Nat × Nat)) := none

def Method.isCtor (method : Method) : Bool := method.name.utf8Equals "<init>"

/-- `stack_frame`. -/
structure Frame where
  isNative : Bool
  method : Method
  programCounter : Nat := 0
  /-- `frame_locals`, each taken for the pointer of an object -/
  locals : List Nat := []
  /-- The object that the method was called on.  The code has it in the first local, until something
  else is stored there. -/
  receiver : Option Nat := none

variable (obj : Nat)

/-- `is_frame_part_of_throwable_construction`. -/
def isFramePartOfThrowableConstruction (frame : Frame) : Bool :=
  if frame.method.name.utf8Equals "fillInStackTrace" then true
  else if !frame.method.isCtor || frame.isNative || frame.locals.length < 1 then false
  else frame.locals.head? = some obj

/-! ### The trace -/

/-- `native_StackTraceElement`; a line number of -1 is none. -/
structure Element where
  declaringClassObject : Nat
  declaringClass : NativeString
  methodName : NativeString
  fileName : Option NativeString
  lineNumber : Option Nat

/-- `native_Throwable`. -/
structure Throwable where
  backtrace : Option (List (Option Element)) := none
  depth : Nat := 0

/-- What the code asks for memory: the array, and what it makes for the `j`-th element. -/
inductive Request
  | stackTrace
  | element (j : Nat)
  | mirror (j : Nat)
  | declaringClass (j : Nat)
  | methodName (j : Nat)
  | fileName (j : Nat)
  deriving DecidableEq, Repr

/-- The table of interned strings, by their bytes. -/
abbrev InternedStrings := List UInt8 → Option NativeString

/-- The table of a heap. -/
def contents (heap : StringHeap) : InternedStrings := fun bytes =>
  heap.string (heap.internedStrings.lookup (Adt.keyOf bytes bytes.length))

/-- There is memory for the request. -/
abbrev Memory := Request → Bool

variable (given : Memory)

/-- `MakeJStringFromModifiedUTF8`, with the string interned. -/
def makeJString (r : Request) (name : Name) (interned : InternedStrings) :
    Option (NativeString × InternedStrings) :=
  if given r then
    match interned name.string.value with
    | some s => some (s, interned)
    | none => some (name.string, update interned name.string.value (some name.string))
  else none

/-- What is written into the `j`-th element; none if the code goes to `oom`. -/
def fillElement (j : Nat) (frame : Frame) (interned : InternedStrings) :
    Option (Element × InternedStrings) := do
  let method := frame.method
  let line := if frame.isNative then none
    else getLineNumber method.lineNumberTable method.code frame.programCounter
  guard (given (.mirror j))
  let (declaringClass, interned) ←
    makeJString given (.declaringClass j) method.myClass.name interned
  let (methodName, interned) ← makeJString given (.methodName j) method.name interned
  -- without a source file, `o` is what it was
  let (o, interned) ← (match method.myClass.sourceFile with
    | some sf => makeJString given (.fileName j) sf interned
    | none => some (methodName, interned))
  some ({
    declaringClassObject := method.myClass.mirror
    declaringClass
    methodName
    fileName := some o
    lineNumber := line }, interned)

/-- Where the loop over the frames goes. -/
inductive Ending
  | complete | cleanup | oom
  deriving DecidableEq, Repr

/-- The loop over the frames from the `j`-th on, with the rest of the array. -/
def fillElements : Nat → List Frame → InternedStrings → List (Option Element) × Ending
  | _, [], _ => ([], .complete)
  | j, frame :: frames, interned =>
    if given (.element j) then
      match fillElement given j frame interned with
      | some (e, interned) =>
        let (elements, ending) := fillElements (j + 1) frames interned
        (some e :: elements, ending)
      | none => (List.replicate (frames.length + 1) none, .oom)
    else (List.replicate (frames.length + 1) none, .cleanup)

/-- The frames from the first on that the code does not take for part of the construction. -/
def traced (stack : List Frame) : List Frame :=
  stack.dropWhile (isFramePartOfThrowableConstruction obj)

/-- `Throwable.fillInStackTrace` on a stack, its top first: the throwable, and what is returned. -/
def fillInStackTrace (interned : InternedStrings) (stack : List Frame) (throwable : Throwable) :
    Throwable × Option Nat :=
  let frames := traced obj stack
  if given .stackTrace then
    let throwable := { throwable with depth := frames.length }
    match fillElements given 0 frames interned with
    | (_, .oom) => (throwable, some obj)
    | (elements, _) => ({ throwable with backtrace := some elements }, some obj)
  else (throwable, none)

/-! ### What it is to record -/

/-- The frame constructs the object: it is of a constructor, or of `fillInStackTrace`, called on
it. -/
def Constructs (frame : Frame) : Prop :=
  frame.receiver = some obj ∧
    (frame.method.isCtor ∨ frame.method.name.utf8Equals "fillInStackTrace")

instance : DecidablePred (Constructs obj) := fun _ => inferInstanceAs (Decidable (_ ∧ _))

/-- The frames outside the construction of the object. -/
def outside (stack : List Frame) : List Frame := stack.dropWhile (Constructs obj)

/-- The line of the frame by the `LineNumberTable`. -/
def LineOf (frame : Frame) (line : Option Nat) : Prop :=
  if frame.isNative then line = none
  else match frame.method.lineNumberTable with
    | some entries => SpecifiedLine entries frame.method.code frame.programCounter line
    | none => line = none

/-- The element is that of the frame. -/
structure Describes (frame : Frame) (e : Element) : Prop where
  declaringClassObject : e.declaringClassObject = frame.method.myClass.mirror
  declaringClass : e.declaringClass.units = frame.method.myClass.name.units
  methodName : e.methodName.units = frame.method.name.units
  fileName : e.fileName.map NativeString.units = frame.method.myClass.sourceFile.map Name.units
  lineNumber : LineOf frame e.lineNumber

/-- The throwable has these elements. -/
def Throwable.Holds (throwable : Throwable) (elements : List Element) : Prop :=
  throwable.backtrace = some (elements.map some) ∧ throwable.depth = elements.length

/-- The depth is the number of the elements. -/
def Throwable.Consistent (throwable : Throwable) : Prop :=
  throwable.backtrace = none ∧ throwable.depth = 0 ∨ ∃ elements, throwable.Holds elements

/-- What is asked for the `j`-th element, in turn. -/
def elementRequests (j : Nat) (frame : Frame) : List Request :=
  [.element j, .mirror j, .declaringClass j, .methodName j] ++
    if frame.method.myClass.sourceFile.isSome then [.fileName j] else []

def frameRequests : Nat → List Frame → List Request
  | _, [] => []
  | j, frame :: frames => elementRequests j frame ++ frameRequests (j + 1) frames

/-- What the call asks memory for, in turn, as long as there is some. -/
def requests (stack : List Frame) : List Request :=
  .stackTrace :: frameRequests 0 (traced obj stack)

/-- The throwable after the call has the frames outside its construction, or is consistent where
memory ran out. -/
def Right (interned : InternedStrings) (stack : List Frame) (throwable : Throwable) : Prop :=
  let after := (fillInStackTrace obj given interned stack throwable).1
  if ∀ r ∈ requests obj stack, given r then
    ∃ elements, after.Holds elements ∧ List.Forall₂ Describes (outside obj stack) elements
  else after.Consistent

/-! ### Where it does -/

/-- The code skips the frames that construct the object, and not the one behind them. -/
def SkipsConstruction (stack : List Frame) : Prop :=
  (∀ frame ∈ stack.takeWhile (Constructs obj), isFramePartOfThrowableConstruction obj frame) ∧
    ∀ frame ∈ (outside obj stack).head?, ¬ isFramePartOfThrowableConstruction obj frame

/-- The names that a frame has interned, the file name behind them. -/
def Frame.names (frame : Frame) : List Name :=
  [frame.method.myClass.name, frame.method.name] ++ frame.method.myClass.sourceFile.toList

/-- No other string that is interned, or is about to be, has the bytes of one of the names. -/
def Unclashing (interned : InternedStrings) (names : List Name) : Prop :=
  ∀ name ∈ names, (∀ s ∈ interned name.string.value, s.units = name.units) ∧
    ∀ name' ∈ names, name'.string.value = name.string.value → name'.units = name.units

/-- A bisection of the `LineNumberTable` finds the line, if there is one. -/
def Frame.LineFound (frame : Frame) : Prop :=
  ¬ frame.isNative → ∀ entries ∈ frame.method.lineNumberTable,
    ∀ insn ∈ frame.method.code[frame.programCounter]?, FindsLine entries insn.originalPc

/-- Nothing keeps the code from the right trace but memory. -/
structure Recordable (interned : InternedStrings) (stack : List Frame) : Prop where
  skips : SkipsConstruction obj stack
  sourceFile : ∀ frame ∈ outside obj stack, frame.method.myClass.sourceFile.isSome
  names : Unclashing interned ((outside obj stack).flatMap Frame.names)
  lines : ∀ frame ∈ outside obj stack, frame.LineFound

/-- Memory lasts and the trace can be recorded, or it runs out at the array, or it runs out for what
goes into an element while the throwable has as many elements already. -/
def Sound (interned : InternedStrings) (stack : List Frame) (throwable : Throwable) : Prop :=
  match (requests obj stack).find? (!given ·) with
  | none => Recordable obj interned stack
  | some .stackTrace => True
  | some (.element _) => False
  | some _ => throwable.depth = (traced obj stack).length

end BJvm.StackTrace
