import BJvm.ClassFile.Attributes
import BJvm.Threads.Monitors

/-!
# Exceptions and the frames they leave

What `interpret_2` does with a pending exception: `find_exception_handler`, `on_frame_end` and
`pop_frame`, frame after frame.  A frame that `interpret_2` was entered with is left for the native
method, or the VM, that called it; a native method returns when the Java code it called leaves an
exception pending.  Loading a class can run Java code of a class loader, and linking it and raising
an exception of the VM are left open as well.
-/

namespace BJvm.Unwinding

open ClassFile Threads Function

abbrev Class := Nat

/-- A `cp_class_info`: the class and the index into its constant pool. -/
abbrev ClassInfoRef := Class × Nat

/-- What resolving has left in a `cp_class_info`. -/
structure CpClassInfo where
  classdesc : Option Class := none
  /-- the exception it has failed with -/
  vmObject : Option Object := none
deriving DecidableEq

/-- What the frames of a thread share. -/
structure State where
  world : World := {}
  currentException : Option Object := none
  info : ClassInfoRef → CpClassInfo := fun _ => {}

/-- `stack_frame`, with what it has of its method.  Null is 0. -/
structure Frame where
  isNative : Bool := false
  isSynchronized : Bool := false
  isStatic : Bool := false
  myClass : Class := 0
  /-- the `Class` object of the class -/
  mirror : Object := 1
  /-- the object an instance method was invoked on -/
  receiver : Object := 1
  /-- `frame_locals`; a native frame has handles of its arguments there -/
  locals : Nat → Nat := fun _ => 0
  stack : Nat → Nat := fun _ => 0
  programCounter : Nat := 0
  exceptionTable : List ParsedException := []
  insnIndexToSd : Nat → Nat := fun _ => 0
  mirror_ne : mirror ≠ 0 := by decide
  receiver_ne : receiver ≠ 0 := by decide
  /-- A handle is not the object it is for. -/
  handle_ne : isNative = true → isStatic = false → locals 0 ≠ receiver := by decide

/-- The parts of the VM that unwinding calls upon. -/
structure Env where
  /-- `obj->descriptor` -/
  descriptor : Object → Class
  instanceof : Class → Class → Bool
  /-- `lookup_class` with the loader of the class whose constant pool it is -/
  lookupClass : ClassInfoRef → State → Option Class × State
  /-- `link_class`; true for no error -/
  linkClass : Class → State → Bool × State
  raiseIllegalMonitorState : State → State
  /-- the class that the name stands for there, if there is one -/
  named : ClassInfoRef → Option Class

/-! ### Monitors of methods -/

namespace Frame

variable (f : Frame)

/-- `get_sync_object`; 0 for none. -/
def getSyncObject : Object :=
  if f.isSynchronized then if f.isStatic then f.mirror else f.locals 0 else 0

/-- The monitor that the method is to hold. -/
def monitor : Option Object :=
  if f.isSynchronized then some (if f.isStatic then f.mirror else f.receiver) else none

/-- `on_frame_start` of a frame that has not been synchronized; a record would lie at `a`. -/
def onFrameStart (t : ThreadId) (allocFails : Bool) (a : Addr) (w : World) : World :=
  if f.getSyncObject = 0 then w else w.monitorAcquire t f.getSyncObject allocFails a

/-- The operand stack at the current instruction. -/
def operandStack : List Nat := (List.range (f.insnIndexToSd f.programCounter)).map f.stack

end Frame

/-- What `on_frame_end` comes to. -/
inductive Release
  | nothing
  | released (o : Object)
  | failed
deriving DecidableEq

variable (env : Env) (t : ThreadId)

/-- `on_frame_end`. -/
def onFrameEnd (f : Frame) (st : State) : Release × State :=
  if f.getSyncObject = 0 then (.nothing, st)
  else
    match st.world.monitorRelease t f.getSyncObject with
    | some world => (.released f.getSyncObject, { st with world })
    | none => (.failed, env.raiseIllegalMonitorState { st with currentException := none })

/-! ### Handlers -/

/-- `resolve_class_impl`; true for no error. -/
def resolveClass (ref : ClassInfoRef) (st : State) : Bool × State :=
  match st.info ref with
  | { classdesc := some _, .. } => (true, st)
  | { vmObject := some obj, .. } => (false, { st with currentException := some obj })
  | _ =>
    match env.lookupClass ref st with
    | (some c, st) =>
      (true, { st with info := update st.info ref { st.info ref with classdesc := some c } })
    | (none, st) =>
      (false, { st with info := update st.info ref ⟨none, st.currentException⟩ })

/-- The catch type is resolved and linked; none if that fails. -/
def loadCatchType (ref : ClassInfoRef) (st : State) : Option Class × State :=
  match resolveClass env ref st with
  | (false, st) => (none, st)
  | (true, st) =>
    match (st.info ref).classdesc with
    | none => (none, st)
    | some c =>
      match env.linkClass c st with
      | (false, st) => (none, st)
      | (true, st) => ((st.info ref).classdesc, st)

/-- `find_exception_handler`, from the entry with index `i` on. -/
def findExceptionHandler (f : Frame) (exceptionType : Class) :
    List ParsedException → Nat → State → Option (ParsedException × Nat) × State
  | [], _, st => (none, st)
  | ent :: table, i, st =>
    if ent.startInsn ≤ f.programCounter ∧ f.programCounter < ent.endInsn then
      match ent.catchType with
      | none => (some (ent, i), st)
      | some cp =>
        match loadCatchType env (f.myClass, cp) st with
        | (none, st) => findExceptionHandler f exceptionType table (i + 1) st
        | (some c, st) =>
          if env.instanceof exceptionType c then (some (ent, i), st)
          else findExceptionHandler f exceptionType table (i + 1) st
    else findExceptionHandler f exceptionType table (i + 1) st

/-- The search for a handler in the frame; there is none in a native one. -/
def searchFrame (f : Frame) (st : State) : Option (ParsedException × Nat) × State :=
  match f.isNative, st.currentException with
  | false, some e => findExceptionHandler env f (env.descriptor e) f.exceptionTable 0 st
  | _, _ => (none, st)

/-! ### Frame after frame -/

/-- A frame has been left: what became of its monitor, and the exception it is left with. -/
structure Left where
  monitor : Release
  exception : Option Object
deriving DecidableEq

/-- Where control continues. -/
inductive Control
  /-- at the entry with its index, in the frame, above others -/
  | handler (ent : ParsedException × Nat) (f : Frame) (below : List Frame)
  /-- behind the call, as no exception is pending any more -/
  | returns (below : List Frame)
  /-- in the caller of all the frames, with the exception -/
  | leaves

structure Outcome where
  left : List Left
  control : Control
  state : State

/-- An exception is pending in the topmost frame. -/
def unwind : List Frame → State → Outcome
  | [], st => ⟨[], .leaves, st⟩
  | f :: below, st =>
    match searchFrame env f st with
    | (some ent, st) =>
      ⟨[], .handler ent { f with
        programCounter := ent.1.handlerInsn
        stack := update f.stack 0 (st.currentException.getD 0) } below,
        { st with currentException := none }⟩
    | (none, st) =>
      let (release, st) := onFrameEnd env t f st
      let left : Left := ⟨release, st.currentException⟩
      if st.currentException = none then ⟨[left], .returns below, st⟩
      else { unwind below st with left := left :: (unwind below st).left }

/-! ### What unwinding is for -/

/-- The entry catches an exception thrown at the current instruction. -/
def Frame.catches (f : Frame) (e : Object) (ent : ParsedException) : Bool :=
  ent.startInsn ≤ f.programCounter && f.programCounter < ent.endInsn &&
    ent.catchType.all fun cp =>
      (env.named (f.myClass, cp)).any fun c => env.instanceof (env.descriptor e) c

/-- The first entry that catches the exception, in table order. -/
def Frame.handler? (f : Frame) (e : Object) : Option (ParsedException × Nat) :=
  if f.isNative then none else f.exceptionTable.zipIdx.find? fun p => f.catches env e p.1

/-- Control continues at the first entry that catches the exception, of the innermost frame that has
one, with nothing but the exception on the stack; and each frame above it is left with the exception
and releases its monitor once, so that the others keep theirs. -/
structure UnwindsRight (frames : List Frame) (st : State) (e : Object) (out : Outcome) : Prop where
  left : out.left = (frames.takeWhile fun f => (f.handler? env e).isNone).map fun f =>
    ⟨f.monitor.elim .nothing .released, some e⟩
  control : match frames.dropWhile fun f => (f.handler? env e).isNone with
    | [] => out.control = .leaves ∧ out.state.currentException = some e
    | f :: below => ∃ ent f', f.handler? env e = some ent ∧
      out.control = .handler ent f' below ∧ out.state.currentException = none ∧
      f' = { f with programCounter := ent.1.handlerInsn, stack := update f.stack 0 e } ∧
      f'.operandStack = [e]
  holds : ∀ o, st.world.currentThreadHoldCount t o =
    out.state.world.currentThreadHoldCount t o +
      (frames.takeWhile fun f => (f.handler? env e).isNone).countP (·.monitor = some o)

/-! ### When it does -/

/-- The catch types that an exception at the current instruction is compared with are asked for, up
to the first entry that catches it; none if its catch type fails to load. -/
def Frame.consult (f : Frame) (e : Object) : List ParsedException → State → Option State
  | [], st => some st
  | ent :: table, st =>
    if ent.startInsn ≤ f.programCounter ∧ f.programCounter < ent.endInsn then
      match ent.catchType with
      | none => some st
      | some cp =>
        if f.catches env e ent then
          if (loadCatchType env (f.myClass, cp) st).1.isSome then
            some (loadCatchType env (f.myClass, cp) st).2
          else none
        else f.consult e table (loadCatchType env (f.myClass, cp) st).2
    else f.consult e table st

def State.release (o : Object) (st : State) : State :=
  { st with world := (st.world.monitorRelease t o).getD st.world }

/-- The catch types asked for leave the exception pending, the one that catches it loads, and its
handler's stack has one slot; and each synchronized frame that is left holds its monitor and finds
it. -/
def UnwindsWell (e : Object) : List Frame → State → Prop
  | [], _ => True
  | f :: below, st =>
    ∃ st', (if f.isNative then some st else f.consult env e f.exceptionTable st) = some st' ∧
      st'.currentException = some e ∧
      match f.handler? env e with
      | some ent => f.insnIndexToSd ent.1.handlerInsn = 1
      | none =>
        match f.monitor with
        | none => UnwindsWell e below st'
        | some o => f.getSyncObject = o ∧ 0 < st'.world.currentThreadHoldCount t o ∧
          UnwindsWell e below (st'.release t o)

/-! ### The rest of the VM -/

/-- The classes in the constant pools are those the names stand for. -/
def State.Named (st : State) : Prop :=
  ∀ ref c, (st.info ref).classdesc = some c → env.named ref = some c

/-- A class that is found is the one the name stands for, and Java code that is run to load or link
a class leaves the monitors it has entered. -/
structure Env.Lawful : Prop where
  lookup : ∀ ref st c, (env.lookupClass ref st).1 = some c → env.named ref = some c
  lookup_named : ∀ ref st, st.Named env → (env.lookupClass ref st).2.Named env
  lookup_holds : ∀ ref st o, (env.lookupClass ref st).2.world.currentThreadHoldCount t o =
    st.world.currentThreadHoldCount t o
  link_named : ∀ c st, st.Named env → (env.linkClass c st).2.Named env
  link_holds : ∀ c st o, (env.linkClass c st).2.world.currentThreadHoldCount t o =
    st.world.currentThreadHoldCount t o

end BJvm.Unwinding
