import BJvm.Natives.Handles

/-!
# Making reflective objects

The routines of `reflection.c`, `Class.c` and `Throwable.c`, and `resolve_method_type`, that hold
handles while they make an object.  Of the fields of the objects only those are followed on which an
exit depends.
-/

namespace BJvm.Handles

/-- `AWAIT(load_class_of_field_descriptor, ..)`, and the mirror of the class: `noClass` when it
could not be loaded.  `suspends` says whether the routine is left and entered again; the variables
of the C function are lost then. -/
structure Load where
  suspends : Bool := false
  mirror : Mirror
  deriving Repr

/-! ### `resolve_method_type` -/

structure MethodType where
  ptypes : Object
  /-- The loads of the loop; as many as there are arguments, unless `i` gets lost. -/
  args : List Load
  ret : Load
  /-- `makeImpl`; `none` when it throws. -/
  makeImpl : Option Object

/-- The loop: whether all the classes could be loaded. -/
def MethodType.resolveArgs (ptypes : Handle) : List Load → Native Bool
  | [] => pure true
  | arg :: args =>
    if arg.mirror = .noClass then pure false
    else do
      let _ ← getClassMirror arg.mirror
      deref ptypes
      resolveArgs ptypes args

/-- `resolve_method_type`. -/
def resolveMethodType (m : MethodType) : Native Object := do
  let ptypes ← makeHandle m.ptypes
  let resolved ← MethodType.resolveArgs ptypes m.args
  if !resolved then pure 0
  else if m.ret.mirror = .noClass then pure 0
  else
    let _ ← getClassMirror m.ret.mirror
    match m.makeImpl with
    | none => throw .check
    | some result => do
      dropHandle ptypes
      pure result

/-! ### `reflection.c` -/

/-- `f->attributes[i].kind`, with what is made of it. -/
inductive FieldAttribute
  | runtimeVisibleAnnotations (annotations : Object)
  | signature (signature : JString)
  | other

structure Field where
  field : Object
  name : JString
  clazz : Mirror
  type : Load
  attributes : List FieldAttribute

def Field.fillAttributes : List FieldAttribute → Native Unit
  | [] => pure ()
  | .runtimeVisibleAnnotations annotations :: attributes =>
    if annotations = 0 then throw .nullPointer else fillAttributes attributes
  | .signature signature :: attributes => do
    let _ ← makeJString signature
    fillAttributes attributes
  | .other :: attributes => fillAttributes attributes

/-- What lies between the handle and the label `oom`. -/
def Field.fill (f : Field) : Native Unit := do
  let name ← makeJString f.name
  if name = 0 then pure ()
  else
    let clazz ← getClassMirror f.clazz
    if clazz = 0 then pure ()
    else
      let _ ← getClassMirror f.type.mirror
      fillAttributes f.attributes

/-- `reflect_initialize_field`. -/
def reflectInitializeField (f : Field) : Native Unit := do
  let fieldMirror ← makeHandle f.field
  let o ← obj fieldMirror
  if o = 0 then pure ()
  else
    f.fill
    dropHandle fieldMirror

/-- The local variable `result` after a suspension, and `C->parameterTypes` there. -/
structure Stale where
  result : Handle
  parameterTypes : Object

structure Constructor where
  ctor : Object
  clazz : Mirror
  parameterTypes : Object
  args : List Load

/-- The loop; at the end, `result`.  `stale n` is what the variables hold when the `n`-th load has
been suspended. -/
def Constructor.resolveArgs (stale : Nat → Stale) :
    Nat → Handle → Object → List Load → Native Handle
  | _, result, _, [] => pure result
  | n, result, parameterTypes, arg :: args => do
    let _ ← getClassMirror arg.mirror
    let s := if arg.suspends then stale n else ⟨result, parameterTypes⟩
    deref s.result
    if s.parameterTypes = 0 then throw .nullPointer
    else resolveArgs stale (n + 1) s.result s.parameterTypes args

/-- `reflect_initialize_constructor`. -/
def reflectInitializeConstructor (stale : Nat → Stale) (c : Constructor) : Native Unit := do
  let result ← makeHandle c.ctor
  deref result
  let _ ← getClassMirror c.clazz
  let result ← Constructor.resolveArgs stale 0 result c.parameterTypes c.args
  dropHandle result

/-- `attr->kind`, with what is made of it. -/
inductive MethodAttribute
  /-- The three kinds of annotations, with what `CreateByteArray` returns. -/
  | annotations (array : Object)
  | signature (signature : JString)
  | other

structure Method where
  method : Object
  name : JString
  clazz : Mirror
  attributes : List MethodAttribute
  parameterTypes : Object
  args : List Load
  returnType : Load

/-- Whether there was memory for all of them. -/
def Method.fillAttributes : List MethodAttribute → Native Bool
  | [] => pure true
  | .annotations array :: attributes =>
    if array = 0 then pure false else fillAttributes attributes
  | .signature signature :: attributes => do
    let o ← makeJString signature
    if o = 0 then pure false else fillAttributes attributes
  | .other :: attributes => fillAttributes attributes

def Method.resolveArgs : List Load → Native Bool
  | [] => pure true
  | arg :: args => do
    let mirror ← getClassMirror arg.mirror
    if mirror = 0 then pure false else resolveArgs args

/-- What lies between the handle and the label `oom`. -/
def Method.fill (m : Method) : Native Unit := do
  let name ← makeJString m.name
  if name = 0 then pure ()
  else
    let clazz ← getClassMirror m.clazz
    if clazz = 0 then pure ()
    else
      let made ← fillAttributes m.attributes
      if !made || m.parameterTypes = 0 then pure ()
      else
        let resolved ← resolveArgs m.args
        if !resolved then pure ()
        else
          let _ ← getClassMirror m.returnType.mirror
          pure ()

/-- `reflect_initialize_method`. -/
def reflectInitializeMethod (m : Method) : Native Unit := do
  let result ← makeHandle m.method
  deref result
  m.fill
  dropHandle result

structure Parameter where
  parameter : Object
  name : JString

/-- The loop, with the variable `parameter`: what it holds at the end, and whether there was memory
for all. -/
def Parameter.fillAll (params : Handle) : Handle → List Parameter → Native (Handle × Bool)
  | parameter, [] => pure (parameter, true)
  | parameter, p :: ps => do
    dropHandle parameter
    let parameter ← makeHandle p.parameter
    let o ← obj parameter
    if o = 0 then pure (parameter, false)
    else
      let name ← makeJString p.name
      if name = 0 then pure (parameter, false)
      else
        deref params
        fillAll params parameter ps

/-- `get_method_parameters`, with what `CreateObjectArray1D` returns. -/
def getMethodParameters (array : Object) (ps : List Parameter) : Native Object := do
  let params ← makeHandle array
  let o ← obj params
  if o = 0 then pure 0
  else
    let last ← Parameter.fillAll params .nullptr ps
    dropHandle params
    dropHandle last.1
    pure (if last.2 then o else 0)

/-! ### `Throwable.c` -/

/-- A frame of the trace. -/
structure StackTraceElement where
  element : Object
  mirror : Mirror
  declaringClass : JString
  methodName : JString
  /-- `none` when the class has no `SourceFile`. -/
  fileName : Option JString

/-- The fields of the element: whether there was memory for all. -/
def StackTraceElement.fill (e : StackTraceElement) : Native Bool := do
  let mirror ← getClassMirror e.mirror
  if mirror = 0 then pure false
  else
    let declaringClass ← makeJString e.declaringClass
    if declaringClass = 0 then pure false
    else
      let methodName ← makeJString e.methodName
      if methodName = 0 then pure false
      else match e.fileName with
        | none => pure true
        | some name => do
          let fileName ← makeJString name
          pure (fileName ≠ 0)

/-- The loop over the frames, up to one of the labels `cleanup` and `oom`. -/
def StackTraceElement.fillAll (stackTrace : Handle) : List StackTraceElement → Native Unit
  | [] => pure ()
  | frame :: frames => do
    let e ← makeHandle frame.element
    let o ← obj e
    if o = 0 then pure ()
    else
      let filled ← frame.fill
      if !filled then pure ()
      else
        deref stackTrace
        dropHandle e
        fillAll stackTrace frames

/-- `Throwable.fillInStackTrace`, with what `CreateObjectArray1D` returns. -/
def fillInStackTrace (array : Object) (frames : List StackTraceElement) : Native Unit := do
  let stackTrace ← makeHandle array
  let o ← obj stackTrace
  if o = 0 then pure ()
  else
    StackTraceElement.fillAll stackTrace frames
    dropHandle stackTrace

/-! ### `Class.c` -/

/-- An entry of an attribute: whether `resolve_class` fails, and the calls of `get_class_mirror`. -/
structure ClassInfo where
  error : Bool
  mirror : Mirror
  mirrorAgain : Mirror

structure PermittedSubclasses where
  entries : List ClassInfo
  array : Object

/-- The first loop: whether all the classes could be resolved. -/
def PermittedSubclasses.resolve : List ClassInfo → Native Bool
  | [] => pure true
  | info :: infos =>
    if info.error then pure false
    else do
      let _ ← getClassMirror info.mirror
      resolve infos

/-- The second loop. -/
def PermittedSubclasses.store (array : Handle) : List ClassInfo → Native Unit
  | [] => pure ()
  | info :: infos => do
    let _ ← getClassMirror info.mirrorAgain
    deref array
    store array infos

/-- `Class.getPermittedSubclasses0`. -/
def getPermittedSubclasses0 : Option PermittedSubclasses → Native Object
  | none => pure 0
  | some permitted => do
    let resolved ← PermittedSubclasses.resolve permitted.entries
    if !resolved then pure 0
    else
      let array ← makeHandle permitted.array
      let o ← obj array
      if o = 0 then pure 0
      else
        PermittedSubclasses.store array permitted.entries
        obj array

structure EnclosingMethod where
  array : Object
  /-- `resolve_class` fails. -/
  error : Bool
  /-- The strings for the name and the descriptor. -/
  nat : Option (JString × JString)

/-- What lies between making and dropping the handle. -/
def EnclosingMethod.fill (e : EnclosingMethod) (array : Handle) : Native Object := do
  if e.error then throw .check
  else
    deref array
    match e.nat with
    | none => obj array
    | some (name, descriptor) => do
      let _ ← makeJString name
      let _ ← makeJString descriptor
      obj array

/-- `Class.getEnclosingMethod0`. -/
def getEnclosingMethod0 : Option EnclosingMethod → Native Object
  | none => pure 0
  | some e => do
    let array ← makeHandle e.array
    let result ← e.fill array
    dropHandle array
    pure result

/-- The loop of `getDeclaredClasses0`; `none` is a class that has not been resolved. -/
def storeInnerClasses (ret : Handle) : List (Option Mirror) → Native Unit
  | [] => pure ()
  | none :: infos => storeInnerClasses ret infos
  | some mirror :: infos => do
    let _ ← getClassMirror mirror
    deref ret
    storeInnerClasses ret infos

/-- `Class.getDeclaredClasses0`, with what `CreateObjectArray1D` returns. -/
def getDeclaredClasses0 (array : Object) (infos : List (Option Mirror)) : Native Object := do
  let ret ← makeHandle array
  storeInnerClasses ret infos
  let result ← obj ret
  dropHandle ret
  pure result

/-! ### The routines together -/

/-- A call of one of the routines. -/
inductive Call
  | resolveMethodType (m : MethodType)
  | reflectInitializeField (f : Field)
  | reflectInitializeConstructor (c : Constructor)
  | reflectInitializeMethod (m : Method)
  | getMethodParameters (array : Object) (ps : List Parameter)
  | fillInStackTrace (array : Object) (frames : List StackTraceElement)
  | getPermittedSubclasses0 (permitted : Option PermittedSubclasses)
  | getEnclosingMethod0 (e : Option EnclosingMethod)
  | getDeclaredClasses0 (array : Object) (infos : List (Option Mirror))

/-- The handles after a call, if it returns. -/
def Call.run (stale : Nat → Stale) (handles : List Object) : Call → Except Stop (List Object)
  | .resolveMethodType m => (Handles.resolveMethodType m handles).map Prod.snd
  | .reflectInitializeField f => (Handles.reflectInitializeField f handles).map Prod.snd
  | .reflectInitializeConstructor c =>
    (Handles.reflectInitializeConstructor stale c handles).map Prod.snd
  | .reflectInitializeMethod m => (Handles.reflectInitializeMethod m handles).map Prod.snd
  | .getMethodParameters array ps => (Handles.getMethodParameters array ps handles).map Prod.snd
  | .fillInStackTrace array frames => (Handles.fillInStackTrace array frames handles).map Prod.snd
  | .getPermittedSubclasses0 permitted =>
    (Handles.getPermittedSubclasses0 permitted handles).map Prod.snd
  | .getEnclosingMethod0 e => (Handles.getEnclosingMethod0 e handles).map Prod.snd
  | .getDeclaredClasses0 array infos => (Handles.getDeclaredClasses0 array infos handles).map Prod.snd

/-- Calls one after the other, each with what its lost variables hold. -/
def runCalls : List ((Nat → Stale) × Call) → List Object → Except Stop (List Object)
  | [], handles => .ok handles
  | (stale, call) :: calls, handles =>
    match call.run stale handles with
    | .ok handles => runCalls calls handles
    | .error stop => .error stop

/-! ### When the handles are kept -/

/-- Whenever the call returns, whatever the lost variables hold, the handles are those before it. -/
def Call.KeepsHandles (call : Call) : Prop :=
  ∀ stale handles handles', call.run stale handles = .ok handles' → handles' = handles

/-- There is memory for all the fields of the element. -/
def StackTraceElement.filled (e : StackTraceElement) : Bool :=
  e.mirror.value ≠ 0 && e.declaringClass.made && e.methodName.made && e.fileName.all JString.made

/-- There is memory for the element and all its fields. -/
def StackTraceElement.complete (e : StackTraceElement) : Bool := e.element ≠ 0 && e.filled

/-- The loads of which one must not be suspended: without an array the loop does not come to the
second one. -/
def Constructor.awaited (c : Constructor) : List Load :=
  if c.parameterTypes = 0 then c.args.take 1 else c.args

/-- The exits on which a handle is not dropped are not taken: a class of the method type that cannot
be loaded, a suspension in `reflect_initialize_constructor`, an element of a stack trace for whose
fields there is no memory, and the permitted subclasses as soon as they are returned. -/
def Call.DropsHandles : Call → Prop
  | .resolveMethodType m => m.ptypes = 0 ∨ ∀ load ∈ m.args ++ [m.ret], load.mirror ≠ .noClass
  | .reflectInitializeConstructor c => c.ctor = 0 ∨ ∀ load ∈ c.awaited, load.suspends = false
  | .fillInStackTrace array frames =>
    array = 0 ∨ ∀ frame ∈ (frames.dropWhile StackTraceElement.complete).head?, frame.element = 0
  | .getPermittedSubclasses0 permitted =>
    ∀ p ∈ permitted, p.array = 0 ∨ ∃ info ∈ p.entries, info.error = true
  | _ => True

end BJvm.Handles
