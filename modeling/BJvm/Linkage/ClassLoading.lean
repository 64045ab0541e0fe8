import Mathlib.Logic.Function.Basic
import Mathlib.Order.Basic

/-!
# Class loading

`lookup_class`, `define_class` and `resolve_class_impl`, cut at the calls they make of each other
and of user code, with the loaders' tables, the constant pools and the stacks of all threads.
-/

namespace BJvm.Loading

/-- The characters of a `slice`. -/
abbrev Name := List Char

/-- A loader in `vm->active_classloaders`; the bootstrap loader is the first. -/
abbrev LoaderId := Nat

abbrev bootstrapClassloader : LoaderId := 0

abbrev ClassId := Nat

abbrev ThreadId := Nat

/-- A Java exception: one the VM raises, or one of user code. -/
inductive Exception
  | vm (cls : String) (message : Name)
  | user (object : Nat)
deriving DecidableEq

/-- `cp_class_info`. -/
structure CpClassInfo where
  name : Name
  classdesc : Option ClassId := none
  /-- the exception of a resolution that failed -/
  vmObject : Option Exception := none

/-- What the parser makes of a class file, where loading reads it: the names of the class entries
of the constant pool, and the indices of those that the class and its attributes use. -/
structure ClassFile where
  classInfos : List Name
  /-- `this_class` -/
  self : Nat := 0
  superClass : Option Nat := none
  interfaces : List Nat := []
  enclosingMethod : Option Nat := none
  permittedSubclasses : Option (List Nat) := none
  innerClasses : List Nat := []
  nestHost : Option Nat := none

/-- `cd_kind`. -/
inductive Kind
  | ordinaryArray
  | primitiveArray
  | ordinary
  | primitive
deriving DecidableEq

/-- `classdesc`. -/
structure Classdesc where
  kind : Kind
  name : Name
  /-- the defining loader, null until the class is defined -/
  classloader : Option LoaderId := none
  file : ClassFile := { classInfos := [] }
  classInfos : List CpClassInfo := []
  primitiveComponent : Nat := 0
  arrayType : Option ClassId := none

/-- What `parse_classfile` makes of a class file; the class is named by its own entry. -/
def ClassFile.classdesc (file : ClassFile) : Classdesc where
  kind := .ordinary
  name := file.classInfos.getD file.self []
  file := file
  classInfos := file.classInfos.map fun name => { name }

/-- The class, numbered `cd`, is defined by the loader, and its own entry is resolved. -/
def Classdesc.publish (desc : Classdesc) (cd : ClassId) (cl : LoaderId) : Classdesc :=
  { desc with
    classloader := some cl
    classInfos := desc.classInfos.modify desc.file.self fun info =>
      { info with classdesc := some cd } }

/-- The entry is given the result of its lookup, or the exception. -/
def CpClassInfo.settle (info : CpClassInfo) (returned : Option ClassId)
    (exception : Option Exception) : CpClassInfo :=
  match returned with
  | some cd => { info with classdesc := some cd }
  | none => { info with classdesc := none, vmObject := exception }

/-- The natives of `java/lang/Class` that resolve entries of the constant pool of their class. -/
inductive ClassNative
  | getEnclosingMethod
  | getDeclaringClass
  | getPermittedSubclasses
  | getDeclaredClasses
  | getNestHost
deriving DecidableEq

/-- The entries that a native resolves, in order. -/
def ClassNative.entries : ClassNative → ClassFile → List Nat
  | getEnclosingMethod, file => file.enclosingMethod.toList
  | getDeclaringClass, file => file.enclosingMethod.toList
  | getPermittedSubclasses, file => file.permittedSubclasses.getD []
  | getDeclaredClasses, file => file.innerClasses
  | getNestHost, file => file.nestHost.toList

/-- `getDeclaredClasses0` goes on behind an entry that does not resolve. -/
def ClassNative.continues : ClassNative → Bool
  | getDeclaredClasses => true
  | _ => false

/-- On whose behalf an entry is resolved. -/
inductive Origin
  | bytecode
  | native (fn : ClassNative)
  | definition
deriving DecidableEq

/-- An entry of a constant pool, and the loader that is asked for it. -/
structure Request where
  owner : ClassId
  index : Nat
  loader : Option LoaderId
  origin : Origin

/-- A call in progress.  Each part of a C function that runs before a call of its own, or behind
one, is one step of its activation. -/
inductive Activation
  /-- a frame of a method of the class -/
  | frame (myClass : ClassId)
  /-- a native of `java/lang/Class` with the entries it has still to resolve -/
  | classNative (fn : ClassNative) (desc : ClassId) (todo : List Nat)
  /-- `lookup_class` when it is called -/
  | lookupClass (cl : LoaderId) (name : Name) (raiseClassNotFound : Bool)
  /-- `lookup_class` behind the load, with the local `dimensions`, lost when the load suspended -/
  | awaitLoad (cl : LoaderId) (name classname : Name) (raiseClassNotFound : Bool)
      (dimensions : Option Nat)
  /-- `resolve_class_impl` behind `lookup_class` -/
  | awaitLookup (request : Request)
  /-- `define_class` when it is called -/
  | defineClass (cl : LoaderId) (chars : Name) (file : Except Name ClassFile)
  /-- `define_class` with the superclass and superinterfaces it has still to resolve -/
  | resolveSupers (cl : LoaderId) (chars : Name) (cd : ClassId) (todo : List Nat)

/-- A thread: its calls, the innermost first, what the last one returned, and
`current_exception`. -/
structure Thread where
  control : List Activation := []
  returned : Option (Option ClassId) := none
  exception : Option Exception := none

/-- The state of class loading. -/
structure World where
  classes : ClassId → Classdesc
  classCount : Nat
  parent : LoaderId → Option LoaderId := fun _ => none
  loaderCount : Nat := 1
  loaded : LoaderId → Name → Option ClassId := fun _ _ => none
  initiating : LoaderId → Name → Option ClassId := fun _ _ => none
  inchoate : Name → Bool := fun _ => false
  thread : ThreadId → Thread := fun _ => {}
  /-- the recording of initiating loaders has dereferenced a null parent -/
  leftChain : Bool := false
  /-- every binding ever put in an `initiating` table -/
  bound : List (LoaderId × Name × ClassId) := []
  /-- every entry ever looked up -/
  asked : List Request := []
  /-- every result that a lookup has returned -/
  answered : List (LoaderId × Name × Option ClassId) := []

namespace World

variable (w : World) (t : ThreadId)

def setThread (th : Thread) : World := { w with thread := Function.update w.thread t th }

/-- Make `calls` the calls of the thread, with no result yet. -/
def proceed (calls : List Activation) : World :=
  w.setThread t { w.thread t with control := calls, returned := none }

/-- Return a result to the call on top of `calls`. -/
def ret (calls : List Activation) (result : Option ClassId) : World :=
  w.setThread t { w.thread t with control := calls, returned := some result }

/-- `raise_vm_exception`, and return null. -/
def raise (calls : List Activation) (cls : String) (message : Name) : World :=
  w.setThread t
    { control := calls, returned := some none, exception := some (.vm cls message) }

/-- The constant pool entry. -/
def info (cd : ClassId) (i : Nat) : Option CpClassInfo := (w.classes cd).classInfos[i]?

def setClass (cd : ClassId) (desc : Classdesc) : World :=
  { w with classes := Function.update w.classes cd desc }

def setInfo (cd : ClassId) (i : Nat) (info : CpClassInfo) : World :=
  w.setClass cd { w.classes cd with classInfos := (w.classes cd).classInfos.set i info }

/-- `hash_table_insert(&cl->loaded, ...)`. -/
def load (cl : LoaderId) (name : Name) (cd : ClassId) : World :=
  { w with loaded := Function.update w.loaded cl (Function.update (w.loaded cl) name (some cd)) }

/-- `hash_table_insert(&cl->initiating, ...)`. -/
def bind (cl : LoaderId) (name : Name) (cd : ClassId) : World :=
  { w with
    initiating := Function.update w.initiating cl (Function.update (w.initiating cl) name (some cd))
    bound := (cl, name, cd) :: w.bound }

/-- Insert in or delete from `inchoate_classes`. -/
def setInchoate (name : Name) (loading : Bool) : World :=
  { w with inchoate := Function.update w.inchoate name loading }

def answer (cl : LoaderId) (name : Name) (result : Option ClassId) : World :=
  { w with answered := (cl, name, result) :: w.answered }

/-- `unmirror_classloader` of a loader that is not registered yet. -/
def register (parent : LoaderId) : World :=
  { w with
    parent := Function.update w.parent w.loaderCount (some parent)
    loaderCount := w.loaderCount + 1 }

/-- The new class is given the next number. -/
def allocate (cd : Classdesc) : World :=
  { w with
    classes := Function.update w.classes w.classCount cd
    classCount := w.classCount + 1 }

end World

/-! ### Array classes -/

/-- `type_kind_to_char` of a primitive kind. -/
def typeKindToChar (kind : Nat) : Char :=
  ['Z', 'C', 'F', 'D', 'B', 'S', 'I', 'J', 'V'].getD kind 'L'

/-- `read_type_kind_char`: the class of a primitive type is numbered as its kind. -/
def readTypeKindChar (c : Char) : Option Nat :=
  ['Z', 'C', 'F', 'D', 'B', 'S', 'I', 'J', 'V'].idxOf? c

/-- The class that `primitive_array_classdesc` or `ordinary_array_classdesc` makes. -/
def arrayClassdesc (component : Classdesc) : Classdesc :=
  match component.kind with
  | .primitive =>
    { kind := .primitiveArray, name := ['[', typeKindToChar component.primitiveComponent],
      primitiveComponent := component.primitiveComponent, classloader := component.classloader }
  | .ordinary =>
    { kind := .ordinaryArray, name := '[' :: 'L' :: component.name ++ [';'],
      primitiveComponent := component.primitiveComponent, classloader := component.classloader }
  | _ =>
    { kind := .ordinaryArray, name := '[' :: component.name,
      primitiveComponent := component.primitiveComponent, classloader := component.classloader }

/-- `get_or_create_array_classdesc`. -/
def getOrCreateArrayClassdesc (w : World) (cd : ClassId) : World × ClassId :=
  match (w.classes cd).arrayType with
  | some array => (w, array)
  | none =>
    let w' := w.allocate (arrayClassdesc (w.classes cd))
    (w'.setClass cd { w'.classes cd with arrayType := some w.classCount }, w.classCount)

/-- The loop at the end of `lookup_class`: derive the array class. -/
def deriveArray (w : World) (cd : ClassId) : Nat → World × ClassId
  | 0 => (w, cd)
  | n + 1 =>
    let (w', array) := getOrCreateArrayClassdesc w cd
    deriveArray w' array n

/-! ### `lookup_class` -/

section

-- the class file that the bootstrap class path holds for a name
variable (classpath : Name → Option (Except Name ClassFile))

/-- The leading brackets counted and removed. -/
def munch : Name → Nat × Name
  | '[' :: name => ((munch name).1 + 1, (munch name).2)
  | name => (0, name)

/-- What is looked up in the table: the name without brackets, and without `L` and `;` where there
were brackets; or the primitive component of an array. -/
def component (name : Name) : Nat × (Option Nat ⊕ Name) :=
  let (dimensions, classname) := munch name
  if dimensions ≠ 0 ∧ classname.head? ≠ some 'L' then
    (dimensions, .inl (classname.head?.bind readTypeKindChar))
  else if dimensions ≠ 0 then (dimensions, .inr classname.tail.dropLast)
  else (dimensions, .inr classname)

/-- The loop of `lookup_class` that records initiating loaders, from `curr` to the loader of the
class; it leaves the chain when it dereferences a null parent. -/
def recordInitiating (name : Name) (cd : ClassId) (target : Option LoaderId) :
    Nat → Option LoaderId → World → World
  | _, none, w => if target = none then w else { w with leftChain := true }
  | 0, some _, w => w
  | fuel + 1, some curr, w =>
    if some curr = target then w
    else recordInitiating name cd target fuel (w.parent curr) (w.bind curr name cd)

/-- The end of `lookup_class` when it has a class. -/
def lookupFound (w : World) (t : ThreadId) (rest : List Activation) (cl : LoaderId) (name : Name)
    (cd : ClassId) (dimensions : Nat) : World :=
  let (w', result) := deriveArray w cd dimensions
  (w'.answer cl name (some result)).ret t rest (some result)

/-- The end of `lookup_class` when it has none; the VM aborts when it needs the class of the
exception that it would raise. -/
def lookupFailed (w : World) (t : ThreadId) (rest : List Activation) (cl : LoaderId)
    (name classname : Name) (raiseClassNotFound : Bool) : Option World :=
  let w' := w.answer cl name none
  if raiseClassNotFound = false then some (w'.ret t rest none)
  else if classname = "java/lang/ClassNotFoundException".toList then none
  else if (w.thread t).exception = none then
    some (w'.raise t rest "java/lang/ClassNotFoundException" classname)
  else some (w'.ret t rest none)

/-- `lookup_class` up to the load. -/
def lookupClass (w : World) (t : ThreadId) (rest : List Activation) (cl : LoaderId) (name : Name)
    (raiseClassNotFound : Bool) : Option World :=
  match component name with
  | (dimensions, .inl kind) => kind.map fun k => lookupFound w t rest cl name k dimensions
  | (dimensions, .inr classname) =>
    match w.initiating cl classname with
    | some cd => some (lookupFound w t rest cl name cd dimensions)
    | none =>
      let w' := w.setInchoate classname true
      let await := .awaitLoad cl name classname raiseClassNotFound (some dimensions) :: rest
      if cl = bootstrapClassloader then
        match classpath classname with
        | none => some (w'.ret t await none)
        | some file =>
          some (w'.proceed t (.defineClass bootstrapClassloader classname file :: await))
      else some (w'.proceed t await)

/-- `lookup_class` behind the load, which returned `returned`.  After a suspension the locals
`dimensions` and `class` hold what `junk` says. -/
def lookupResume (w : World) (t : ThreadId) (rest : List Activation) (cl : LoaderId)
    (name classname : Name) (raiseClassNotFound : Bool) (dimensions : Option Nat)
    (returned : Option ClassId) (junk : Nat × Option ClassId) : Option World :=
  let cd := if cl ≠ bootstrapClassloader ∧ (w.thread t).exception ≠ none then
      (if dimensions = none then junk.2 else none) else returned
  let w' := w.setInchoate classname false
  match cd with
  | none => lookupFailed w' t rest cl name classname raiseClassNotFound
  | some cd =>
    let w'' := recordInitiating classname cd (w'.classes cd).classloader (w'.loaderCount + 1)
      (some cl) w'
    some (lookupFound w'' t rest cl name cd (dimensions.getD junk.1))

/-! ### `resolve_class_impl` -/

/-- `get_current_classloader`: the loader of the class of the top frame's method; a native of
`java/lang/Class` is a method of a bootstrap class. -/
def getCurrentClassloader (w : World) : List Activation → Option LoaderId
  | [] => some bootstrapClassloader
  | .frame myClass :: _ => (w.classes myClass).classloader
  | .classNative .. :: _ => some bootstrapClassloader
  | _ :: rest => getCurrentClassloader w rest

/-- `resolve_class_impl`, called by the call on top of `calls`, up to `lookup_class`. -/
def resolveClassImpl (w : World) (t : ThreadId) (calls : List Activation) (request : Request) :
    Option World :=
  (w.info request.owner request.index).map fun info =>
    match info.classdesc, info.vmObject, request.loader with
    | some cd, _, _ => w.ret t calls (some cd)
    | none, some e, _ =>
      w.setThread t { control := calls, returned := some none, exception := some e }
    | none, none, none =>
      (w.setInfo request.owner request.index
        { info with vmObject := (w.thread t).exception }).ret t calls none
    | none, none, some cl =>
      { w with asked := request :: w.asked }.proceed t
        (.lookupClass cl info.name true :: .awaitLookup request :: calls)

/-- `resolve_class_impl` behind `lookup_class`, which returned `returned`. -/
def resolveResume (w : World) (t : ThreadId) (rest : List Activation) (request : Request)
    (returned : Option ClassId) : Option World :=
  (w.info request.owner request.index).map fun info =>
    (w.setInfo request.owner request.index
      (info.settle returned (w.thread t).exception)).ret t rest returned

/-! ### `define_class` -/

/-- `check_permitted_subclasses` of the class named `name` with the entry of a superclass. -/
def permits (w : World) (name : Name) (sup : CpClassInfo) : Bool :=
  match sup.classdesc with
  | none => false
  | some super =>
    match (w.classes super).file.permittedSubclasses with
    | none => true
    | some entries => entries.any fun i => (w.info super i).any (·.name = name)

/-- `define_class` up to the superclass. -/
def defineClass (w : World) (t : ThreadId) (rest : List Activation) (cl : LoaderId) (chars : Name)
    (file : Except Name ClassFile) : World :=
  match w.initiating cl chars, file with
  | some _, _ => w.raise t rest "java/lang/LinkageError" "Class already defined".toList
  | none, .error message => w.raise t rest "java/lang/ClassFormatError" message
  | none, .ok file =>
    (w.allocate file.classdesc).proceed t
      (.resolveSupers cl chars w.classCount (file.superClass.toList ++ file.interfaces) :: rest)

/-- `define_class` before the next superclass or superinterface, or at its end. -/
def defineNext (w : World) (t : ThreadId) (rest : List Activation) (cl : LoaderId) (chars : Name)
    (cd : ClassId) : List Nat → Option World
  | [] =>
    let w' := w.setClass cd ((w.classes cd).publish cd cl)
    some (((w'.load cl chars cd).bind cl chars cd).ret t rest (some cd))
  | i :: todo =>
    (w.info cd i).bind fun info =>
      if w.inchoate info.name then
        some (w.raise t rest "java/lang/ClassCircularityError"
          ("While loading class ".toList ++ (w.classes cd).name))
      else
        resolveClassImpl w t (.resolveSupers cl chars cd (i :: todo) :: rest)
          ⟨cd, i, some cl, .definition⟩

/-- `define_class` behind the resolution of a superclass or superinterface. -/
def defineResume (w : World) (t : ThreadId) (rest : List Activation) (cl : LoaderId) (chars : Name)
    (cd : ClassId) (returned : Option ClassId) : List Nat → Option World
  | [] => none
  | i :: todo =>
    (w.info cd i).map fun info =>
      match returned with
      | none => w.ret t rest none
      | some _ =>
        if permits w (w.classes cd).name info then
          w.proceed t (.resolveSupers cl chars cd todo :: rest)
        else
          w.raise t rest "java/lang/IncompatibleClassChangeError"
            ("class ".toList ++ (w.classes cd).name ++
              " cannot implement sealed interface ".toList ++ info.name)

/-! ### Steps -/

/-- The next part of the call on top of a thread's stack, which is not user code. -/
def advance (w : World) (t : ThreadId) (junk : Nat × Option ClassId) : Option World :=
  match (w.thread t).control, (w.thread t).returned with
  | .lookupClass cl name raise :: rest, none => lookupClass classpath w t rest cl name raise
  | .awaitLoad cl name classname raise dimensions :: rest, some returned =>
    lookupResume w t rest cl name classname raise dimensions returned junk
  | .awaitLookup request :: rest, some returned => resolveResume w t rest request returned
  | .defineClass cl chars file :: rest, none => some (defineClass w t rest cl chars file)
  | .resolveSupers cl chars cd todo :: rest, none => defineNext w t rest cl chars cd todo
  | .resolveSupers cl chars cd todo :: rest, some returned =>
    defineResume w t rest cl chars cd returned todo
  | .classNative fn desc (i :: todo) :: rest, none =>
    let calls := .classNative fn desc (i :: todo) :: rest
    resolveClassImpl w t calls ⟨desc, i, getCurrentClassloader w calls, .native fn⟩
  | .classNative fn desc (_ :: todo) :: rest, some returned =>
    if returned = none ∧ fn.continues = false then some (w.ret t rest none)
    else some (w.proceed t (.classNative fn desc todo :: rest))
  | .classNative _ _ [] :: rest, none => some (w.ret t rest none)
  | _, _ => none

/-- User code runs: a frame is on top, or the thread runs no method yet. -/
def userCode : List Activation → Bool
  | [] => true
  | .frame _ :: _ => true
  | _ => false

/-- A method can be called: by user code, or as `loadClass` by `lookup_class`. -/
def mayInvoke (th : Thread) : Bool :=
  match th.control, th.returned with
  | .awaitLoad .. :: _, none => true
  | calls, _ => userCode calls

/-- No `lookup_class` call of the thread is one that must not suspend. -/
def mayYield (calls : List Activation) : Bool :=
  calls.all fun
    | .awaitLookup _ => false
    | _ => true

/-- The locals of the `lookup_class` calls are lost. -/
def loseLocals : Activation → Activation
  | .awaitLoad cl name classname raise _ => .awaitLoad cl name classname raise none
  | call => call

/-- The class is defined. -/
def Published (w : World) (c : ClassId) : Prop :=
  c < w.classCount ∧ (w.classes c).classloader.isSome

instance (w : World) (c : ClassId) : Decidable (Published w c) :=
  inferInstanceAs (Decidable (_ ∧ _))

/-- What a thread does next. -/
inductive Event
  /-- a loader is registered under its parent -/
  | newLoader (parent : LoaderId)
  /-- a method is called -/
  | invoke (myClass : ClassId)
  /-- the method on top returns a class mirror or null, or throws -/
  | returns (value : Option ClassId) (exception : Option Exception)
  /-- the method on top catches its exception -/
  | catches
  /-- the bytecode on top resolves an entry of its own class -/
  | resolveClass (index : Nat)
  /-- a native of `java/lang/Class` is called -/
  | classNative (fn : ClassNative) (desc : ClassId)
  | lookupClass (cl : LoaderId) (name : Name) (raiseClassNotFound : Bool)
  | defineClass (cl : LoaderId) (chars : Name) (file : Except Name ClassFile)
  /-- the call on top goes on -/
  | advance (junk : Nat × Option ClassId)
  /-- the thread is suspended and resumed -/
  | suspend
  /-- `lookup_class` cannot allocate the string for `loadClass` -/
  | outOfMemory

/-- One step of a thread; none where it cannot take it. -/
def step (w : World) (t : ThreadId) : Event → Option World
  | .newLoader parent => if parent < w.loaderCount then some (w.register parent) else none
  | .invoke cd =>
    if Published w cd ∧ mayInvoke (w.thread t) then
      some (w.proceed t (.frame cd :: (w.thread t).control))
    else none
  | .returns value exception =>
    match (w.thread t).control with
    | .frame _ :: rest =>
      if ∀ c ∈ value, Published w c then
        some (w.setThread t { control := rest, returned := some value, exception })
      else none
    | _ => none
  | .catches =>
    match (w.thread t).control with
    | .frame _ :: _ => some (w.setThread t { w.thread t with exception := none })
    | _ => none
  | .resolveClass index =>
    match (w.thread t).control with
    | .frame cd :: rest =>
      resolveClassImpl w t (.frame cd :: rest)
        ⟨cd, index, getCurrentClassloader w (.frame cd :: rest), .bytecode⟩
    | _ => none
  | .classNative fn desc =>
    if Published w desc ∧ userCode (w.thread t).control then
      some (w.proceed t
        (.classNative fn desc (fn.entries (w.classes desc).file) :: (w.thread t).control))
    else none
  | .lookupClass cl name raise =>
    if cl < w.loaderCount ∧ userCode (w.thread t).control then
      some (w.proceed t (.lookupClass cl name raise :: (w.thread t).control))
    else none
  | .defineClass cl chars file =>
    if cl < w.loaderCount ∧ userCode (w.thread t).control then
      some (w.proceed t (.defineClass cl chars file :: (w.thread t).control))
    else none
  | .advance junk => advance classpath w t junk
  | .suspend =>
    match (w.thread t).control with
    | .frame cd :: rest =>
      if mayYield rest then
        some (w.setThread t { w.thread t with control := (.frame cd :: rest).map loseLocals })
      else none
    | _ => none
  | .outOfMemory =>
    match (w.thread t).control, (w.thread t).returned with
    | .awaitLoad cl name _ _ _ :: rest, none =>
      some ((w.answer cl name none).setThread t
        { control := rest, returned := some none,
          exception := some (.vm "java/lang/OutOfMemoryError" []) })
    | _, _ => none

/-- `make_primitive_classdesc`. -/
def makePrimitiveClassdesc (kind : Nat) (name : String) : Classdesc where
  kind := .primitive
  name := name.toList
  primitiveComponent := kind
  classloader := some bootstrapClassloader

/-- `vm->primitive_classes`, by kind. -/
def primitiveNames : List String :=
  ["boolean", "char", "float", "double", "byte", "short", "int", "long", "void"]

/-- The VM has its primitive classes and its bootstrap loader, and no thread runs. -/
def World.start : World where
  classes cd := match primitiveNames[cd]? with
    | some name => makePrimitiveClassdesc cd name
    | none => { kind := .ordinary, name := [] }
  classCount := 9

/-- The states that threads reach by steps that meet `P`. -/
inductive Run (P : ThreadId → World → Event → World → Prop) : World → Prop
  | start : Run P .start
  | step {w w' : World} {e : Event} (t : ThreadId) :
      Run P w → step classpath w t e = some w' → P t w e w' → Run P w'

/-- A list of steps. -/
def stepAll (w : World) : List (ThreadId × Event) → Option World
  | [] => some w
  | (t, e) :: events => (step classpath w t e).bind fun w' => stepAll w' events

end

end BJvm.Loading
