import BJvm.Linkage.ClassLinker

/-!
# Initializing classes

`initialize_class`, cut at the calls after which it may be resumed later, run by any number of
threads.  The states of the classes are those of the linker.
-/

namespace BJvm.Initialization

open Linker (ClassId State)

abbrev ThreadId := Nat

/-- A Java exception.  The errors that linking raises, and the one for a lack of memory, are made by
the VM; `ExceptionInInitializerError` has a cause. -/
inductive Exception
  | linkage
  | outOfMemory
  | inInitializer (cause : Exception)
  | thrown (object : Nat) (isError : Bool)
deriving DecidableEq

/-- `is_error`. -/
def Exception.isError : Exception → Bool
  | .thrown _ isError => isError
  | _ => true

/-- The classes, and which of them have a `<clinit>`. -/
structure Classes extends Linker.Classes where
  hasClinit : Nat → Bool

/-- A call in progress. -/
inductive Activation
  /-- a method -/
  | user
  /-- `initialize_class` when it is called -/
  | initializeClass (n : Nat)
  /-- `initialize_class` waiting for another thread -/
  | awaitInitialized (n : Nat)
  /-- `initialize_class` behind the call for the superclass -/
  | awaitSuper (n : Nat)
  /-- `initialize_class` behind the call for an interface -/
  | awaitInterface (n i : Nat)
  /-- `initialize_class` behind `<clinit>`, with the local `error`, lost when it was suspended -/
  | awaitClinit (n : Nat) (suspended : Bool)
deriving DecidableEq

/-- The class that the call has begun to initialize. -/
def Activation.initializing : Activation → Option Nat
  | .awaitSuper n | .awaitInterface n _ | .awaitClinit n _ => some n
  | _ => none

/-- A thread: its calls, the innermost first, the error flag that the last one returned, and
`current_exception`. -/
structure Thread where
  control : List Activation := []
  returned : Option Bool := none
  exception : Option Exception := none

/-- A start of a `<clinit>`, and how the superclass was then. -/
structure Start where
  cls : Nat
  thread : ThreadId
  /-- the superclass was finished, or a caller was initializing it -/
  superReady : Bool
  /-- the superclass had failed -/
  superFailed : Bool
deriving DecidableEq

/-- A return of `initialize_class`. -/
structure Return where
  cls : Nat
  thread : ThreadId
  /-- another thread was initializing the class -/
  inProgress : Bool
  /-- the class had failed -/
  failed : Bool
  /-- an exception was pending -/
  pending : Bool
deriving DecidableEq

/-- What a step cannot know: the depth of linking, whether memory runs out, and what a lost local
holds. -/
structure Env where
  fuel : Nat := 8
  callocFails : Bool := false
  constantsFail : Bool := false
  junk : Bool := false

/-- The state of initialization, with the history of starts, ends and failures. -/
structure World where
  linker : Linker.World := .start
  initializingThread : Nat → Option ThreadId := fun _ => none
  linkageError : Nat → Option Exception := fun _ => none
  thread : ThreadId → Thread := fun _ => {}
  starts : List Start := []
  returns : List Return := []
  /-- the classes whose initialization has come to its end -/
  finished : List Nat := []
  /-- the classes whose initialization has failed -/
  failed : List Nat := []

namespace World

variable (w : World) (t : ThreadId)

def state (n : Nat) : State := w.linker.state (.ordinary n)

/-- Linking or initialization of the class has failed. -/
def Failed (n : Nat) : Prop := n ∈ w.failed ∨ w.state n = .linkageError

instance (n : Nat) : Decidable (w.Failed n) := inferInstanceAs (Decidable (_ ∨ _))

def setThread (th : Thread) : World := { w with thread := Function.update w.thread t th }

/-- Make `calls` the calls of the thread, with no result yet. -/
def proceed (calls : List Activation) : World :=
  w.setThread t { w.thread t with control := calls, returned := none }

/-- `raise_exception_object`. -/
def raise (e : Exception) : World := w.setThread t { w.thread t with exception := some e }

/-- `initialize_class` returns to the call on top of `rest`. -/
def ret (rest : List Activation) (n : Nat) (error : Bool) : World :=
  let entry : Return :=
    { cls := n
      thread := t
      inProgress := w.state n = .initializing ∧ w.initializingThread n ≠ some t
      failed := w.Failed n
      pending := (w.thread t).exception.isSome }
  { w with returns := entry :: w.returns }.setThread t
    { w.thread t with control := rest, returned := some error }

/-- The thread begins to initialize the class. -/
def claim (n : Nat) : World :=
  { w with
    linker := w.linker.setState (.ordinary n) .initializing
    initializingThread := Function.update w.initializingThread n (some t) }

/-- The class and its array classes get their state. -/
def finish (n : Nat) (error : Bool) : World :=
  { w with
    linker := Linker.finishInitialization w.linker n error
    linkageError := Function.update w.linkageError n (w.thread t).exception
    finished := n :: w.finished
    failed := if error then n :: w.failed else w.failed }

/-- The initialization has failed when that of a super has. -/
def noteSuper (n m : Nat) : World :=
  if w.Failed m then { w with failed := n :: w.failed } else w

end World

section

variable (classes : Classes)

/-- The superclass is initialized, or is being initialized by one of the callers. -/
def superReady (w : World) (rest : List Activation) (n : Nat) : Bool :=
  match classes.superClass n with
  | none => true
  | some s => s ∈ w.finished || rest.any (·.initializing = some s)

/-- The end of `initialize_class`. -/
def done (w : World) (t : ThreadId) (rest : List Activation) (n : Nat) (error : Bool) : World :=
  (w.finish t n error).ret t rest n error

/-- `initialize_class` when the supers are done. -/
def runClinit (w : World) (t : ThreadId) (rest : List Activation) (n : Nat) (env : Env) : World :=
  if env.constantsFail then done (w.raise t .outOfMemory) t rest n true
  else if classes.hasClinit n then
    let start : Start :=
      { cls := n
        thread := t
        superReady := superReady classes w rest n
        superFailed := (classes.superClass n).any fun s => w.Failed s }
    { w with starts := start :: w.starts }.proceed t (.user :: .awaitClinit n false :: rest)
  else done w t rest n false

/-- `initialize_class` before the `i`-th interface. -/
def nextInterface (w : World) (t : ThreadId) (rest : List Activation) (n i : Nat) (env : Env) :
    World :=
  match (classes.interfaces n)[i]? with
  | some m => w.proceed t (.initializeClass m :: .awaitInterface n i :: rest)
  | none => runClinit classes w t rest n env

/-- `initialize_class` of a class that is linked. -/
def beginInitialization (w : World) (t : ThreadId) (rest : List Activation) (n : Nat) (env : Env) :
    World :=
  if w.state n = .initializing then
    if w.initializingThread n = some t then w.ret t rest n false
    else w.proceed t (.awaitInitialized n :: rest)
  else if w.state n = .linkageError then
    let w' := match w.linkageError n with
      | some e => w.raise t e
      | none => w
    w'.ret t rest n true
  else
    let w' := w.claim t n
    if env.callocFails then
      ({ w' with failed := n :: w'.failed }.raise t .outOfMemory).ret t rest n true
    else
      match classes.superClass n with
      | some s => w'.proceed t (.initializeClass s :: .awaitSuper n :: rest)
      | none => nextInterface classes w' t rest n 0 env

/-- `initialize_class` when it is called. -/
def initializeClass (w : World) (t : ThreadId) (rest : List Activation) (n : Nat) (env : Env) :
    Option World :=
  if w.state n = .initialized ∨ w.state n = .linkageError then some (w.ret t rest n false)
  else if (w.state n).isLinked then some (beginInitialization classes w t rest n env)
  else
    match Linker.linkClass classes.toClasses env.fuel w.linker (.ordinary n) with
    | none => none
    | some (true, linker) => some (({ w with linker := linker }.raise t .linkage).ret t rest n false)
    | some (false, linker) =>
      some (beginInitialization classes { w with linker := linker } t rest n env)

/-- `initialize_class` behind the call for a super, which returned `error`. -/
def superDone (w : World) (t : ThreadId) (rest : List Activation) (n m i : Nat) (error : Bool)
    (env : Env) : World :=
  let w' := w.noteSuper n m
  if error then done w' t rest n true else nextInterface classes w' t rest n i env

/-- `initialize_class` behind `<clinit>`. -/
def clinitDone (w : World) (t : ThreadId) (rest : List Activation) (n : Nat) (suspended : Bool)
    (env : Env) : World :=
  match (w.thread t).exception with
  | none => done w t rest n false
  | some e =>
    let w' := { w with failed := n :: w.failed }
    if e.isError then done w' t rest n false
    -- `error` is still what the constant value fields gave, unless it was lost
    else done (w'.raise t (.inInitializer e)) t rest n (suspended && env.junk)

/-- The next part of the call on top of a thread's stack, which is not user code. -/
def advance (w : World) (t : ThreadId) (env : Env) : Option World :=
  match (w.thread t).control, (w.thread t).returned with
  | .initializeClass n :: rest, none => initializeClass classes w t rest n env
  | .awaitInitialized n :: rest, none =>
    some (if w.state n = .initializing then w else w.ret t rest n false)
  | .awaitSuper n :: rest, some error =>
    (classes.superClass n).map fun m => superDone classes w t rest n m 0 error env
  | .awaitInterface n i :: rest, some error =>
    (classes.interfaces n)[i]?.map fun m => superDone classes w t rest n m (i + 1) error env
  | .awaitClinit n suspended :: rest, some _ => some (clinitDone w t rest n suspended env)
  | _, _ => none

/-- User code runs: a method is on top, or the thread runs none yet. -/
def userCode : List Activation → Bool
  | [] => true
  | .user :: _ => true
  | _ => false

/-- The locals of the `initialize_class` calls are lost. -/
def loseLocals : Activation → Activation
  | .awaitClinit n _ => .awaitClinit n true
  | call => call

/-- What a thread does next. -/
inductive Event
  /-- code asks for a class to be initialized -/
  | initializeClass (n : Nat)
  /-- code links a class or makes an array class -/
  | link (op : Linker.Op)
  /-- the method on top returns or throws -/
  | returns (exception : Option Exception)
  /-- the method on top catches its exception -/
  | catches
  /-- the call on top goes on -/
  | advance
  /-- the thread is suspended and resumed -/
  | suspend

/-- The operations of the linker that code asks for. -/
def isLinking : Linker.Op → Bool
  | .link _ | .getOrCreateArray _ => true
  | _ => false

/-- One step of a thread; none where it cannot take it. -/
def step (w : World) (t : ThreadId) (env : Env) : Event → Option World
  | .initializeClass n =>
    if userCode (w.thread t).control ∧ (w.thread t).exception = none then
      some (w.proceed t (.initializeClass n :: (w.thread t).control))
    else none
  | .link op =>
    if isLinking op then
      (op.apply classes.toClasses env.fuel w.linker).map fun linker => { w with linker := linker }
    else none
  | .returns exception =>
    match (w.thread t).control with
    | .user :: rest =>
      some (w.setThread t { control := rest, returned := some false, exception := exception })
    | _ => none
  | .catches =>
    if userCode (w.thread t).control then
      some (w.setThread t { w.thread t with exception := none })
    else none
  | .advance => advance classes w t env
  | .suspend =>
    some (w.setThread t { w.thread t with control := (w.thread t).control.map loseLocals })

/-- The states that threads reach by steps that meet `P`. -/
inductive Run (P : ThreadId → Env → World → Event → Prop) : World → Prop
  | start : Run P {}
  | step {w w' : World} {e : Event} (t : ThreadId) (env : Env) :
      Run P w → step classes w t env e = some w' → P t env w e → Run P w'

/-- A list of steps. -/
def stepAll (w : World) : List (ThreadId × Env × Event) → Option World
  | [] => some w
  | (t, env, e) :: events => (step classes w t env e).bind fun w' => stepAll w' events

end

end BJvm.Initialization
