import BJvm.Threads.RoundRobin

/-!
# Monitors

`monitors.c`, and `wait`, `notify` and `notifyAll` of `Object.c`, under the scheduler.  One thread
runs at a time, until its call is suspended.  The wakeup record of `monitor_acquire` is a local of
the interpreter's C frame, which is gone when the call is suspended; that of
`monitor_reacquire_hold_count` is kept with the native call.
-/

namespace BJvm.Threads

open Function (update)

/-- `mark_word_t`; a hash of 0 has not been computed. -/
structure MarkWord where
  flags : Nat := 1
  hash : Nat := 0
deriving DecidableEq

/-- `monitor_data`; `tid` is `none` for `NOT_HELD_TID`. -/
structure MonitorData where
  tid : Option ThreadId
  holdCount : Nat
  markWord : MarkWord
deriving DecidableEq

/-- `header_word`. -/
inductive HeaderWord
  | markWord (word : MarkWord)
  | expanded (data : MonitorData)
deriving DecidableEq

/-- `inspect_monitor`. -/
def HeaderWord.inspectMonitor : HeaderWord → Option MonitorData
  | .markWord _ => none
  | .expanded data => some data

/-- `get_mark_word`. -/
def HeaderWord.getMarkWord : HeaderWord → MarkWord
  | .markWord word => word
  | .expanded data => data.markWord

def HeaderWord.setHash (hash : Nat) : HeaderWord → HeaderWord
  | .markWord word => .markWord { word with hash := hash }
  | .expanded data => .expanded { data with markWord := { data.markWord with hash := hash } }

/-- The loop that gives an object a monitor. -/
def HeaderWord.inflate : HeaderWord → MonitorData
  | .markWord word => { tid := none, holdCount := 0, markWord := word }
  | .expanded data => data

/-- The owner of the monitor. -/
def HeaderWord.owner (header : HeaderWord) : Option ThreadId := header.inspectMonitor.bind (·.tid)

/-- The number of values of a `u32`. -/
def uint32Size : Nat := 2 ^ 32

/-- Where a thread is suspended in a monitor routine. -/
inductive Blocked
  /-- in `monitor_acquire` -/
  | acquire (obj : Object)
  /-- in `wait0`, for a notification -/
  | wait (obj : Object) (holdCount : Nat)
  /-- in `monitor_reacquire_hold_count`, with its record -/
  | reacquire (obj : Object) (holdCount : Nat) (record : Addr)
deriving DecidableEq

inductive Exception
  | illegalMonitorState | outOfMemory | interrupted
deriving DecidableEq

/-- The threads and the headers of the objects, with the history of the monitors and hashes. -/
structure World where
  sched : Scheduler := {}
  header : Object → HeaderWord := fun _ => .markWord {}
  blocked : ThreadId → Option Blocked := fun _ => none
  exception : ThreadId → Option Exception := fun _ => none
  acquires : ThreadId → Object → Nat := fun _ _ => 0
  releases : ThreadId → Object → Nat := fun _ _ => 0
  hashes : List (Object × Nat) := []

namespace World

variable (w : World) (t : ThreadId) (o : Object)

def setMonitor (data : MonitorData) : World :=
  { w with header := update w.header o (.expanded data) }

def raise (e : Exception) : World := { w with exception := update w.exception t (some e) }

/-- The thread has come out of the routine. -/
def unblock : World := { w with blocked := update w.blocked t none }

/-- The call is suspended, with the record written to memory. -/
def block (b : Blocked) (a : Addr) (info : WakeupInfo) : World :=
  { w with
    blocked := update w.blocked t (some b)
    sched := { w.sched with mem := update w.sched.mem a info }.callNotReady t a }

def noteAcquire : World :=
  { w with acquires := update w.acquires t (update (w.acquires t) o (w.acquires t o + 1)) }

def noteRelease : World :=
  { w with releases := update w.releases t (update (w.releases t) o (w.releases t o + 1)) }

/-- The second loop of `monitor_acquire`; its record would lie at `a`. -/
def acquireLoop (a : Addr) : World :=
  let data := (w.header o).inflate
  match data.tid with
  | none => ((w.setMonitor o { data with tid := some t, holdCount := 1 }).noteAcquire t o).unblock t
  | some owner =>
    if owner = t then
      ((w.setMonitor o { data with holdCount := (data.holdCount + 1) % uint32Size }).noteAcquire
        t o).unblock t
    else w.block t (.acquire o) a { kind := .monitorEnterWaiting, monitor := o }

/-- `monitor_acquire`. -/
def monitorAcquire (allocFails : Bool) (a : Addr) : World :=
  match w.header o with
  | .markWord word =>
    if allocFails then w.raise t .outOfMemory
    else (w.setMonitor o (HeaderWord.markWord word).inflate).acquireLoop t o a
  | .expanded _ => w.acquireLoop t o a

/-- `monitor_reacquire_hold_count`, with its record as it is. -/
def monitorReacquire (holdCount : Nat) (a : Addr) (info : WakeupInfo) : World :=
  let data := (w.header o).inflate
  match data.tid with
  | none =>
    (w.setMonitor o { data with tid := some t, holdCount := holdCount }).unblock t
  | some owner =>
    if owner = t then w.unblock t
    else w.block t (.reacquire o holdCount a) a
      { info with kind := .monitorEnterWaiting, wakeupUs := 0, monitor := o }

/-- `current_thread_hold_count`. -/
def currentThreadHoldCount : Nat :=
  match (w.header o).inspectMonitor with
  | none => 0
  | some data => if data.tid = some t then data.holdCount else 0

/-- The monitor gets free, and `monitor_exit_handler` wakes a thread. -/
def free (data : MonitorData) : World :=
  { w.setMonitor o { data with tid := none, holdCount := 0 } with
    sched := { w.sched with mem := monitorExitHandler w.sched.roundRobin o w.sched.mem } }

/-- `monitor_release`; none for -1. -/
def monitorRelease : Option World :=
  match (w.header o).inspectMonitor with
  | none => none
  | some data =>
    if data.tid ≠ some t ∨ data.holdCount = 0 then none
    else if data.holdCount - 1 = 0 then some ((w.free o data).noteRelease t o)
    else some ((w.setMonitor o { data with holdCount := data.holdCount - 1 }).noteRelease t o)

/-- `monitor_release_all_hold_count`: the hold count, and the world. -/
def monitorReleaseAllHoldCount : Nat × World :=
  match (w.header o).inspectMonitor with
  | none => (0, w)
  | some data =>
    if data.tid ≠ some t ∨ data.holdCount = 0 then (0, w)
    else (data.holdCount, w.free o data)

/-- `monitorexit`. -/
def monitorexit : World :=
  match w.monitorRelease t o with
  | some w => w
  | none => w.raise t .illegalMonitorState

/-- `wait0` up to where it is suspended. -/
def wait0 (interrupted : Bool) (wakeupUs : Nat) (a : Addr) : World :=
  if interrupted then w.raise t .interrupted
  else
    let (holdCount, w) := w.monitorReleaseAllHoldCount t o
    if holdCount = 0 then w.raise t .illegalMonitorState
    else w.block t (.wait o holdCount) a
      { kind := .monitorWait, wakeupUs := wakeupUs, monitor := o, ready := false }

/-- The routine in which the thread was suspended goes on; a new record would lie at `a`. -/
def resume (a : Addr) : Option World :=
  match w.blocked t with
  | none => none
  | some (.acquire o) => some (w.acquireLoop t o a)
  | some (.wait o holdCount) => some (w.monitorReacquire t o holdCount a {})
  | some (.reacquire o holdCount record) =>
    some (w.monitorReacquire t o holdCount record (w.sched.mem record))

/-- `notify0` and `notifyAll0`. -/
def notify (all : Bool) : World :=
  if w.currentThreadHoldCount t o = 0 then w.raise t .illegalMonitorState
  else
    { w with sched := { w.sched with
        mem := if all then monitorNotifyAll w.sched.roundRobin o w.sched.mem
          else monitorNotifyOne w.sched.roundRobin o w.sched.mem } }

/-- `get_object_hash_code`; `next` is what `ObjNextHashCode` gives. -/
def getObjectHashCode (next : Nat) : World :=
  let hash := if (w.header o).getMarkWord.hash = 0 then next else (w.header o).getMarkWord.hash
  { w with
    header := update w.header o ((w.header o).setHash hash)
    hashes := (o, hash) :: w.hashes }

/-- The thread that is running and is not in a monitor routine. -/
def runner : Option ThreadId :=
  match w.sched.running with
  | none => none
  | some t => if w.blocked t = none then some t else none

end World

/-- What the scheduler and the running thread do. -/
inductive Event
  | run (t : ThreadId)
  /-- `rr_scheduler_step` up to the call -/
  | step
  | monitorAcquire (o : Object) (allocFails : Bool) (a : Addr)
  | monitorexit (o : Object)
  | wait (o : Object) (interrupted : Bool) (wakeupUs : Nat) (a : Addr)
  /-- a thread that was suspended in a monitor routine goes on there -/
  | resume (a : Addr)
  | notify (o : Object) (all : Bool)
  | hashCode (o : Object) (next : Nat)
  /-- the call is suspended for another reason -/
  | suspend (a : Addr) (info : WakeupInfo)
  /-- the call finishes -/
  | finish (result : CallResult)
  /-- the program writes to memory -/
  | write (a : Addr) (info : WakeupInfo)

/-- The record is one of a monitor routine. -/
def WakeupKind.isMonitor : WakeupKind → Bool
  | .monitorEnterWaiting | .monitorWait => true
  | _ => false

/-- One step; none where it is not possible. -/
def World.step (env : Env) (w : World) : Event → Option World
  | .run t => (Op.apply env w.sched (.run t)).map fun sched => { w with sched := sched }
  | .step => (Op.apply env w.sched .step).map fun sched => { w with sched := sched }
  | .monitorAcquire o allocFails a => w.runner.map fun t => w.monitorAcquire t o allocFails a
  | .monitorexit o => w.runner.map fun t => w.monitorexit t o
  | .wait o interrupted wakeupUs a => w.runner.map fun t => w.wait0 t o interrupted wakeupUs a
  | .resume a => w.sched.running.bind fun t => w.resume t a
  | .notify o all => w.runner.map fun t => w.notify t o all
  | .hashCode o next => if next = 0 then none else w.runner.map fun _ => w.getObjectHashCode o next
  | .suspend a info =>
    if info.kind.isMonitor then none
    else w.runner.map fun t =>
      { w with sched := { w.sched with mem := update w.sched.mem a info }.callNotReady t a }
  | .finish result =>
    w.runner.bind fun _ =>
      (Op.apply env w.sched (.ready result)).map fun sched => { w with sched := sched }
  | .write a info => some { w with sched := { w.sched with mem := update w.sched.mem a info } }

/-- The states that threads reach by steps that meet `P`. -/
inductive MonitorRun (P : Env → World → Event → Prop) : World → Prop
  | start : MonitorRun P {}
  | step {w w' : World} {e : Event} (env : Env) :
      MonitorRun P w → w.step env e = some w' → P env w e → MonitorRun P w'

/-- A list of steps, without a condition. -/
def World.stepAll (w : World) : List (Env × Event) → Option World
  | [] => some w
  | (env, e) :: events => (w.step env e).bind fun w' => w'.stepAll events

end BJvm.Threads
