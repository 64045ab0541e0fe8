import Mathlib.Logic.Function.Basic
import BJvm.Gc.Scheduler

/-!
# The round-robin scheduler

`roundrobin_scheduler.c`.  A thread waits on a record that lies in the memory of the call that it is
suspended in; the scheduler has only its address.
-/

namespace BJvm.Threads

open Function (update)

abbrev ThreadId := Nat

/-- The address of an object. -/
abbrev Object := Nat

/-- The address of a wakeup record. -/
abbrev Addr := Nat

/-- `rr_wakeup_kind`. -/
inductive WakeupKind
  | yielding | sleep | referencePending | threadPark | monitorEnterWaiting | monitorWait
deriving DecidableEq, Repr

/-- `rr_wakeup_info`; `monitor` is the object of the handle. -/
structure WakeupInfo where
  kind : WakeupKind := .yielding
  wakeupUs : Nat := 0
  monitor : Object := 0
  ready : Bool := false
deriving DecidableEq, Repr

/-- The memory that the wakeup records lie in. -/
abbrev Memory := Addr → WakeupInfo

/-- `thread_info`; a pending call is known by its record. -/
structure ThreadInfo where
  thread : ThreadId
  callQueue : List Nat := []
  wakeupInfo : Option Addr := none
deriving DecidableEq, Repr

/-! ### Waking threads -/

/-- The thread waits on the monitor, in this way. -/
def ThreadInfo.waits (info : ThreadInfo) (mem : Memory) (kind : WakeupKind) (monitor : Object) :
    Bool :=
  match info.wakeupInfo with
  | none => false
  | some a => (mem a).kind = kind ∧ (mem a).monitor = monitor

/-- The thread's record is marked. -/
def ThreadInfo.marked (info : ThreadInfo) (mem : Memory) : Bool :=
  match info.wakeupInfo with
  | none => false
  | some a => (mem a).ready

def ThreadInfo.mark (info : ThreadInfo) (mem : Memory) : Memory :=
  match info.wakeupInfo with
  | none => mem
  | some a => update mem a { mem a with ready := true }

/-- Marks the first thread that waits on the monitor in this way. -/
def markFirst (kind : WakeupKind) (monitor : Object) : List ThreadInfo → Memory → Memory
  | [], mem => mem
  | info :: infos, mem =>
    if info.waits mem kind monitor then info.mark mem else markFirst kind monitor infos mem

/-- `monitor_notify_one`. -/
def monitorNotifyOne (roundRobin : List ThreadInfo) (monitor : Object) (mem : Memory) : Memory :=
  markFirst .monitorWait monitor roundRobin mem

/-- `monitor_notify_all`. -/
def monitorNotifyAll (roundRobin : List ThreadInfo) (monitor : Object) (mem : Memory) : Memory :=
  roundRobin.foldl
    (fun mem info => if info.waits mem .monitorWait monitor then info.mark mem else mem) mem

/-- `monitor_exit_handler`. -/
def monitorExitHandler (roundRobin : List ThreadInfo) (monitor : Object) (mem : Memory) : Memory :=
  markFirst .monitorEnterWaiting monitor roundRobin mem

/-! ### Choosing a thread -/

/-- What the scheduler reads besides its own state. -/
structure Machine where
  referencePendingList : Bool := false
  unparkPermit : ThreadId → Bool := fun _ => false
  interrupted : ThreadId → Bool := fun _ => false
  isDaemon : ThreadId → Bool := fun _ => false

/-- `is_sleeping`. -/
def isSleeping (m : Machine) (mem : Memory) (time : Nat) (info : ThreadInfo) : Bool :=
  match info.wakeupInfo with
  | none => false
  | some a =>
    let wakeup := mem a
    if wakeup.kind = .referencePending then !m.referencePendingList
    else if wakeup.kind = .sleep ∨ (wakeup.kind = .threadPark ∧ !m.unparkPermit info.thread) ∨
        (wakeup.kind = .monitorWait ∧ !wakeup.ready) ∨
        (wakeup.kind = .monitorEnterWaiting ∧ !wakeup.ready) then
      let interrupted := m.interrupted info.thread ∧ wakeup.kind ≠ .monitorEnterWaiting
      ¬ interrupted ∧ (wakeup.wakeupUs = 0 ∨ time ≤ wakeup.wakeupUs)
    else false

def uint64Max : Nat := 2 ^ 64 - 1

/-- The loop of `get_next_thr` over the first `n` threads. -/
def rotateToAwake (sleeping : ThreadInfo → Bool) :
    Nat → List ThreadInfo → List ThreadInfo × Option ThreadInfo
  | 0, infos => (infos, none)
  | _, [] => ([], none)
  | n + 1, info :: infos =>
    if sleeping info then rotateToAwake sleeping n (infos ++ [info])
    else (infos ++ [info], some info)

/-- The loop over the wakeup times: the index of the closest one, and its thread. -/
def closestWakeup (mem : Memory) :
    List ThreadInfo → Nat → Nat × ThreadInfo × Nat → Nat × ThreadInfo × Nat
  | [], _, best => best
  | info :: infos, i, best =>
    let wakeup := (info.wakeupInfo.elim 0 fun a => (mem a).wakeupUs)
    closestWakeup mem infos (i + 1) (if wakeup < best.2.2 then (i, info, wakeup) else best)

/-- `get_next_thr`: the threads, and the one to run. -/
def getNextThr (m : Machine) (mem : Memory) (time : Nat) (infos : List ThreadInfo) :
    List ThreadInfo × Option ThreadInfo :=
  match rotateToAwake (isSleeping m mem time) infos.length infos with
  | (infos, some info) => (infos, some info)
  | (infos, none) =>
    match infos.getLast? with
    | none => (infos, none)
    | some last =>
      let best := closestWakeup mem infos 0 (0, last, uint64Max)
      (infos.eraseIdx best.1 ++ infos[best.1]?.toList, some best.2.1)

/-! ### Calls -/

/-- The scheduler: the threads, the records, the thread whose call is running, and the history of
calls enqueued and finished. -/
structure Scheduler where
  roundRobin : List ThreadInfo := []
  mem : Memory := fun _ => {}
  records : Nat → Gc.ExecutionRecord := fun _ => {}
  recordCount : Nat := 0
  recordThread : Nat → ThreadId := fun _ => 0
  running : Option ThreadId := none
  enqueued : List (ThreadId × Nat) := []
  finished : List (ThreadId × Nat × Nat) := []

/-- Where a call ends: its result, whether it is an object, and the handle that is made for it. -/
structure CallResult where
  returned : Nat
  isReference : Bool := false
  jsHandle : Nat := 0
deriving DecidableEq

/-- What the scheduler cannot know: times, the machine, how calls end that are made synchronously,
where a suspended call has its wakeup record, and the object of a thread. -/
structure Env where
  machine : Machine := {}
  time : Nat := 0
  pickTime : Nat := 0
  synchronous : Nat → Option CallResult := fun _ => none
  threadObj : ThreadId → Object := fun _ => 0

namespace Scheduler

variable (s : Scheduler)

def setInfo (t : ThreadId) (f : ThreadInfo → ThreadInfo) : Scheduler :=
  { s with roundRobin := s.roundRobin.map fun info => if info.thread = t then f info else info }

/-- `get_or_create_thread_info`. -/
def getOrCreateThreadInfo (t : ThreadId) : Scheduler :=
  if s.roundRobin.any (·.thread = t) then s
  else { s with roundRobin := s.roundRobin ++ [{ thread := t }] }

/-- `rr_scheduler_run`. -/
def run (t : ThreadId) : Scheduler :=
  let s := s.getOrCreateThreadInfo t
  let record := s.recordCount
  { s.setInfo t fun info => { info with callQueue := info.callQueue ++ [record] } with
    records := update s.records record {}
    recordThread := update s.recordThread record t
    recordCount := record + 1
    enqueued := s.enqueued ++ [(t, record)] }

/-- `only_daemons_running`. -/
def onlyDaemonsRunning (m : Machine) : Bool := s.roundRobin.all fun info => m.isDaemon info.thread

/-- `rr_scheduler_step` up to the call; where the thread has none, the tail call is the next step. -/
def step (env : Env) : Scheduler :=
  if s.roundRobin = [] ∨ s.onlyDaemonsRunning env.machine then s
  else
    match getNextThr env.machine s.mem env.pickTime s.roundRobin with
    | (infos, none) => { s with roundRobin := infos }
    | (infos, some info) =>
      let s := { s with roundRobin := infos }
      if isSleeping env.machine s.mem env.time info then s
      else
        let s := s.setInfo info.thread fun info => { info with wakeupInfo := none }
        if info.callQueue = [] then { s with roundRobin := s.roundRobin.dropLast }
        else { s with running := some info.thread }

/-- `unshift`, with `free_thread_info`. -/
def unshift (t : ThreadId) (threadObj : Object) : Scheduler :=
  let s := s.setInfo t fun info => { info with callQueue := info.callQueue.tail }
  match s.roundRobin.find? (·.thread = t) with
  | some info =>
    if info.callQueue = [] then
      let infos := s.roundRobin.eraseP (·.thread = t)
      { s with roundRobin := infos, mem := monitorNotifyAll infos threadObj s.mem }
    else s
  | none => s

/-- `rr_scheduler_step` behind a call that has finished. -/
def callReady (t : ThreadId) (record : Nat) (result : CallResult) (env : Env) : Scheduler :=
  { s with
    running := none
    records := update s.records record
      { isDone := true
        returned := result.returned
        jsHandle := if result.isReference && result.returned ≠ 0 then some result.jsHandle
          else none }
    finished := s.finished ++ [(t, record, result.returned)] }.unshift t (env.threadObj t)

/-- `rr_scheduler_step` behind a call that is suspended, with the record at `wakeup`. -/
def callNotReady (t : ThreadId) (wakeup : Addr) : Scheduler :=
  { s.setInfo t fun info => { info with wakeupInfo := some wakeup } with running := none }

/-- The loop of `rr_scheduler_execute_immediately` over the pending calls.  What `call` points to has
been overwritten with the next call, if there is one. -/
def executePending (t : ThreadId) (record : Nat) (env : Env) : List Nat → Scheduler → Scheduler
  | [], s => s
  | call :: calls, s =>
    match env.synchronous call with
    | none => s
    | some result =>
      let s := { s.setInfo t fun info => { info with callQueue := info.callQueue.tail } with
        finished := s.finished ++ [(t, call, result.returned)] }
      if calls.headD call = record then s else executePending t record env calls s

/-- `rr_scheduler_execute_immediately`. -/
def executeImmediately (record : Nat) (env : Env) : Scheduler :=
  let t := s.recordThread record
  match s.roundRobin.find? (·.thread = t) with
  | some info => executePending t record env info.callQueue s
  | none => s

end Scheduler

/-- What happens to the scheduler. -/
inductive Op
  /-- `rr_scheduler_run`, also from a running call -/
  | run (t : ThreadId)
  /-- `rr_scheduler_step` up to the call -/
  | step
  /-- the running call finishes -/
  | ready (result : CallResult)
  /-- the running call is suspended -/
  | notReady (wakeup : Addr)
  /-- a call or the stack writes to memory -/
  | write (a : Addr) (info : WakeupInfo)
  | executeImmediately (record : Nat)

/-- One operation; none where it is not possible. -/
def Op.apply (env : Env) (s : Scheduler) : Op → Option Scheduler
  | .run t => if s.running = some t then none else some (s.run t)
  | .step => if s.running = none then some (s.step env) else none
  | .ready result => do
    let t ← s.running
    let info ← s.roundRobin.find? (·.thread = t)
    let record ← info.callQueue.head?
    some (s.callReady t record result env)
  | .notReady wakeup => s.running.map fun t => s.callNotReady t wakeup
  | .write a info => some { s with mem := update s.mem a info }
  | .executeImmediately record =>
    if s.running = none ∧ record < s.recordCount then some (s.executeImmediately record env)
    else none

/-- The states that operations reach which meet `P`. -/
inductive Run (P : Env → Scheduler → Op → Prop) : Scheduler → Prop
  | start : Run P {}
  | step {s s' : Scheduler} {op : Op} (env : Env) :
      Run P s → op.apply env s = some s' → P env s op → Run P s'

end BJvm.Threads
