import BJvm.Threads.ThreadObjects

/-!
# Parking

`Unsafe.park` and `unpark`, and interrupts.  The flag `unpark_permit` of a thread is set by `unpark`
and read by `is_sleeping`; the history says what the permit should be.
-/

namespace BJvm.Threads

open Function (update)

/-- The threads with their flags.  `permit`: an unpark has come since the last park returned;
`unparks` and `released`: how many unparks there were, and how many parks ended for no other
reason. -/
structure ParkState where
  threads : ThreadState := {}
  unparkPermit : ThreadId → Bool := fun _ => false
  interrupted : Object → Bool := fun _ => false
  aborted : Bool := false
  permit : ThreadId → Bool := fun _ => false
  unparks : ThreadId → Nat := fun _ => 0
  released : ThreadId → Nat := fun _ => 0

/-- `Unsafe.park` up to the wakeup time, in microseconds: none where it returns at once. -/
def parkDeadline (isAbsolute : Bool) (time : Int) (startUs : Nat) : Option Nat :=
  if time < 0 then none
  else if isAbsolute then
    let deadline := time.toNat * 1000 % 2 ^ 64
    if deadline < startUs then none else some deadline
  else if time = 0 then some 0
  else some ((startUs + time.toNat / 1000) % 2 ^ 64)

/-- The thread waits on a record of `park` at this address. -/
def Scheduler.ParkedAt (s : Scheduler) (t : ThreadId) (a : Addr) : Prop :=
  ∃ info ∈ s.roundRobin, info.thread = t ∧ info.wakeupInfo = some a ∧ (s.mem a).kind = .threadPark

def Scheduler.parked (s : Scheduler) (t : ThreadId) : Bool :=
  s.roundRobin.any fun info =>
    info.thread = t ∧ info.wakeupInfo.any fun a => (s.mem a).kind = .threadPark

/-- Some thread waits on the record at this address. -/
def Scheduler.inUse (s : Scheduler) (a : Addr) : Bool :=
  s.roundRobin.any fun info => info.wakeupInfo = some a

/-- The wakeup time has passed. -/
def WakeupInfo.timedOut (wakeup : WakeupInfo) (time : Nat) : Bool :=
  wakeup.wakeupUs ≠ 0 ∧ wakeup.wakeupUs < time

def Scheduler.timedOut (s : Scheduler) (t : ThreadId) (time : Nat) : Bool :=
  s.roundRobin.any fun info =>
    info.thread = t ∧ info.wakeupInfo.any fun a => (s.mem a).timedOut time

namespace ParkState

variable (s : ParkState)

abbrev scheduler : Scheduler := s.threads.scheduler

def isInterrupted (t : ThreadId) : Bool := s.interrupted (s.threads.threadObj t)

/-- What the scheduler reads of the threads. -/
def machine (m : Machine) : Machine :=
  { m with unparkPermit := s.unparkPermit, interrupted := s.isInterrupted }

/-- A park that returns at once. -/
def parkReturns (t : ThreadId) : ParkState := { s with permit := update s.permit t false }

/-- The record of `park` at `a`. -/
def parkRecord (deadline : Nat) (a : Addr) : Memory :=
  update s.scheduler.mem a { kind := .threadPark, wakeupUs := deadline }

/-- A park that waits. -/
def parkYields (t : ThreadId) (deadline : Nat) (a : Addr) : ParkState :=
  { s with threads.scheduler :=
      { s.scheduler with mem := s.parkRecord deadline a }.callNotReady t a }

/-- `set_unpark_permit` -/
def setUnparkPermit (t : ThreadId) : ParkState :=
  { s with
    unparkPermit := update s.unparkPermit t true
    permit := update s.permit t true
    unparks := update s.unparks t (s.unparks t + 1) }

/-- The thread runs again that was parked. -/
def resumes (sched : Scheduler) (t : ThreadId) : Bool :=
  sched.running = some t ∧ s.scheduler.parked t

/-- The history behind a step of the scheduler. -/
def behindStep (sched : Scheduler) (time : Nat) : ParkState :=
  { s with
    threads.scheduler := sched
    permit := fun t => if s.resumes sched t then false else s.permit t
    released := fun t =>
      if s.resumes sched t ∧ !s.isInterrupted t ∧ !s.scheduler.timedOut t time then
        s.released t + 1
      else s.released t }

/-- A new thread starts without a permit. -/
def behindStart (threads : ThreadState) : ParkState :=
  let t := s.threads.threadCount
  { s with
    threads
    unparkPermit := update s.unparkPermit t false
    permit := update s.permit t false }

end ParkState

/-- What happens to the threads; a call that is suspended in another way than by `park` has written a
record of another kind. -/
inductive ParkOp
  /-- `Unsafe.park` -/
  | park (isAbsolute : Bool) (time : Int) (a : Addr)
  /-- `Unsafe.unpark` -/
  | unpark (obj : Object)
  /-- `Thread.interrupt0` -/
  | interrupt (obj : Object)
  /-- the running thread clears its interrupt -/
  | clearInterrupt
  | threads (op : ThreadOp)

/-- The memory of a suspended call belongs to that call, only `park` makes its kind of records, and
no call is made synchronously. -/
def ThreadOp.allowed (s : ThreadState) : ThreadOp → Bool
  | .scheduler (.write a info) => !s.scheduler.inUse a ∧ info.kind ≠ .threadPark
  | .scheduler (.notReady a) => (s.scheduler.mem a).kind ≠ .threadPark
  | .scheduler (.executeImmediately _) => false
  | _ => true

/-- What becomes of the history. -/
def ParkState.behind (s : ParkState) (threads : ThreadState) (time : Nat) : ThreadOp → ParkState
  | .scheduler .step => s.behindStep threads.scheduler time
  | .scheduler _ => { s with threads }
  | _ => s.behindStart threads

/-- One operation; none where it is not possible.  With `assertions`, `unpark` aborts for a thread
that is not alive. -/
def ParkOp.apply (assertions : Bool) (env : Env) (s : ParkState) : ParkOp → Option ParkState
  | .park isAbsolute time a => do
    let t ← s.scheduler.running
    match parkDeadline isAbsolute time env.time with
    | none => some (s.parkReturns t)
    | some deadline => if s.scheduler.inUse a then none else some (s.parkYields t deadline a)
  | .unpark obj =>
    match s.threads.eetop obj with
    | some t => some (s.setUnparkPermit t)
    | none => if assertions then some { s with aborted := true } else some s
  | .interrupt obj => some { s with interrupted := update s.interrupted obj true }
  | .clearInterrupt => s.scheduler.running.map fun t =>
      { s with interrupted := update s.interrupted (s.threads.threadObj t) false }
  | .threads op =>
    if op.allowed s.threads then
      (op.apply { env with machine := s.machine env.machine } s.threads).map fun threads =>
        s.behind threads env.time op
    else none

/-- The states that operations reach which meet `P`. -/
inductive ParkRun (assertions : Bool) (P : Env → ParkState → ParkOp → Prop) : ParkState → Prop
  | start : ParkRun assertions P {}
  | step {s s' : ParkState} {op : ParkOp} (env : Env) : ParkRun assertions P s →
      op.apply assertions env s = some s' → P env s op → ParkRun assertions P s'

/-- A parked thread sleeps exactly while it has no permit, is not interrupted and its time has not
passed, and no more parks end for a permit than there were unparks. -/
structure ParksRight (s : ParkState) : Prop where
  sleeping : ∀ info ∈ s.scheduler.roundRobin, ∀ a, info.wakeupInfo = some a →
    (s.scheduler.mem a).kind = .threadPark → ∀ m time,
      isSleeping (s.machine m) s.scheduler.mem time info =
        (!s.permit info.thread && !s.isInterrupted info.thread &&
          !(s.scheduler.mem a).timedOut time)
  consumed : ∀ t, s.released t + (s.permit t).toNat ≤ s.unparks t
  running : s.aborted = false

/-- A park ends only where the thread runs again, for a permit, an interrupt or its time; the unpark
of a thread that is not alive changes nothing. -/
structure StepsRight (assertions : Bool) (s : ParkState) : Prop where
  ends : ∀ env op s' t a, ParkOp.apply assertions env s op = some s' →
    s.scheduler.ParkedAt t a → ¬ s'.scheduler.ParkedAt t a → s'.scheduler.running = some t ∧
      (s.permit t || s.isInterrupted t || (s.scheduler.mem a).timedOut env.time) = true
  dead : ∀ env obj s', s.threads.eetop obj = none → assertions = false →
    (ParkOp.unpark obj).apply assertions env s = some s' → s' = s

/-- The flag is not left over from a permit that has been consumed, or does not matter. -/
def ParkState.NotStale (s : ParkState) (t : ThreadId) : Prop :=
  s.unparkPermit t = true → s.permit t = true ∨ s.isInterrupted t = true

/-- No thread waits in `park` with a flag left over, and with assertions only threads that are alive
are unparked. -/
def ParksFresh (assertions : Bool) (env : Env) (s : ParkState) : ParkOp → Prop
  | .park isAbsolute time _ => parkDeadline isAbsolute time env.time ≠ none →
      ∀ t, s.scheduler.running = some t → s.NotStale t
  | .unpark obj => assertions = true → s.threads.eetop obj ≠ none
  | .clearInterrupt => ∀ t, s.scheduler.running = some t → ∀ t', s.scheduler.parked t' →
      s.threads.threadObj t' = s.threads.threadObj t →
      s.unparkPermit t' = true → s.permit t' = true
  | _ => True

end BJvm.Threads
