import BJvm.Threads.RoundRobin

/-!
# Thread objects

The field `eetop` of a `java.lang.Thread`: the thread that runs it, or null.  It is set where a
thread is made (`create_main_thread` in `bjvm.c`, `Thread.start0`), and cleared where the scheduler
frees what it knows of a thread.
-/

namespace BJvm.Threads

open Function (update)

/-- The threads and their objects; those in `mains` have been made by `create_main_thread`. -/
structure ThreadState where
  scheduler : Scheduler := {}
  threadCount : Nat := 0
  threadObj : ThreadId → Object := fun _ => 0
  eetop : Object → Option ThreadId := fun _ => none
  mains : List ThreadId := []

/-- The thread exists that a call is enqueued for. -/
def Op.forThread (threadCount : Nat) : Op → Bool
  | .run t => t < threadCount
  | _ => true

/-- `unshift` goes on to `free_thread_info`. -/
def Scheduler.freesThreadInfo (s : Scheduler) (t : ThreadId) : Bool :=
  (s.roundRobin.find? (·.thread = t)).elim false (·.callQueue.tail = [])

namespace ThreadState

variable (s : ThreadState)

/-- A thread is made for the object. -/
def makeThread (obj : Object) : ThreadState :=
  { s with
    threadCount := s.threadCount + 1
    threadObj := update s.threadObj s.threadCount obj
    eetop := update s.eetop obj (some s.threadCount) }

/-- `create_main_thread`. -/
def createMainThread (obj : Object) : ThreadState :=
  { s.makeThread obj with mains := s.threadCount :: s.mains }

/-- `Thread.start0`, with `create_vm_thread`. -/
def start0 (obj : Object) : ThreadState :=
  { s.makeThread obj with scheduler := s.scheduler.run s.threadCount }

/-- The fields behind a call of the thread: `free_thread_info` clears the one of its object. -/
def eetopReady (t : ThreadId) : Object → Option ThreadId :=
  if s.scheduler.freesThreadInfo t then update s.eetop (s.threadObj t) none else s.eetop

/-- The fields behind an operation of the scheduler. -/
def eetopAfter : Op → Object → Option ThreadId
  | .ready _ => s.scheduler.running.elim s.eetop s.eetopReady
  | _ => s.eetop

/-- The thread has calls queued or running. -/
def HasCalls (t : ThreadId) : Prop :=
  ∃ info ∈ s.scheduler.roundRobin, info.thread = t ∧ info.callQueue ≠ []

/-- The thread has been made by `create_main_thread`, and no call has been enqueued yet. -/
def Unused (t : ThreadId) : Prop := t ∈ s.mains ∧ ∀ r, (t, r) ∉ s.scheduler.enqueued

def Alive (t : ThreadId) : Prop := s.HasCalls t ∨ s.Unused t

end ThreadState

/-- What happens to the threads. -/
inductive ThreadOp
  | createMainThread (obj : Object)
  | start0 (obj : Object)
  | scheduler (op : Op)

/-- One operation; none where it is not possible. -/
def ThreadOp.apply (env : Env) (s : ThreadState) : ThreadOp → Option ThreadState
  | .createMainThread obj =>
    if (s.eetop obj).isNone ∧ ∀ t < s.threadCount, s.threadObj t ≠ obj then
      some (s.createMainThread obj)
    else none
  | .start0 obj => some (s.start0 obj)
  | .scheduler op =>
    if op.forThread s.threadCount then
      (op.apply { env with threadObj := s.threadObj } s.scheduler).map fun scheduler =>
        { s with scheduler, eetop := s.eetopAfter op }
    else none

/-- The states that operations reach which meet `P`. -/
inductive ThreadRun (P : Env → ThreadState → ThreadOp → Prop) : ThreadState → Prop
  | start : ThreadRun P {}
  | step {s s' : ThreadState} {op : ThreadOp} (env : Env) :
      ThreadRun P s → op.apply env s = some s' → P env s op → ThreadRun P s'

/-- `eetop` is set exactly while the thread of the object has calls queued or running, or is a main
thread that waits for its first call, and names that thread. -/
structure EetopRight (s : ThreadState) : Prop where
  alive : ∀ obj, (s.eetop obj).isSome = true ↔ ∃ t, s.threadObj t = obj ∧ s.Alive t
  names : ∀ obj t, s.eetop obj = some t → s.threadObj t = obj ∧ s.Alive t

/-- `rr_scheduler_execute_immediately` makes all of the calls. -/
def RunsEmpty (env : Env) (record : Nat) (calls : List Nat) : Prop :=
  calls ≠ [] ∧ (∀ call ∈ calls, (env.synchronous call).isSome) ∧ record ∉ calls.tail

/-- A call is enqueued only for an object whose `eetop` is set; when the last call of a thread
finishes, no other thread of its object is alive; and no thread is left without calls by
`rr_scheduler_execute_immediately`. -/
def KeepsEetop (env : Env) (s : ThreadState) : ThreadOp → Prop
  | .scheduler (.run t) => (s.eetop (s.threadObj t)).isSome
  | .scheduler (.ready _) => ∀ t, s.scheduler.running = some t → s.scheduler.freesThreadInfo t →
      ∀ t', s.Alive t' → s.threadObj t' = s.threadObj t → t' = t
  | .scheduler (.executeImmediately record) => ∀ info ∈ s.scheduler.roundRobin,
      info.thread = s.scheduler.recordThread record → ¬ RunsEmpty env record info.callQueue
  | _ => True

end BJvm.Threads
