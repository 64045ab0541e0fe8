import BJvm.Threads.RoundRobin

/-!
# Handles of JavaScript

`js_handles` in `bjvm.c`: objects that are held by an index.  JavaScript makes handles and drops
them; the scheduler makes one for the result of a call, and it is dropped with the execution record.
-/

namespace BJvm.Threads

/-- `deref_js_handle`. -/
def derefJsHandle (table : List Object) (index : Nat) : Object := (table[index]?).getD 0

/-- `make_js_handle`. -/
def makeJsHandle (table : List Object) (obj : Object) : List Object × Nat :=
  match table.findIdx? (· = 0) with
  | some i => (table.set i obj, i)
  | none => (table ++ [obj], table.length)

/-- `drop_js_handle`. -/
def dropJsHandle (table : List Object) (index : Nat) : List Object := table.set index 0

/-- Who has to drop a handle. -/
inductive Owner
  | javaScript
  | record (r : Nat)
deriving DecidableEq, Repr

/-- A handle that has not been dropped, and the object it was made for. -/
structure JsHandle where
  index : Nat
  owner : Owner
  object : Object
deriving DecidableEq, Repr

/-- The scheduler and the handles; `live` and `freed` are the history of both. -/
structure HandleState where
  scheduler : Scheduler := {}
  table : List Object := []
  live : List JsHandle := []
  freed : List Nat := []

namespace HandleState

variable (s : HandleState)

/-- `make_js_handle`, noted as its owner's. -/
def make (owner : Owner) (obj : Object) : HandleState :=
  let made := makeJsHandle s.table obj
  { s with table := made.1, live := ⟨made.2, owner, obj⟩ :: s.live }

/-- The handle is the one in the execution record. -/
def heldBy (r : Nat) (h : JsHandle) : Bool :=
  h.owner = .record r ∧ (s.scheduler.records r).jsHandle = some h.index

/-- `free_execution_record`. -/
def freeExecutionRecord (r : Nat) : HandleState :=
  { s with
    table := (s.scheduler.records r).jsHandle.elim s.table (dropJsHandle s.table)
    live := s.live.filter fun h => !s.heldBy r h
    freed := r :: s.freed }

/-- `rr_scheduler_step` behind a call that has finished. -/
def callReady (t : ThreadId) (r : Nat) (result : CallResult) (env : Env) : HandleState :=
  if result.isReference && result.returned ≠ 0 then
    let jsHandle := (makeJsHandle s.table result.returned).2
    { s.make (.record r) result.returned with
      scheduler := s.scheduler.callReady t r { result with jsHandle } env }
  else { s with scheduler := s.scheduler.callReady t r result env }

/-- A collection moves the objects, and the table is one of its roots. -/
def collect (f : Object → Object) : HandleState :=
  let forward := fun obj => if obj = 0 then 0 else f obj
  { s with
    table := s.table.map forward
    live := s.live.map fun h => { h with object := forward h.object } }

end HandleState

/-- What happens to the scheduler and the handles. -/
inductive HandleOp
  /-- JavaScript makes a handle -/
  | create (obj : Object)
  /-- JavaScript drops a handle that it has made -/
  | drop (h : JsHandle)
  /-- JavaScript frees the record of a call, or the scheduler does when it is shut down -/
  | free (r : Nat)
  | collect (f : Object → Object)
  /-- the running call finishes -/
  | ready (result : CallResult)
  /-- any other operation of the scheduler -/
  | scheduler (op : Op)

/-- The operation works with a record that has been freed. -/
def Op.usesFreed (freed : List Nat) : Op → Bool
  | .executeImmediately r => r ∈ freed
  | _ => false

/-- One operation; none where it is not possible. -/
def HandleOp.apply (env : Env) (s : HandleState) : HandleOp → Option HandleState
  | .create obj => if obj = 0 then none else some (s.make .javaScript obj)
  | .drop h =>
    if h ∈ s.live ∧ h.owner = .javaScript then
      some { s with table := dropJsHandle s.table h.index, live := s.live.erase h }
    else none
  | .free r =>
    if r < s.scheduler.recordCount ∧ r ∉ s.freed then some (s.freeExecutionRecord r) else none
  | .collect f => if ∀ obj ∈ s.table, obj ≠ 0 → f obj ≠ 0 then some (s.collect f) else none
  | .ready result => do
    let t ← s.scheduler.running
    let info ← s.scheduler.roundRobin.find? (·.thread = t)
    let r ← info.callQueue.head?
    if r ∈ s.freed then none else some (s.callReady t r result env)
  | .scheduler (.ready _) => none
  | .scheduler op =>
    if op.usesFreed s.freed then none
    else (op.apply env s.scheduler).map fun scheduler => { s with scheduler }

/-- The states that operations reach which meet `P`. -/
inductive HandleRun (P : HandleState → HandleOp → Prop) : HandleState → Prop
  | start : HandleRun P {}
  | step {s s' : HandleState} {op : HandleOp} (env : Env) :
      HandleRun P s → op.apply env s = some s' → P s op → HandleRun P s'

/-- Every handle that has not been dropped gives its own object, and has an index of its own. -/
structure HandlesKept (s : HandleState) : Prop where
  deref : ∀ h ∈ s.live, h.object ≠ 0 ∧ derefJsHandle s.table h.index = h.object
  distinct : (s.live.map JsHandle.index).Nodup

/-- The record of a call that the scheduler has completed may be freed; that of another call only
while no handle has the index 0, which a record starts with. -/
def MayFree (s : HandleState) (r : Nat) : Prop :=
  (s.scheduler.records r).isDone = true ∨ ∀ h ∈ s.live, h.index ≠ 0

/-- Every record that is freed may be freed. -/
def FreesCompleted (s : HandleState) : HandleOp → Prop
  | .free r => MayFree s r
  | _ => True

end BJvm.Threads
