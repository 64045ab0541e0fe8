import BJvm.Gc.HeapGraph
import BJvm.Gc.Roots

/-!
# Pending calls and execution records

What the scheduler of `roundrobin_scheduler.c` holds across a collection: the argument arrays of the
queued and suspended calls, and the results of the finished ones, which are read through a handle.
-/

namespace BJvm.Gc

open Function (update)

/-- `execution_record`; `jsHandle` is `none` for -1. -/
structure ExecutionRecord where
  isDone : Bool := false
  returned : Nat := 0
  jsHandle : Option Nat := some 0
  deriving DecidableEq, Repr

/-- `deref_js_handle`. -/
def Vm.derefJsHandle (vm : Vm) (index : Nat) : Nat := (vm.jsHandles[index]?).elim 0 vm.mem

/-- The array of `stb_ds.h` at `base`. -/
def writeArray (mem : Nat → Nat) (base : Nat) (values : List Nat) : Nat → Nat := fun a =>
  if base ≤ a ∧ (a - base) % 8 = 0 ∧ (a - base) / 8 < values.length then
    values.getD ((a - base) / 8) 0
  else mem a

/-- `make_js_handle`; `base` is where the array lies when it has got one more element. -/
def Vm.makeJsHandle (vm : Vm) (obj base : Nat) : Vm × Nat :=
  match vm.jsHandles.findIdx? fun slot => vm.mem slot = 0 with
  | some i => ({ vm with mem := update vm.mem (vm.jsHandles.getD i 0) obj }, i)
  | none =>
    let values := vm.jsHandles.map vm.mem ++ [obj]
    ({ vm with
       mem := writeArray vm.mem base values
       jsHandles := (List.range values.length).map fun i => base + i * 8 }, vm.jsHandles.length)

/-- `rr_scheduler_step`, where the call of a record has finished. -/
def Vm.finishCall (vm : Vm) (returnsReference : Bool) (result base : Nat) : Vm × ExecutionRecord :=
  if returnsReference && result ≠ 0 then
    let (vm, handle) := vm.makeJsHandle result base
    (vm, { isDone := true, returned := result, jsHandle := some handle })
  else (vm, { isDone := true, returned := result, jsHandle := none })

/-- `ffi_get_execution_record_result_pointer`: what the pointer points to. -/
def Vm.executionRecordResult (vm : Vm) (record : ExecutionRecord) : Nat :=
  match record.jsHandle with
  | some handle => vm.derefJsHandle handle
  | none => record.returned

/-- The address that a result of object type is read from. -/
def Vm.resultSlot (vm : Vm) (record : ExecutionRecord) : Option Nat :=
  record.jsHandle.bind (vm.jsHandles[·]?)

/-- What `major_gc` sees of the VM besides the roots. -/
def Vm.collector (vm : Vm) (heapUsed : Nat) : Collector.Vm where
  mem := vm.mem
  heap := vm.heap
  heapCapacity := vm.heapCapacity
  heapUsed
  referencePendingList := vm.referencePendingList

end BJvm.Gc
