import BJvm.Insn
import BJvm.Sorted.BinarySearch
import BJvm.Sorted.Quicksort
import Mathlib.Logic.Function.Basic

/-!
# The collector

`major_gc` of `gc.c` behind the enumeration of the roots: marking, the sorted list of what is live,
the sliding copy and the rewriting of the references.  Memory is read and written in words of eight
bytes; `desc` takes the pointers to class descriptors to what the collector reads there.
-/

namespace BJvm.Collector

/-- `classdesc_kind`. -/
inductive ClassdescKind
  | ordinary | primitive | ordinaryArray | primitiveArray
  deriving DecidableEq, Repr

/-- `classdesc`. -/
structure Classdesc where
  kind : ClassdescKind
  dimensions : Nat := 0
  primitiveComponent : TypeKind := .reference
  instanceBytes : Nat := 0
  /-- `instance_references->slots_unscaled` -/
  instanceReferences : List Nat := []
  /-- `instanceof(desc, ctx->Reference)` -/
  isReference : Bool := false
  deriving DecidableEq, Repr

instance : Inhabited Classdesc := ⟨{ kind := .primitive }⟩

/-- `vm`.  `referencePendingList` is the address of the field. -/
structure Vm where
  mem : Nat → Nat
  heap : Nat
  heapCapacity : Nat
  heapUsed : Nat
  referencePendingList : Nat

/-- `in_heap`. -/
def Vm.inHeap (vm : Vm) (field : Nat) : Bool :=
  vm.heap ≤ field && field < vm.heap + vm.heapCapacity

/-! ### Objects -/

def kArrayLengthOffset : Nat := 16
def kArrayDataOffset : Nat := 32
def sizeofMonitorData : Nat := 16

/-- `align_up`. -/
def alignUp (value alignment : Nat) : Nat := (value + alignment - 1) / alignment * alignment

/-- `sizeof_type_kind`. -/
def sizeofTypeKind : TypeKind → Nat
  | .byte | .boolean => 1
  | .char | .short => 2
  | .float | .int => 4
  | .reference | .double | .long => 8
  | .void => 0

section

variable (desc : Nat → Classdesc) (mem : Nat → Nat)

/-- `has_expanded_data`. -/
def hasExpandedData (obj : Nat) : Bool := !(mem obj).testBit 0

/-- `get_mark_word`: its address. -/
def getMarkWord (obj : Nat) : Nat := if hasExpandedData mem obj then mem obj + 8 else obj

/-- `*get_flags(vm, obj) & IS_REACHABLE`. -/
def isReachable (obj : Nat) : Bool := (mem (getMarkWord mem obj)).testBit 1

/-- `*get_flags(vm, obj) |= IS_REACHABLE`. -/
def setReachable (obj : Nat) : Nat → Nat :=
  Function.update mem (getMarkWord mem obj) (mem (getMarkWord mem obj) ||| 2)

/-- `*get_flags(vm, obj) &= ~IS_REACHABLE`. -/
def clearReachable (obj : Nat) : Nat → Nat :=
  let word := mem (getMarkWord mem obj)
  Function.update mem (getMarkWord mem obj) (word ^^^ (word &&& 2))

/-- `obj->descriptor`. -/
def descriptor (obj : Nat) : Classdesc := desc (mem (obj + 8))

/-- `ArrayLength`, an `int` that is never negative. -/
def arrayLength (obj : Nat) : Nat := mem (obj + kArrayLengthOffset) % 2 ^ 32

/-- `size_of_object`. -/
def sizeOfObject (obj : Nat) : Nat :=
  let cd := descriptor desc mem obj
  match cd.kind with
  | .ordinary => cd.instanceBytes
  | .ordinaryArray => kArrayDataOffset + arrayLength mem obj * 8
  | _ => kArrayDataOffset + arrayLength mem obj * sizeofTypeKind cd.primitiveComponent

/-- The addresses of the elements of an array of references. -/
def elementSlots (obj : Nat) : List Nat :=
  (List.range (arrayLength mem obj)).map fun i => obj + kArrayDataOffset + i * 8

/-- The addresses of the fields of `instance_references`. -/
def fieldSlots (obj : Nat) : List Nat :=
  (descriptor desc mem obj).instanceReferences.map fun slot => obj + slot * 8

end

/-! ### Marking -/

/-- `gc_ctx`, in the mark phase. -/
structure MarkState where
  mem : Nat → Nat
  objs : List Nat := []
  worklist : List Nat := []

section

variable (desc : Nat → Classdesc) (vm : Vm)

/-- The object in a slot is put on the worklist, unless it has been there. -/
def MarkState.visit (st : MarkState) (slot : Nat) : MarkState :=
  let obj := st.mem slot
  if obj ≠ 0 && vm.inHeap obj && !isReachable st.mem obj then
    { st with mem := setReachable st.mem obj, worklist := st.worklist ++ [obj] }
  else st

/-- `mark_reachable`. -/
def MarkState.markReachable (st : MarkState) (obj : Nat) : MarkState :=
  let st := { st with objs := st.objs ++ [obj] }
  let st := if hasExpandedData st.mem obj then
    { st with objs := st.objs ++ [st.mem obj ||| 1] } else st
  let cd := descriptor desc st.mem obj
  if cd.kind = .ordinary then
    let refs := fieldSlots desc st.mem obj
    -- skip the 'referent' field
    (if cd.isReference then refs.drop 1 else refs).foldl (visit vm) st
  else if cd.kind = .ordinaryArray || (cd.kind = .primitiveArray && cd.dimensions > 1) then
    (elementSlots st.mem obj).foldl (visit vm) st
  else st

/-- The roots are visited without the test for a null pointer, which lies outside the heap. -/
def MarkState.visitRoot (st : MarkState) (slot : Nat) : MarkState :=
  let root := st.mem slot
  if !vm.inHeap root || isReachable st.mem root then st
  else { st with mem := setReachable st.mem root, worklist := st.worklist ++ [root] }

/-- The loop over the worklist. -/
def MarkState.drain : Nat → MarkState → Option MarkState
  | 0, _ => none
  | fuel + 1, st =>
    match st.worklist.getLast? with
    | none => some st
    | some obj =>
      let st := { st with worklist := st.worklist.dropLast }
      let st := { st with mem := setReachable st.mem obj }
      drain fuel (st.markReachable desc vm obj)

/-! ### Copying -/

/-- The low bit tells a monitor from an object. -/
def isMonitor (key : Nat) : Bool := key.testBit 0

/-- The pointer without the low bit. -/
def untag (key : Nat) : Nat := key ^^^ (key &&& 1)

/-- The state of the copy loop. -/
structure CopyState where
  mem : Nat → Nat
  writePtr : Nat
  newLocation : List Nat := []

/-- `memmove`, for whole words. -/
def memmove (mem : Nat → Nat) (dst src size : Nat) : Nat → Nat := fun a =>
  if dst ≤ a ∧ a < dst + size then mem (src + (a - dst)) else mem a

def CopyState.copy (st : CopyState) (key : Nat) : CopyState :=
  let writePtr := alignUp st.writePtr 8
  let obj := untag key
  let sz := alignUp (if isMonitor key then sizeofMonitorData else sizeOfObject desc st.mem obj) 8
  let mem := if isMonitor key then st.mem else clearReachable st.mem obj
  { mem := memmove mem writePtr obj sz
    writePtr := writePtr + sz
    newLocation := st.newLocation ++ [writePtr] }

/-! ### Relocation -/

/-- `quicksort_pointers`. -/
def quicksortPointers (ptrs : List Nat) : List Nat := Sorted.quicksort ptrs.length ptrs

/-- Where `binary_search_for_pointer` finds the pointer, and what it is relocated to. -/
def relocated (objs newLocation : List Nat) (ptr : Nat) : Option Nat :=
  (Sorted.binarySearch ptr objs).map fun i => newLocation.getD i 0

/-- `relocate_object`: whether the object could be relocated. -/
def relocateObject (objs newLocation : List Nat) (mem : Nat → Nat) (slot : Nat) :
    Bool × (Nat → Nat) :=
  if mem slot = 0 then (true, mem)
  else match relocated objs newLocation (mem slot) with
    | some location => (true, Function.update mem slot location)
    | none => (false, mem)

def relocateObjects (objs newLocation : List Nat) (mem : Nat → Nat) (slots : List Nat) :
    Nat → Nat :=
  slots.foldl (fun mem slot => (relocateObject objs newLocation mem slot).2) mem

/-- `native_Reference`. -/
def referentOffset : Nat := 16
def discoveredOffset : Nat := 40

/-- What becomes of the referent of a reference object. -/
def relocateReferent (objs newLocation : List Nat) (pendingList : Nat) (mem : Nat → Nat)
    (obj slot : Nat) : Nat → Nat :=
  let (found, mem) := relocateObject objs newLocation mem slot
  if found then mem
  else
    let mem := Function.update mem (obj + referentOffset) 0
    if mem (obj + discoveredOffset) = 0 then
      let mem := Function.update mem (obj + discoveredOffset) (mem pendingList)
      Function.update mem pendingList obj
    else mem

/-- The monitor is re-mapped, if any; `none` when it is not found. -/
def remapMonitor (objs newLocation : List Nat) (mem : Nat → Nat) (obj : Nat) :
    Option (Nat → Nat) :=
  if hasExpandedData mem obj then
    (relocated objs newLocation (mem obj ||| 1)).map (Function.update mem obj)
  else some mem

/-- One turn of the loop of `relocate_instance_fields`. -/
def relocateFieldsOf (objs newLocation : List Nat) (mem : Nat → Nat) (key obj : Nat) :
    Option (Nat → Nat) :=
  if isMonitor key then some mem
  else (remapMonitor objs newLocation mem obj).map fun mem =>
    let cd := descriptor desc mem obj
    if cd.kind = .ordinary then
      let refs := fieldSlots desc mem obj
      let mem := relocateObjects objs newLocation mem (if cd.isReference then refs.drop 1 else refs)
      if cd.isReference then
        relocateReferent objs newLocation vm.referencePendingList mem obj (refs.getD 0 0)
      else mem
    else if cd.kind = .ordinaryArray || (cd.kind = .primitiveArray && cd.dimensions > 1) then
      relocateObjects objs newLocation mem (elementSlots mem obj)
    else mem

/-- `relocate_instance_fields`. -/
def relocateInstanceFields (objs newLocation : List Nat) (mem : Nat → Nat) : Option (Nat → Nat) :=
  (objs.zip newLocation).foldlM
    (fun mem p => relocateFieldsOf desc vm objs newLocation mem p.1 p.2) mem

/-- `major_gc`, with the roots that the enumeration has found.  `none` is the call of `abort`, or a
worklist that does not get empty in as many turns as the heap has bytes. -/
def majorGc (roots : List Nat) : Option Vm := do
  let st := roots.foldl (MarkState.visitRoot vm) { mem := vm.mem }
  let st ← st.drain desc vm (vm.heapCapacity + 1)
  let objs := quicksortPointers st.objs
  let copied := objs.foldl (CopyState.copy desc) { mem := st.mem, writePtr := vm.heap }
  let mem := relocateObjects objs copied.newLocation copied.mem roots
  let mem ← relocateInstanceFields desc vm objs copied.newLocation mem
  some { vm with mem := mem, heapUsed := alignUp (copied.writePtr - vm.heap) 8 }

/-- Where `major_gc` puts the objects that it keeps: `ctx.new_location` without the monitors. -/
def keptObjects (roots : List Nat) : Option (List Nat) := do
  let st := roots.foldl (MarkState.visitRoot vm) { mem := vm.mem }
  let st ← st.drain desc vm (vm.heapCapacity + 1)
  let objs := quicksortPointers st.objs
  let copied := objs.foldl (CopyState.copy desc) { mem := st.mem, writePtr := vm.heap }
  some (((objs.zip copied.newLocation).filter fun p => !isMonitor p.1).map Prod.snd)

end

end BJvm.Collector
