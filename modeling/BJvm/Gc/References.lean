import BJvm.Gc.HeapGraph

/-!
# Reference objects over a run

The heap while the program runs and is collected from time to time.  Of what the program does only
its dealing with `java.lang.ref.Reference` matters: the referent is set when the object is made, and
`discovered` is cleared when a reference has been taken off the list of the pending ones.
-/

namespace BJvm.Collector

/-- The memory, the objects in it and the addresses of the roots. -/
structure HeapState where
  vm : Vm
  objects : List Nat
  roots : List Nat

namespace HeapState

variable (desc : Nat → Classdesc) (s : HeapState)

/-- `vm->reference_pending_list` -/
def pendingHead : Nat := s.vm.mem s.vm.referencePendingList

/-- The object is in the list of the pending references. -/
def Pending (o : Nat) : Prop := ∃ l tail, Chain s.vm.mem s.pendingHead (l ++ [o]) tail

abbrev Reaches (o : Nat) : Prop := Reachable s.vm s.roots (strongOffsets desc s.vm.mem) o

/-- The heap is well formed, and the list of the pending references is one of the roots. -/
structure Valid : Prop where
  wellFormed : WellFormed desc s.vm s.objects s.roots
  pendingRoot : s.vm.referencePendingList ∈ s.roots

end HeapState

section

variable (desc : Nat → Classdesc)

/-- What the program does between two collections. -/
structure Mutates (s s' : HeapState) : Prop where
  valid : s'.Valid desc
  list : s'.vm.referencePendingList = s.vm.referencePendingList
  /-- `getAndClearReferencePendingList` empties the list. -/
  pending : s'.pendingHead = s.pendingHead ∨ s'.pendingHead = 0
  objects : ∀ o ∈ s.objects, o ∈ s'.objects ∧
    descriptor desc s'.vm.mem o = descriptor desc s.vm.mem o
  /-- A referent is cleared, or set by the constructor. -/
  referent : ∀ o ∈ s.objects, IsReference desc s.vm.mem o →
    s'.vm.mem (o + referentOffset) = s.vm.mem (o + referentOffset) ∨
      s'.vm.mem (o + referentOffset) = 0 ∨
      s'.vm.mem (o + discoveredOffset) = 0 ∧ ¬ s'.Pending o
  discovered : ∀ o ∈ s.objects, IsReference desc s.vm.mem o →
    s'.vm.mem (o + discoveredOffset) = s.vm.mem (o + discoveredOffset) ∨
      s'.vm.mem (o + discoveredOffset) = 0 ∧ ¬ s'.Pending o
  new : ∀ o ∈ s'.objects, o ∉ s.objects → IsReference desc s'.vm.mem o →
    s'.vm.mem (o + discoveredOffset) = 0

/-- The heaps that the program and collections reach, from one in which no reference has been
discovered. -/
inductive HeapRun : HeapState → Prop
  | start {s : HeapState} : s.Valid desc → s.pendingHead = 0 →
      (∀ o ∈ s.objects, IsReference desc s.vm.mem o → s.vm.mem (o + discoveredOffset) = 0) →
      HeapRun s
  | mutate {s s' : HeapState} : HeapRun s → Mutates desc s s' → HeapRun s'
  | collect {s : HeapState} {vm : Vm} {objects : List Nat} : HeapRun s →
      majorGc desc s.vm s.roots = some vm → keptObjects desc s.vm s.roots = some objects →
      HeapRun ⟨vm, objects, s.roots⟩

/-- What a collection does to the references: a referent is cleared if and only if it is not reached
without referents, and points to the moved object otherwise; the references that have lost theirs
are put in front of the pending ones `old`, and the list ends and has nothing in it twice. -/
structure ReferencesHandled (s : HeapState) (old linked : List Nat) (f : Nat → Nat) (vm' : Vm) :
    Prop where
  collected : Collected desc s.vm s.roots (strongOffsets desc s.vm.mem) linked f vm'
  cleared : ∀ o, s.Reaches desc o → IsReference desc s.vm.mem o →
    (vm'.mem (f o + referentOffset) = 0 ↔ ¬ s.Reaches desc (s.vm.mem (o + referentOffset)))
  kept : ∀ o, s.Reaches desc o → IsReference desc s.vm.mem o →
    s.Reaches desc (s.vm.mem (o + referentOffset)) →
    vm'.mem (f o + referentOffset) = f (s.vm.mem (o + referentOffset))
  mem_linked : ∀ o, o ∈ linked ↔ s.Reaches desc o ∧ IsReference desc s.vm.mem o ∧
    s.vm.mem (o + referentOffset) ≠ 0 ∧ ¬ s.Reaches desc (s.vm.mem (o + referentOffset))
  pendingBefore : Chain s.vm.mem s.pendingHead old 0
  pending : Chain vm'.mem (vm'.mem s.vm.referencePendingList) ((linked.reverse ++ old).map f) 0
  once : ((linked.reverse ++ old).map f).Nodup

end

end BJvm.Collector
