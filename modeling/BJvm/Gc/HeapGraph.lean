import BJvm.Gc.Collector

/-!
# Heap graphs

What the heap looks like between two steps of the virtual machine: objects and monitors in blocks of
their own, references to objects only, and no mark bit set.  A collection takes such a heap to one
in which the reachable part of the graph has been moved (`Collected`).
-/

namespace BJvm.Collector

section

variable (desc : Nat → Classdesc) (mem : Nat → Nat)

/-- The offsets of the references in an object. -/
def referenceOffsets (obj : Nat) : List Nat :=
  match (descriptor desc mem obj).kind with
  | .ordinary => (descriptor desc mem obj).instanceReferences.map (· * 8)
  | .ordinaryArray => (List.range (arrayLength mem obj)).map fun i => kArrayDataOffset + i * 8
  | _ => []

/-- The object is a `java.lang.ref.Reference`. -/
def IsReference (obj : Nat) : Prop :=
  (descriptor desc mem obj).kind = .ordinary ∧ (descriptor desc mem obj).isReference = true

instance (obj : Nat) : Decidable (IsReference desc mem obj) :=
  inferInstanceAs (Decidable (_ ∧ _))

/-- The offsets of the references that keep what they refer to: all but the referent. -/
def strongOffsets (obj : Nat) : List Nat :=
  if IsReference desc mem obj then (referenceOffsets desc mem obj).drop 1
  else referenceOffsets desc mem obj

/-- An object, and its monitor with the low bit set. -/
def keys (obj : Nat) : List Nat :=
  obj :: if hasExpandedData mem obj then [mem obj + 1] else []

/-- The bytes that an object or a monitor takes up. -/
def span (key : Nat) : Nat :=
  alignUp (if isMonitor key then sizeofMonitorData else sizeOfObject desc mem key) 8

end

/-- How objects of a class are laid out, as linking the class makes it. -/
structure Classdesc.Layout (cd : Classdesc) : Prop where
  notPrimitive : cd.kind ≠ .primitive
  header : cd.kind = .ordinary → 16 ≤ cd.instanceBytes
  distinct : cd.kind = .ordinary → cd.instanceReferences.Nodup
  inside : cd.kind = .ordinary → ∀ slot ∈ cd.instanceReferences,
    2 ≤ slot ∧ slot * 8 + 8 ≤ cd.instanceBytes
  /-- The fields `referent`, `queue`, `next` and `discovered` of `native_Reference`. -/
  reference : cd.kind = .ordinary → cd.isReference = true →
    cd.instanceReferences.take 4 = [2, 3, 4, 5]
  /-- The class of an array of arrays is that of an array of objects. -/
  oneDimension : cd.kind = .primitiveArray → cd.dimensions ≤ 1

section

variable (desc : Nat → Classdesc) (vm : Vm)

/-- The heap holds the given objects, and the roots are slots outside it. -/
structure WellFormed (objects roots : List Nat) : Prop where
  heapAligned : 0 < vm.heap ∧ vm.heap % 8 = 0
  used : vm.heapUsed ≤ vm.heapCapacity
  aligned : ∀ o ∈ objects, o % 8 = 0
  /-- A monitor is allocated when its object has been. -/
  monitor : ∀ o ∈ objects, hasExpandedData vm.mem o = true → vm.mem o % 8 = 0 ∧ o < vm.mem o
  layout : ∀ o ∈ objects, (descriptor desc vm.mem o).Layout
  inside : ∀ o ∈ objects, ∀ k ∈ keys vm.mem o,
    vm.heap ≤ untag k ∧ untag k + span desc vm.mem k ≤ vm.heap + vm.heapUsed
  disjoint : ∀ o ∈ objects, ∀ k ∈ keys vm.mem o, ∀ o' ∈ objects, ∀ k' ∈ keys vm.mem o',
    (o = o' ∧ k = k') ∨ untag k + span desc vm.mem k ≤ untag k' ∨
      untag k' + span desc vm.mem k' ≤ untag k
  unmarked : ∀ o ∈ objects, isReachable vm.mem o = false
  references : ∀ o ∈ objects, ∀ d ∈ referenceOffsets desc vm.mem o,
    vm.inHeap (vm.mem (o + d)) = true → vm.mem (o + d) ∈ objects
  rootsDistinct : roots.Nodup
  rootsOutside : ∀ r ∈ roots, vm.inHeap r = false
  rootTargets : ∀ r ∈ roots, vm.inHeap (vm.mem r) = true → vm.mem r ∈ objects
  /-- The list of pending references is a root, unless it is empty. -/
  pending : vm.inHeap vm.referencePendingList = false ∧
    (vm.referencePendingList ∈ roots ∨ vm.inHeap (vm.mem vm.referencePendingList) = false)

/-- What the references at the given offsets lead to from the roots. -/
inductive Reachable (roots : List Nat) (offsets : Nat → List Nat) : Nat → Prop
  | root {r : Nat} : r ∈ roots → vm.inHeap (vm.mem r) = true →
      Reachable roots offsets (vm.mem r)
  | field {o d : Nat} : Reachable roots offsets o → d ∈ offsets o →
      vm.inHeap (vm.mem (o + d)) = true → Reachable roots offsets (vm.mem (o + d))

/-- A reference after the objects have moved; null and what is outside the heap stays. -/
def forward (f : Nat → Nat) (ref : Nat) : Nat := if vm.inHeap ref then f ref else ref

/-- The graph reachable from the roots through the references at the given offsets has been moved to
`f`, objects and monitors, and everything in it has been kept; but the references in `linked` have
been put on the pending list. -/
structure Collected (roots : List Nat) (offsets : Nat → List Nat) (linked : List Nat)
    (f : Nat → Nat) (vm' : Vm) : Prop where
  root : ∀ r ∈ roots, r ≠ vm.referencePendingList ∨ linked = [] →
    vm'.mem r = forward vm f (vm.mem r)
  field : ∀ o, Reachable vm roots offsets o → ∀ d ∈ offsets o,
    d ≠ discoveredOffset ∨ o ∉ linked → vm'.mem (f o + d) = forward vm f (vm.mem (o + d))
  /-- The class, the length of an array and the primitive data. -/
  data : ∀ o, Reachable vm roots offsets o → ∀ d, 8 ≤ d → d < span desc vm.mem o →
    d ∉ referenceOffsets desc vm.mem o → vm'.mem (f o + d) = vm.mem (o + d)
  /-- The mark word, with the identity hash code. -/
  header : ∀ o, Reachable vm roots offsets o → hasExpandedData vm.mem o = false →
    vm'.mem (f o) = vm.mem o
  monitor : ∀ o, Reachable vm roots offsets o → hasExpandedData vm.mem o = true →
    vm'.mem (f o) = f (vm.mem o + 1) ∧
      ∀ d < sizeofMonitorData, vm'.mem (f (vm.mem o + 1) + d) = vm.mem (vm.mem o + d)
  unmarked : ∀ o, Reachable vm roots offsets o → isReachable vm'.mem (f o) = false
  disjoint : ∀ o, Reachable vm roots offsets o → ∀ k ∈ keys vm.mem o,
    ∀ o', Reachable vm roots offsets o' → ∀ k' ∈ keys vm.mem o', (o = o' ∧ k = k') ∨
      f k + span desc vm.mem k ≤ f k' ∨ f k' + span desc vm.mem k' ≤ f k
  inside : ∀ o, Reachable vm roots offsets o → ∀ k ∈ keys vm.mem o,
    vm.heap ≤ f k ∧ f k + span desc vm.mem k ≤ vm.heap + vm'.heapUsed
  /-- The heap is used up to the end of the last of the objects and monitors. -/
  bumpPointer : (vm'.heapUsed = 0 ∧ ∀ o, ¬ Reachable vm roots offsets o) ∨
    ∃ o, Reachable vm roots offsets o ∧ ∃ k ∈ keys vm.mem o,
      f k + span desc vm.mem k = vm.heap + vm'.heapUsed

/-- The graph reachable from the roots is at `f` and what it was, whatever has become of the roots
themselves. -/
structure SameGraph (roots : List Nat) (offsets : Nat → List Nat) (linked : List Nat)
    (f : Nat → Nat) (vm' : Vm) : Prop where
  field : ∀ o, Reachable vm roots offsets o → ∀ d ∈ offsets o,
    d ≠ discoveredOffset ∨ o ∉ linked → vm'.mem (f o + d) = forward vm f (vm.mem (o + d))
  data : ∀ o, Reachable vm roots offsets o → ∀ d, 8 ≤ d → d < span desc vm.mem o →
    d ∉ referenceOffsets desc vm.mem o → vm'.mem (f o + d) = vm.mem (o + d)
  header : ∀ o, Reachable vm roots offsets o → hasExpandedData vm.mem o = false →
    vm'.mem (f o) = vm.mem o
  monitor : ∀ o, Reachable vm roots offsets o → hasExpandedData vm.mem o = true →
    vm'.mem (f o) = f (vm.mem o + 1) ∧
      ∀ d < sizeofMonitorData, vm'.mem (f (vm.mem o + 1) + d) = vm.mem (vm.mem o + d)
  disjoint : ∀ o, Reachable vm roots offsets o → ∀ k ∈ keys vm.mem o,
    ∀ o', Reachable vm roots offsets o' → ∀ k' ∈ keys vm.mem o', (o = o' ∧ k = k') ∨
      f k + span desc vm.mem k ≤ f k' ∨ f k' + span desc vm.mem k' ≤ f k

/-- The list of pending references that starts with `head`: these, and then `tail`. -/
def Chain (mem : Nat → Nat) (head : Nat) : List Nat → Nat → Prop
  | [], tail => head = tail
  | obj :: rest, tail => head = obj ∧ Chain mem (mem (obj + discoveredOffset)) rest tail

/-- What becomes of reference objects: their referents are kept while they are reachable, and else
cleared, and those in no list yet are put on that of the pending references. -/
structure ReferentsCleared (roots : List Nat) (offsets : Nat → List Nat) (linked : List Nat)
    (f : Nat → Nat) (vm' : Vm) : Prop where
  kept : ∀ o, Reachable vm roots offsets o → IsReference desc vm.mem o →
    Reachable vm roots offsets (vm.mem (o + referentOffset)) →
    vm'.mem (f o + referentOffset) = f (vm.mem (o + referentOffset))
  cleared : ∀ o, Reachable vm roots offsets o → IsReference desc vm.mem o →
    ¬ Reachable vm roots offsets (vm.mem (o + referentOffset)) →
    vm'.mem (f o + referentOffset) = 0
  mem_linked : ∀ o, o ∈ linked ↔ Reachable vm roots offsets o ∧ IsReference desc vm.mem o ∧
    vm.mem (o + referentOffset) ≠ 0 ∧ ¬ Reachable vm roots offsets (vm.mem (o + referentOffset)) ∧
    vm.mem (o + discoveredOffset) = 0
  sorted : linked.Pairwise (· < ·)
  pending : Chain vm'.mem (vm'.mem vm.referencePendingList) (linked.reverse.map f)
    (forward vm f (vm.mem vm.referencePendingList))

end

/-! ### Bits -/

theorem testBit_zero_eq (n : Nat) : n.testBit 0 = decide (n % 2 = 1) := Nat.testBit_zero n

theorem lor_one {n : Nat} (h : n % 2 = 0) : n ||| 1 = n + 1 := by
  obtain ⟨k, rfl⟩ := Nat.dvd_of_mod_eq_zero h
  rw [Nat.mul_comm, show k * 2 = k <<< 1 by simp [Nat.shiftLeft_eq]]
  exact (Nat.shiftLeft_add_eq_or_of_lt (by omega) k).symm

theorem isMonitor_iff {key : Nat} : isMonitor key = true ↔ key % 2 = 1 := by
  rw [isMonitor, testBit_zero_eq, decide_eq_true_eq]

theorem untag_of_even {key : Nat} (h : key % 2 = 0) : untag key = key := by
  rw [untag, Nat.and_one_is_mod, h, Nat.xor_zero]

theorem untag_succ {key : Nat} (h : key % 2 = 0) : untag (key + 1) = key := by
  rw [untag, Nat.and_one_is_mod, show (key + 1) % 2 = 1 by omega, ← lor_one h]
  refine Nat.eq_of_testBit_eq fun i => ?_
  rcases i with _ | i
  · rw [Nat.testBit_xor, Nat.testBit_or, Nat.testBit_zero, h]
    rfl
  · rw [Nat.testBit_xor, Nat.testBit_or, show Nat.testBit 1 (i + 1) = false by
      simp [Nat.testBit_succ]]
    simp

theorem le_alignUp (n : Nat) : n ≤ alignUp n 8 := by
  rw [alignUp]
  omega

theorem alignUp_mod (n : Nat) : alignUp n 8 % 8 = 0 := Nat.mul_mod_left _ _

theorem alignUp_of_aligned {n : Nat} (h : n % 8 = 0) : alignUp n 8 = n := by
  rw [alignUp]
  omega

end BJvm.Collector
