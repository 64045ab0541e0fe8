import BJvm.Gc.Roots
import Mathlib.Data.List.Perm.Subperm
import Mathlib.Data.List.Dedup
import Mathlib.Data.Nat.Log
import Mathlib.Tactic.Common

/-!
# The roots of a collection are complete

Enumeration is a filter: the vector holds the live ones among the addresses that the code names, in
order (`enumerateRoots_elems`).  These are a permutation of the slots of the VM, but for the slots
that it neglects, together with the addresses it names once more: the slot of each method's mirror,
and the caches of an instruction that is in `sigpoly_insns` more than once (`candidates_perm`).
-/

namespace BJvm.Gc

/-! ### The slots -/

def CpEntry.slots : CpEntry → List Nat
  | .methodHandle a | .invokeDynamic a | .methodType a | .string a | .class_ a => [a]
  | .other => []

/-- The slots of a class and its array classes that are meant to be roots; an instruction has one
cache however often it is in `sigpoly_insns`. -/
def Classdesc.slots (desc : Classdesc) : List Nat :=
  [desc.linkageError, desc.mirror, desc.cpMirror] ++
  desc.arrayTypes.flatMap (fun array => [array.mirror, array.cpMirror]) ++
  desc.methods.map (·.reflection) ++ desc.reflectionFields ++ desc.pool.flatMap CpEntry.slots ++
  desc.indyInsns.map (·.ic) ++ (desc.sigpolyInsns.map (·.ic2)).dedup ++ desc.staticSlots

/-- The reference slots of the frames.  A slot that a frame shares with its callee counts as the
callee's, whose locals begin at `bound`. -/
def stackSlots : Nat → List StackFrame → List Nat
  | _, [] => []
  | bound, frame :: frames =>
    if frame.isNative then stackSlots bound frames
    else
      (StackFrame.references frame.stack frame.stackSummary.stack).filter (· < bound) ++
      StackFrame.references frame.locals frame.stackSummary.locals ++ stackSlots frame.locals frames

def VmThread.slots (thr : VmThread) : List Nat :=
  [thr.threadObj, thr.currentException, thr.outOfMemError, thr.stackOverflowError] ++ thr.handles

namespace Vm

variable (vm : Vm)

def loadedClasses : List Classdesc := vm.activeClassloaders.flatMap (·.loaded)

def classes : List Classdesc := vm.primitiveClasses ++ vm.loadedClasses

/-- The slots outside the heap, the stacks and the scheduler, but for those of `neglected`. -/
def slots : List Nat :=
  vm.classes.flatMap Classdesc.slots ++ vm.activeClassloaders.map (·.javaMirror) ++ vm.jsHandles ++
  [vm.referencePendingList, vm.mainThreadGroup] ++ vm.modules ++
  vm.activeThreads.flatMap VmThread.slots ++ vm.internedStrings

/-- The slots that no enumeration names: linkage errors of array classes, two fields of each thread,
and the classes displaced from their loader's table. -/
def neglected : List Nat :=
  vm.classes.flatMap (fun desc => desc.arrayTypes.map (·.linkageError)) ++
  vm.activeThreads.flatMap (fun thr => [thr.putativeSystemCl, thr.nullHandle]) ++
  vm.activeClassloaders.flatMap fun cl => cl.displaced.flatMap fun desc =>
    desc.slots ++ desc.arrayTypes.map (·.linkageError)

/-- The slots in the queues of the scheduler. -/
def queueSlots : List Nat :=
  (vm.scheduler.getD []).flatMap fun queue => queue.flatMap PendingCall.slots

/-- The slots on the stacks of the threads. -/
def threadStackSlots : List Nat :=
  vm.activeThreads.flatMap fun thr => stackSlots uintptrMax thr.frames

end Vm

/-- The layout of a thread's frames: each lies in the buffer, and a frame's locals begin in or
behind the stack of its caller. -/
structure VmThread.LaidOut (thr : VmThread) : Prop where
  frame : ∀ f ∈ thr.frames, f.isNative = false →
    f.numLocals * StackFrame.sizeofStackValue ≤ f.addr ∧ thr.frameBuffer ≤ f.locals ∧
    f.stack + f.stackSummary.stack.length * StackFrame.sizeofStackValue ≤ thr.frameBufferEnd ∧
    f.stackSummary.locals.length ≤ f.numLocals
  order : (thr.frames.filter (!·.isNative)).Pairwise fun callee caller =>
    caller.stack ≤ callee.locals

/-- The memory layout: distinct fields have distinct addresses, and lie outside the stacks; a class
loader's descriptor is not in the heap. -/
structure Vm.LaidOut (vm : Vm) : Prop where
  distinct : (vm.slots ++ vm.neglected ++ vm.queueSlots).Nodup
  thread : ∀ thr ∈ vm.activeThreads, thr.LaidOut
  bounds : ∀ thr ∈ vm.activeThreads, thr.frameBufferEnd ≤ uintptrMax
  outside : ∀ thr ∈ vm.activeThreads, ∀ a ∈ vm.slots ++ vm.neglected ++ vm.queueSlots,
    ¬ (thr.frameBuffer ≤ a ∧ a < thr.frameBufferEnd)
  disjoint : vm.activeThreads.Pairwise fun t u =>
    t.frameBufferEnd ≤ u.frameBuffer ∨ u.frameBufferEnd ≤ t.frameBuffer
  loader : ∀ desc ∈ vm.classes, vm.live desc.classloader = false
  primitive : ∀ desc ∈ vm.primitiveClasses, desc.staticReferences = []

/-- The root list names every live slot, and no slot twice. -/
def Vm.RootsComplete (vm : Vm) : Prop :=
  ∃ roots, vm.majorGcEnumerateGcRoots = some roots ∧
    (∀ a ∈ vm.slots ++ vm.neglected, vm.live a = true → a ∈ roots) ∧ roots.Nodup

/-- The capacity of a vector that has grown to `n` elements one by one. -/
def grownCapacity (n : Nat) : Nat := if n = 0 then 0 else 2 ^ max 2 (Nat.clog 2 n)

/-- The number of live slots, on the stacks too. -/
def Vm.liveCount (vm : Vm) : Nat := ((vm.slots ++ vm.threadStackSlots).filter vm.live).length

/-- When the enumeration is right. -/
structure Vm.RootsEnumerable (vm : Vm) : Prop where
  /-- no cached `Method` or `Constructor` object -/
  methods : ∀ desc ∈ vm.classes, ∀ m ∈ desc.methods, vm.live m.reflection = false
  /-- no instruction twice in `sigpoly_insns`, once it has a `MethodType` -/
  sigpoly : ∀ desc ∈ vm.classes, ((desc.sigpolyInsns.map (·.ic2)).filter vm.live).Nodup
  neglected : ∀ a ∈ vm.neglected, vm.live a = false
  /-- the scheduler's roots fit in what the vector has allocated -/
  room : vm.queueSlots = [] ∨ vm.liveCount = 0 ∨
    vm.liveCount + vm.queueSlots.length ≤ grownCapacity vm.liveCount

variable {vm : Vm} {roots : StbVec} {a : Nat} {l : List Nat} {n : Nat}

/-! ### Enumeration is a filter -/

/-- A vector that has been filled from empty one by one. -/
def StbVec.Grown (v : StbVec) : Prop := v.capacity = grownCapacity v.elems.length

theorem arrgrow_grownCapacity (n : Nat) : arrgrow n (grownCapacity n) = grownCapacity (n + 1) := by
  rcases Nat.eq_zero_or_pos n with rfl | hn
  · rfl
  have hcap : grownCapacity n = 2 ^ max 2 (Nat.clog 2 n) := if_neg (by omega)
  have hsucc : grownCapacity (n + 1) = 2 ^ max 2 (Nat.clog 2 (n + 1)) := if_neg (by omega)
  have hle : n ≤ 2 ^ max 2 (Nat.clog 2 n) :=
    (Nat.clog_le_iff_le_pow (by omega)).mp (Nat.le_max_right 2 _)
  have hmono : Nat.clog 2 n ≤ Nat.clog 2 (n + 1) := Nat.clog_mono_right 2 (by omega)
  rw [hcap, hsucc, arrgrow]
  split_ifs with h1 h2 h3
  · have hclog := (Nat.clog_le_iff_le_pow (by omega)).mpr h1
    congr 1
    omega
  · -- the vector is full: the next capacity is the next power of two
    have hn : n = 2 ^ max 2 (Nat.clog 2 n) := by omega
    have hlt : max 2 (Nat.clog 2 n) < Nat.clog 2 (n + 1) :=
      (Nat.lt_clog_iff_pow_lt (by omega)).mpr (by omega)
    have hle : Nat.clog 2 (n + 1) ≤ max 2 (Nat.clog 2 n) + 1 :=
      (Nat.clog_le_iff_le_pow (by omega)).mpr (by rw [Nat.pow_succ]; omega)
    rw [show max 2 (Nat.clog 2 (n + 1)) = max 2 (Nat.clog 2 n) + 1 by omega, Nat.pow_succ]
    omega
  · have : 2 ^ 2 ≤ 2 ^ max 2 (Nat.clog 2 n) := Nat.pow_le_pow_right (by omega) (by omega)
    omega
  · have : 2 ^ 2 ≤ 2 ^ max 2 (Nat.clog 2 n) := Nat.pow_le_pow_right (by omega) (by omega)
    omega

theorem le_grownCapacity (n : Nat) : n ≤ grownCapacity n := by
  rw [grownCapacity]
  split_ifs with h
  · omega
  · exact (Nat.clog_le_iff_le_pow (by omega)).mp (Nat.le_max_right 2 _)

theorem grownCapacity_eq_zero : grownCapacity n = 0 ↔ n = 0 := by
  rw [grownCapacity]
  split_ifs with h
  · simp [h]
  · simp [h, Nat.pow_eq_zero]

/-- Pushing `q` more moves the vector unless they fit. -/
theorem grownCapacity_add_eq {q : Nat} :
    grownCapacity (n + q) = grownCapacity n ↔ q = 0 ∨ n + q ≤ grownCapacity n := by
  constructor
  · intro h
    rw [← h]
    exact .inr (le_grownCapacity _)
  · rintro (rfl | h)
    · rfl
    rcases Nat.eq_zero_or_pos n with rfl | hn
    · have : grownCapacity 0 = 0 := rfl
      rw [this] at h
      rw [Nat.le_zero.mp h]
    · rw [grownCapacity, if_neg (by omega)] at h
      rw [grownCapacity, grownCapacity, if_neg (by omega), if_neg (by omega)]
      have h1 := (Nat.clog_le_iff_le_pow (by omega)).mpr h
      have h2 : Nat.clog 2 n ≤ Nat.clog 2 (n + q) := Nat.clog_mono_right 2 (by omega)
      congr 1
      omega

theorem StbVec.Grown.arrput {v : StbVec} (h : v.Grown) (a : Nat) : (v.arrput a).Grown := by
  rw [StbVec.Grown] at h ⊢
  simp only [StbVec.arrput, List.length_append, List.length_singleton]
  rw [h, arrgrow_grownCapacity]

theorem foldl_arrput : ∀ (l : List Nat) {v : StbVec}, v.Grown →
    (l.foldl StbVec.arrput v).elems = v.elems ++ l ∧ (l.foldl StbVec.arrput v).Grown
  | [], v, h => ⟨by simp, h⟩
  | a :: l, v, h => by
    obtain ⟨h1, h2⟩ := foldl_arrput l (h.arrput a)
    exact ⟨by rw [List.foldl_cons, h1]; simp [StbVec.arrput], h2⟩

theorem pushRoots_eq : ∀ (l : List Nat) (v : StbVec),
    vm.pushRoots v l = (l.filter vm.live).foldl StbVec.arrput v
  | [], _ => rfl
  | a :: l, v => by
    have ih := pushRoots_eq l (vm.pushRoot v a)
    rw [Vm.pushRoots, List.foldl_cons, ← Vm.pushRoots, ih, Vm.pushRoot]
    by_cases h : vm.live a = true <;> simp [h]

theorem pushRoots_append (v : StbVec) (l l' : List Nat) :
    vm.pushRoots v (l ++ l') = vm.pushRoots (vm.pushRoots v l) l' :=
  List.foldl_append

theorem foldl_pushRoots {α : Type} (f : α → List Nat) : ∀ (l : List α) (v : StbVec),
    l.foldl (fun roots x => vm.pushRoots roots (f x)) v = vm.pushRoots v (l.flatMap f)
  | [], _ => rfl
  | x :: l, v => by
    rw [List.foldl_cons, foldl_pushRoots f l, List.flatMap_cons, pushRoots_append]

/-! ### The addresses named -/

/-- The addresses that `enumerate_reflection_roots` names. -/
def Classdesc.candidates (desc : Classdesc) : List Nat :=
  [desc.classloader, desc.linkageError] ++ [desc.mirror, desc.cpMirror] ++
  desc.arrayTypes.flatMap (fun array => [array.mirror, array.cpMirror]) ++
  desc.methods.flatMap (fun m => [m.reflectionMethod, m.reflectionCtor]) ++
  desc.reflectionFields ++ desc.pool.flatMap CpEntry.slots ++ desc.indyInsns.map (·.ic) ++
  desc.sigpolyInsns.map (·.ic2)

def VmThread.candidates (thr : VmThread) : List Nat :=
  [thr.threadObj, thr.currentException] ++ stackSlots uintptrMax thr.frames ++ thr.handles ++
  [thr.outOfMemError, thr.stackOverflowError]

/-- The addresses that the enumeration names before the scheduler's. -/
def Vm.candidates (vm : Vm) : List Nat :=
  vm.primitiveClasses.flatMap Classdesc.candidates ++ vm.jsHandles ++ [vm.referencePendingList] ++
  vm.activeClassloaders.flatMap (fun cl => cl.javaMirror ::
    cl.loaded.flatMap fun desc => desc.staticSlots ++ desc.candidates) ++
  [vm.mainThreadGroup] ++ vm.modules ++ vm.activeThreads.flatMap VmThread.candidates ++
  vm.internedStrings

theorem pushCpEntry_eq (v : StbVec) (e : CpEntry) : vm.pushCpEntry v e = vm.pushRoots v e.slots := by
  cases e <;> rfl

theorem enumerateReflectionRoots_eq (v : StbVec) (desc : Classdesc) :
    vm.enumerateReflectionRoots v desc = vm.pushRoots v desc.candidates := by
  have hpool : vm.pushCpEntry = fun v e => vm.pushRoots v (CpEntry.slots e) := by
    funext v e
    exact pushCpEntry_eq v e
  simp only [Vm.enumerateReflectionRoots, Classdesc.candidates, hpool, foldl_pushRoots,
    pushRoots_append]

theorem pushFrames_eq : ∀ (frames : List StackFrame) (bound : Nat) (v : StbVec),
    vm.pushFrames bound frames v = vm.pushRoots v (stackSlots bound frames)
  | [], _, _ => rfl
  | frame :: frames, bound, v => by
    rw [Vm.pushFrames, stackSlots]
    split_ifs with h
    · exact pushFrames_eq frames bound v
    · have hstack : ∀ (l : List Nat) (v : StbVec),
          l.foldl (fun roots val => if bound ≤ val then roots else vm.pushRoot roots val) v =
            vm.pushRoots v (l.filter (· < bound)) := by
        intro l
        induction l with
        | nil => exact fun _ => rfl
        | cons a l ih =>
          intro v
          rw [List.foldl_cons, ih, List.filter_cons]
          by_cases ha : bound ≤ a
          · rw [if_pos ha, if_neg (by simpa using ha)]
          · rw [if_neg ha, if_pos (by simpa using ha)]
            rfl
      simp only [hstack, pushFrames_eq frames, pushRoots_append]

theorem pushThreadRoots_eq (v : StbVec) (thr : VmThread) :
    vm.pushThreadRoots v thr = vm.pushRoots v thr.candidates := by
  simp only [Vm.pushThreadRoots, VmThread.candidates, pushFrames_eq, pushRoots_append]

theorem enumerateRoots_eq : vm.enumerateRoots = vm.pushRoots {} vm.candidates := by
  have hrefl : vm.enumerateReflectionRoots = fun v desc => vm.pushRoots v desc.candidates := by
    funext v desc
    exact enumerateReflectionRoots_eq v desc
  have hthr : vm.pushThreadRoots = fun v thr => vm.pushRoots v thr.candidates := by
    funext v thr
    exact pushThreadRoots_eq v thr
  have hone : ∀ v a, vm.pushRoot v a = vm.pushRoots v [a] := fun _ _ => rfl
  simp only [Vm.enumerateRoots, Vm.candidates, hrefl, hthr, hone, ← pushRoots_append,
    foldl_pushRoots, List.singleton_append]

theorem enumerateRoots_elems : vm.enumerateRoots.elems = vm.candidates.filter vm.live ∧
    vm.enumerateRoots.Grown := by
  rw [enumerateRoots_eq, pushRoots_eq]
  simpa using foldl_arrput (vm.candidates.filter vm.live) (v := {}) rfl

theorem rrSchedulerEnumerateGcRoots_eq (queues : List (List PendingCall)) (v : StbVec) :
    rrSchedulerEnumerateGcRoots queues v =
      (queues.flatMap fun queue => queue.flatMap PendingCall.slots).foldl StbVec.arrput v := by
  simp only [rrSchedulerEnumerateGcRoots, List.foldl_flatMap]

/-! ### What is named besides the slots -/

/-- The addresses named besides the slots: the loader's descriptor, and what is named again. -/
def Classdesc.extra (desc : Classdesc) : List Nat :=
  desc.classloader :: (desc.methods.map (·.reflection) ++
    (desc.sigpolyInsns.map (·.ic2)).diff (desc.sigpolyInsns.map (·.ic2)).dedup)

theorem perm_dedup_append (l : List Nat) : l.Perm (l.dedup ++ l.diff l.dedup) :=
  (List.subperm_append_diff_self_of_count_le fun a _ => (List.dedup_sublist l).count_le a).symm

theorem mem_diff_dedup (h : a ∈ l.diff l.dedup) : a ∈ l :=
  (perm_dedup_append l).mem_iff.mpr (List.mem_append_right _ h)

/-- Appending to a list elements of it keeps it free of duplicates only if there are none. -/
theorem nodup_append_of_subset {l l' : List Nat} (h : ∀ a ∈ l', a ∈ l) :
    (l ++ l').Nodup ↔ l.Nodup ∧ l' = [] := by
  rw [List.nodup_append]
  constructor
  · rintro ⟨h1, -, h3⟩
    refine ⟨h1, List.eq_nil_iff_forall_not_mem.mpr fun a ha => ?_⟩
    exact h3 a (h a ha) a ha rfl
  · rintro ⟨h1, rfl⟩
    exact ⟨h1, .nil, by simp⟩

theorem filter_nodup_iff (p : Nat → Bool) (l : List Nat) :
    (l.filter p).Nodup ↔ ∀ a ∈ l.diff l.dedup, p a = false := by
  have hperm := (perm_dedup_append l).filter p
  rw [hperm.nodup_iff, List.filter_append, nodup_append_of_subset]
  · simp [(List.nodup_dedup l).filter p, List.filter_eq_nil_iff]
  · intro a ha
    simp only [List.mem_filter, List.mem_dedup] at ha ⊢
    exact ⟨mem_diff_dedup ha.1, ha.2⟩

theorem flatMap_perm {α : Type} {f g h : α → List Nat} : ∀ {l : List α},
    (∀ x ∈ l, (f x).Perm (g x ++ h x)) → (l.flatMap f).Perm (l.flatMap g ++ l.flatMap h)
  | [], _ => .nil
  | x :: l, hf => by
    have h1 := hf x (by simp)
    have h2 := flatMap_perm (l := l) fun y hy => hf y (by simp [hy])
    rw [List.perm_iff_count] at h1 h2 ⊢
    intro a
    have h1 := h1 a
    have h2 := h2 a
    simp only [List.flatMap_cons, List.count_append] at h1 h2 ⊢
    omega

theorem Classdesc.candidates_perm (desc : Classdesc) :
    (desc.staticSlots ++ desc.candidates).Perm (desc.slots ++ desc.extra) := by
  have hmethods : (desc.methods.flatMap fun m => [m.reflectionMethod, m.reflectionCtor]).Perm
      (desc.methods.map (·.reflection) ++ desc.methods.map (·.reflection)) := by
    simp only [List.map_eq_flatMap]
    exact flatMap_perm fun _ _ => .refl _
  have hsigpoly := perm_dedup_append (desc.sigpolyInsns.map (·.ic2))
  rw [List.perm_iff_count] at hmethods hsigpoly ⊢
  intro a
  have h1 := hmethods a
  have h2 := hsigpoly a
  simp only [candidates, slots, extra, List.count_append, List.count_cons, List.count_nil] at h1 h2 ⊢
  omega

theorem VmThread.candidates_perm (thr : VmThread) :
    thr.candidates.Perm (thr.slots ++ stackSlots uintptrMax thr.frames) := by
  rw [List.perm_iff_count]
  intro a
  simp only [candidates, slots, List.count_append, List.count_cons, List.count_nil]
  omega

/-- The addresses named, up to order. -/
theorem candidates_perm (h : vm.LaidOut) : vm.candidates.Perm
    (vm.slots ++ vm.threadStackSlots ++ vm.classes.flatMap Classdesc.extra) := by
  have hprim : (vm.primitiveClasses.flatMap Classdesc.candidates).Perm
      (vm.primitiveClasses.flatMap Classdesc.slots ++ vm.primitiveClasses.flatMap Classdesc.extra) :=
    flatMap_perm fun desc hdesc => by
      simpa [Classdesc.staticSlots, h.primitive desc hdesc] using desc.candidates_perm
  have hloader : (vm.activeClassloaders.flatMap fun cl => cl.javaMirror ::
        cl.loaded.flatMap fun desc => desc.staticSlots ++ desc.candidates).Perm
      (vm.activeClassloaders.map (·.javaMirror) ++ vm.activeClassloaders.flatMap
        fun cl => cl.loaded.flatMap fun desc => desc.staticSlots ++ desc.candidates) := by
    rw [List.map_eq_flatMap]
    exact flatMap_perm fun _ _ => .refl _
  have hloaded : (vm.loadedClasses.flatMap fun desc => desc.staticSlots ++ desc.candidates).Perm
      (vm.loadedClasses.flatMap Classdesc.slots ++ vm.loadedClasses.flatMap Classdesc.extra) :=
    flatMap_perm fun desc _ => desc.candidates_perm
  have hthread : (vm.activeThreads.flatMap VmThread.candidates).Perm
      (vm.activeThreads.flatMap VmThread.slots ++ vm.threadStackSlots) :=
    flatMap_perm fun thr _ => thr.candidates_perm
  rw [List.perm_iff_count] at hprim hloader hloaded hthread ⊢
  intro a
  have h1 := hprim a
  have h2 := hloader a
  have h3 := hloaded a
  have h4 := hthread a
  simp only [Vm.loadedClasses, List.flatMap_assoc] at h3
  simp only [Vm.candidates, Vm.slots, Vm.classes, Vm.loadedClasses, List.flatMap_append,
    List.flatMap_assoc, List.count_append, List.count_cons, List.count_nil] at h1 h2 h3 h4 ⊢
  omega

/-! ### The stacks -/

theorem mem_references {base : Nat} {kinds : List TypeKind}
    (h : a ∈ StackFrame.references base kinds) :
    base ≤ a ∧ a < base + kinds.length * StackFrame.sizeofStackValue := by
  simp only [StackFrame.references, List.mem_map, List.mem_filter] at h
  obtain ⟨⟨k, i⟩, ⟨hmem, -⟩, rfl⟩ := h
  have hi : i < kinds.length := by simpa using (List.mem_zipIdx' hmem).1
  simp only [StackFrame.sizeofStackValue]
  omega

theorem references_nodup (base : Nat) (kinds : List TypeKind) :
    (StackFrame.references base kinds).Nodup := by
  refine List.Nodup.map_on ?_ (List.Nodup.filter _ ?_)
  · rintro ⟨k, i⟩ hi ⟨k', j⟩ hj heq
    simp only [StackFrame.sizeofStackValue] at heq
    have hij : i = j := by omega
    subst hij
    have h1 := (List.mem_zipIdx' (List.mem_filter.mp hi).1).2
    have h2 := (List.mem_zipIdx' (List.mem_filter.mp hj).1).2
    rw [h1, h2]
  · exact List.Nodup.of_map Prod.snd (by simpa using List.nodup_range')

/-- The slots of the frames lie in the buffer and below `bound`, each once. -/
theorem stackSlots_spec {start stop : Nat} : ∀ {frames : List StackFrame} {bound : Nat},
    (∀ f ∈ frames, f.isNative = false → f.numLocals * StackFrame.sizeofStackValue ≤ f.addr ∧
      start ≤ f.locals ∧
      f.stack + f.stackSummary.stack.length * StackFrame.sizeofStackValue ≤ stop ∧
      f.stackSummary.locals.length ≤ f.numLocals) →
    (∀ f ∈ frames.filter (!·.isNative), f.stack ≤ bound) →
    (frames.filter (!·.isNative)).Pairwise (fun callee caller => caller.stack ≤ callee.locals) →
    (stackSlots bound frames).Nodup ∧
      ∀ a ∈ stackSlots bound frames, start ≤ a ∧ a < bound ∧ a < stop
  | [], _, _, _, _ => by simp [stackSlots]
  | frame :: frames, bound, hf, hb, hp => by
    have hf' : ∀ f ∈ frames, _ := fun f hmem => hf f (List.mem_cons_of_mem _ hmem)
    rw [stackSlots]
    split_ifs with hn
    · rw [List.filter_cons, if_neg (by simp [hn])] at hp hb
      exact stackSlots_spec hf' hb hp
    rw [Bool.not_eq_true] at hn
    rw [List.filter_cons, if_pos (by simp [hn])] at hp hb
    obtain ⟨hrest, hp⟩ := List.pairwise_cons.mp hp
    obtain ⟨ih1, ih2⟩ := stackSlots_spec hf' hrest hp
    obtain ⟨h1, h2, h3, h4⟩ := hf frame (by simp) hn
    have h5 : frame.stack ≤ bound := hb frame (by simp)
    -- the slots of the locals lie below the frame, those of the stack behind it
    have hlocal : ∀ a ∈ StackFrame.references frame.locals frame.stackSummary.locals,
        frame.locals ≤ a ∧ a < frame.stack := fun a ha => by
      obtain ⟨g1, g2⟩ := mem_references ha
      have := Nat.mul_le_mul_right StackFrame.sizeofStackValue h4
      simp only [StackFrame.locals, StackFrame.stack, StackFrame.sizeofStackFrame] at g1 g2 ⊢
      omega
    have hstack : ∀ a ∈ (StackFrame.references frame.stack frame.stackSummary.stack).filter
        (· < bound), frame.stack ≤ a ∧ a < bound ∧ a < stop := fun a ha => by
      obtain ⟨g1, g2⟩ := List.mem_filter.mp ha
      obtain ⟨g3, g4⟩ := mem_references g1
      exact ⟨g3, by simpa using g2, by omega⟩
    have hle : frame.locals ≤ frame.stack := by
      simp only [StackFrame.locals, StackFrame.stack]
      omega
    refine ⟨List.nodup_append.mpr ⟨List.nodup_append.mpr ⟨(references_nodup _ _).filter _,
      references_nodup _ _, fun a ha b hb => ?_⟩, ih1, fun a ha b hb => ?_⟩, fun a ha => ?_⟩
    · have := hstack a ha
      have := hlocal b hb
      omega
    · have := ih2 b hb
      rcases List.mem_append.mp ha with ha | ha
      · have := hstack a ha
        omega
      · have := hlocal a ha
        omega
    · rcases List.mem_append.mp ha with ha | ha
      · rcases List.mem_append.mp ha with ha | ha
        · have := hstack a ha
          omega
        · have := hlocal a ha
          omega
      · have := ih2 a ha
        omega

theorem VmThread.LaidOut.slots {thr : VmThread} (h : thr.LaidOut)
    (hb : thr.frameBufferEnd ≤ uintptrMax) :
    (stackSlots uintptrMax thr.frames).Nodup ∧
      ∀ a ∈ stackSlots uintptrMax thr.frames, thr.frameBuffer ≤ a ∧ a < thr.frameBufferEnd := by
  have htop : ∀ f ∈ thr.frames.filter (!·.isNative), f.stack ≤ uintptrMax := fun f hf => by
    obtain ⟨hmem, hn⟩ := List.mem_filter.mp hf
    have := h.frame f hmem (by simpa using hn)
    omega
  obtain ⟨h1, h2⟩ := stackSlots_spec h.frame htop h.order
  exact ⟨h1, fun a ha => ⟨(h2 a ha).1, (h2 a ha).2.2⟩⟩

theorem threadStackSlots_nodup {start stop : VmThread → Nat} : ∀ {threads : List VmThread},
    (∀ thr ∈ threads, (stackSlots uintptrMax thr.frames).Nodup ∧
      ∀ a ∈ stackSlots uintptrMax thr.frames, start thr ≤ a ∧ a < stop thr) →
    (threads.Pairwise fun t u => stop t ≤ start u ∨ stop u ≤ start t) →
    (threads.flatMap fun thr => stackSlots uintptrMax thr.frames).Nodup := by
  intro threads h hp
  rw [List.nodup_flatMap]
  refine ⟨fun thr hthr => (h thr hthr).1, hp.imp_of_mem fun {t u} ht hu htu a ha hb => ?_⟩
  have := (h t ht).2 a ha
  have := (h u hu).2 a hb
  omega

/-- No slot is on a stack and elsewhere, and none is there twice. -/
theorem Vm.LaidOut.nodup (h : vm.LaidOut) :
    (vm.slots ++ vm.neglected ++ vm.queueSlots ++ vm.threadStackSlots).Nodup := by
  have hspec : ∀ thr ∈ vm.activeThreads, _ := fun thr hthr =>
    (h.thread thr hthr).slots (h.bounds thr hthr)
  refine List.nodup_append.mpr ⟨h.distinct, threadStackSlots_nodup hspec h.disjoint, ?_⟩
  rintro a ha b hb rfl
  obtain ⟨thr, hthr, hmem⟩ := List.mem_flatMap.mp hb
  exact h.outside thr hthr a ha ((hspec thr hthr).2 a hmem)

/-! ### Completeness -/

theorem mem_extra_classes (h : vm.LaidOut)
    (ha : a ∈ (vm.classes.flatMap Classdesc.extra).filter vm.live) :
    a ∈ vm.classes.flatMap Classdesc.slots := by
  obtain ⟨hmem, hlive⟩ := List.mem_filter.mp ha
  obtain ⟨desc, hdesc, hmem⟩ := List.mem_flatMap.mp hmem
  refine List.mem_flatMap.mpr ⟨desc, hdesc, ?_⟩
  rcases List.mem_cons.mp hmem with rfl | hmem
  · exact absurd hlive (by simp [h.loader desc hdesc])
  · rcases List.mem_append.mp hmem with hmem | hmem
    · simp [Classdesc.slots, List.mem_map.mp hmem]
    · have := List.mem_map.mp (mem_diff_dedup hmem)
      simp [Classdesc.slots, this]

theorem mem_extra (h : vm.LaidOut) (ha : a ∈ (vm.classes.flatMap Classdesc.extra).filter vm.live) :
    a ∈ vm.slots := by
  simp only [Vm.slots, List.mem_append, mem_extra_classes h ha, true_or]

theorem extra_eq_nil_iff (h : vm.LaidOut) :
    (vm.classes.flatMap Classdesc.extra).filter vm.live = [] ↔
      (∀ desc ∈ vm.classes, ∀ m ∈ desc.methods, vm.live m.reflection = false) ∧
      ∀ desc ∈ vm.classes, ((desc.sigpolyInsns.map (·.ic2)).filter vm.live).Nodup := by
  simp only [List.filter_eq_nil_iff, List.mem_flatMap, Classdesc.extra, List.mem_cons,
    List.mem_append, List.mem_map, forall_exists_index, and_imp, Bool.not_eq_true, filter_nodup_iff]
  constructor
  · exact fun hall => ⟨fun desc hd m hm => hall _ desc hd (.inr (.inl ⟨m, hm, rfl⟩)),
      fun desc hd a ha => hall a desc hd (.inr (.inr ha))⟩
  · rintro ⟨h1, h2⟩ a desc hd (rfl | ⟨m, hm, rfl⟩ | ha)
    · exact h.loader desc hd
    · exact h1 desc hd m hm
    · exact h2 desc hd a ha

/-- What `enumerateRoots` has pushed: the live slots, and the live ones among what is named again. -/
theorem roots_perm (h : vm.LaidOut) : vm.enumerateRoots.elems.Perm
    ((vm.slots ++ vm.threadStackSlots).filter vm.live ++
      (vm.classes.flatMap Classdesc.extra).filter vm.live) := by
  rw [enumerateRoots_elems.1, ← List.filter_append]
  exact (candidates_perm h).filter vm.live

theorem enumerateRoots_nodup_iff (h : vm.LaidOut) : vm.enumerateRoots.elems.Nodup ↔
    (vm.classes.flatMap Classdesc.extra).filter vm.live = [] := by
  have hslots : (vm.slots ++ vm.threadStackSlots).Nodup :=
    h.nodup.sublist (by
      simp only [List.append_assoc]
      exact (List.Sublist.refl _).append (by simp))
  rw [(roots_perm h).nodup_iff, nodup_append_of_subset fun a ha => ?_]
  · exact and_iff_right (hslots.filter _)
  · have := mem_extra h ha
    simp only [List.mem_filter, List.mem_append] at ha ⊢
    exact ⟨.inl this, ha.2⟩

/-- The vector holds every live slot unless it is neglected. -/
theorem mem_enumerateRoots (h : vm.LaidOut) (ha : a ∈ vm.slots) (hl : vm.live a = true) :
    a ∈ vm.enumerateRoots.elems := by
  rw [(roots_perm h).mem_iff]
  simp [ha, hl]

/-- A neglected slot is in no part of the list. -/
theorem not_mem_of_neglected (h : vm.LaidOut) (ha : a ∈ vm.neglected) :
    a ∉ vm.enumerateRoots.elems ++ vm.queueSlots := by
  have hnd := h.nodup
  simp only [List.nodup_append, List.mem_append] at hnd
  rw [List.mem_append, (roots_perm h).mem_iff, List.mem_append]
  rintro ((hmem | hmem) | hmem)
  · rcases List.mem_append.mp (List.mem_filter.mp hmem).1 with hmem | hmem
    · exact hnd.1.1.2.2 a hmem a ha rfl
    · exact hnd.2.2 a (.inl (.inr ha)) a hmem rfl
  · exact hnd.1.1.2.2 a (mem_extra h hmem) a ha rfl
  · exact hnd.1.2.2 a (.inr ha) a hmem rfl

theorem enumerateRoots_append_nodup (h : vm.LaidOut) (hnd : vm.enumerateRoots.elems.Nodup) :
    (vm.enumerateRoots.elems ++ vm.queueSlots).Nodup := by
  have hall := h.nodup
  simp only [List.nodup_append, List.mem_append] at hall
  refine List.nodup_append.mpr ⟨hnd, hall.1.2.1, fun a ha b hb => ?_⟩
  rw [(roots_perm h).mem_iff, List.mem_append] at ha
  rcases ha with ha | ha
  · rcases List.mem_append.mp (List.mem_filter.mp ha).1 with ha | ha
    · exact hall.1.2.2 a (.inl ha) b hb
    · exact fun heq => hall.2.2 b (.inr hb) a ha heq.symm
  · exact hall.1.2.2 a (.inl (mem_extra h ha)) b hb

/-- The three ways the enumeration ends: the queues fit behind the roots, or the vector has moved
and the caller holds a null pointer or a dangling one. -/
theorem majorGcEnumerateGcRoots_eq : vm.majorGcEnumerateGcRoots =
    if vm.queueSlots = [] ∨ vm.enumerateRoots.elems.length + vm.queueSlots.length ≤
        grownCapacity vm.enumerateRoots.elems.length then
      some (vm.enumerateRoots.elems ++ vm.queueSlots)
    else if vm.enumerateRoots.elems = [] then some []
    else none := by
  have hgrown : vm.enumerateRoots.Grown := enumerateRoots_elems.2
  rw [Vm.majorGcEnumerateGcRoots, Vm.queueSlots]
  cases vm.scheduler with
  | none => simp
  | some queues =>
    obtain ⟨h1, h2⟩ := foldl_arrput (queues.flatMap fun queue => queue.flatMap PendingCall.slots)
      hgrown
    rw [StbVec.Grown] at hgrown h2
    have hzero : vm.enumerateRoots.capacity = 0 ↔ vm.enumerateRoots.elems = [] := by
      rw [hgrown, grownCapacity_eq_zero, List.length_eq_zero_iff]
    simp only [rrSchedulerEnumerateGcRoots_eq, h1, h2, hzero, Option.getD_some]
    simp only [hgrown, List.length_append, grownCapacity_add_eq, List.length_eq_zero_iff]
    split_ifs with h3 h4
    · rfl
    · rw [h4]
    · rfl

/-- The root list is complete and free of duplicates if and only if no method has a cached mirror,
no instruction is in `sigpoly_insns` twice, no neglected slot holds an object, and the scheduler's
roots fit in the vector. -/
theorem rootsComplete_iff (h : vm.LaidOut) : vm.RootsComplete ↔ vm.RootsEnumerable := by
  have hextra := extra_eq_nil_iff h
  have hnodup := enumerateRoots_nodup_iff h
  have hlen : (vm.classes.flatMap Classdesc.extra).filter vm.live = [] →
      vm.enumerateRoots.elems.length = vm.liveCount := fun hnil => by
    rw [(roots_perm h).length_eq, hnil, List.append_nil, Vm.liveCount]
  rw [Vm.RootsComplete, majorGcEnumerateGcRoots_eq]
  constructor
  · rintro ⟨roots, heq, hall, hnd⟩
    have hneg : ∀ a ∈ vm.neglected, vm.live a = false := fun a ha => by
      rw [← Bool.not_eq_true]
      intro hl
      have hmem := hall a (List.mem_append_right _ ha) hl
      have hout := not_mem_of_neglected h ha
      split_ifs at heq with h1 h2
      · rw [Option.some.injEq] at heq
        exact hout (heq ▸ hmem)
      · rw [Option.some.injEq] at heq
        simp [← heq] at hmem
    split_ifs at heq with h1 h2
    · rw [Option.some.injEq] at heq
      subst heq
      have hnil := hnodup.mp (List.nodup_append.mp hnd).1
      rw [hlen hnil] at h1
      exact ⟨(hextra.mp hnil).1, (hextra.mp hnil).2, hneg, h1.imp_right .inr⟩
    · have hnil := hnodup.mp (by rw [h2]; exact .nil)
      refine ⟨(hextra.mp hnil).1, (hextra.mp hnil).2, hneg, .inr (.inl ?_)⟩
      rw [← hlen hnil, h2, List.length_nil]
  · rintro ⟨h1, h2, h3, h4⟩
    have hnil := hextra.mpr ⟨h1, h2⟩
    have hmem : ∀ a ∈ vm.slots ++ vm.neglected, vm.live a = true → a ∈ vm.enumerateRoots.elems :=
      fun a ha hl => by
        rcases List.mem_append.mp ha with ha | ha
        · exact mem_enumerateRoots h ha hl
        · exact absurd hl (by simp [h3 a ha])
    rw [← hlen hnil, List.length_eq_zero_iff] at h4
    split_ifs with h5 h6
    · exact ⟨_, rfl, fun a ha hl => List.mem_append_left _ (hmem a ha hl),
        enumerateRoots_append_nodup h (hnodup.mpr hnil)⟩
    · exact ⟨[], rfl, fun a ha hl => h6 ▸ hmem a ha hl, .nil⟩
    · tauto

/-- A class with one method, and a thread that is in it and in its callee, to which it passes a
reference.  The word at 40 is the cached mirror of the method. -/
def callingVm (mem : Nat → Nat) : Vm where
  mem
  heap := 65536
  heapCapacity := 4096
  referencePendingList := 48
  mainThreadGroup := 56
  activeClassloaders :=
    [{ javaMirror := 64
       loaded :=
        [{ classloader := 8, linkageError := 16, mirror := 24, cpMirror := 32
           methods := [{ reflection := 40 }] }] }]
  activeThreads :=
    [{ frameBuffer := 1000
       frameBufferEnd := 2000
       frames :=
        [{ isNative := false, addr := 1056, numLocals := 1, programCounter := 0
           stackStates := [{ stack := [], locals := [.reference] }] },
          { isNative := false, addr := 1008, numLocals := 1, programCounter := 0
            stackStates := [{ stack := [.reference], locals := [.reference] }] }]
       outOfMemError := 72
       stackOverflowError := 80
       currentException := 88
       threadObj := 96
       putativeSystemCl := 104
       handles := [120, 128]
       nullHandle := 112 }]

theorem callingVm_slots (mem : Nat → Nat) :
    (callingVm mem).slots ++ (callingVm mem).neglected ++ (callingVm mem).queueSlots =
      [16, 24, 32, 40, 64, 48, 56, 96, 88, 72, 80, 120, 128, 104, 112] := rfl

theorem callingVm_laidOut {mem : Nat → Nat} (h : mem 8 = 0) : (callingVm mem).LaidOut where
  distinct := by
    rw [callingVm_slots]
    decide
  thread := by
    simp only [callingVm, List.forall_mem_singleton]
    exact ⟨by decide, by decide⟩
  bounds := by
    simp only [callingVm, List.forall_mem_singleton]
    decide
  outside := by
    rw [callingVm_slots]
    simp only [callingVm, List.forall_mem_singleton]
    decide
  disjoint := List.pairwise_singleton _ _
  loader := by
    simp only [callingVm, Vm.classes, Vm.loadedClasses, List.nil_append, List.flatMap_singleton,
      List.forall_mem_singleton]
    simp [Vm.live, h]
  primitive := by simp [callingVm]

/-- The mirror of the class, the thread and the argument are in the heap. -/
def noMirror (a : Nat) : Nat :=
  if a = 24 then 65536 else if a = 96 then 65600 else if a = 1048 then 65664 else 0

/-- The mirror of the method too. -/
def methodMirror (a : Nat) : Nat := if a = 40 then 65728 else noMirror a

theorem callingVm_complete : (callingVm noMirror).RootsComplete :=
  (rootsComplete_iff (callingVm_laidOut rfl)).mpr
    ⟨by decide, by decide, by decide, .inl rfl⟩

/-- The slot of the method's mirror is pushed as a `Method` and as a `Constructor`. -/
theorem callingVm_duplicate : (callingVm methodMirror).LaidOut ∧
    (callingVm methodMirror).majorGcEnumerateGcRoots = some [24, 40, 40, 96, 1048] ∧
    ¬ (callingVm methodMirror).RootsComplete := by
  have heq : (callingVm methodMirror).majorGcEnumerateGcRoots = some [24, 40, 40, 96, 1048] := by
    decide
  refine ⟨callingVm_laidOut rfl, heq, ?_⟩
  rintro ⟨roots, hroots, -, hnd⟩
  rw [heq, Option.some.injEq] at hroots
  subst hroots
  exact absurd hnd (by decide)

end BJvm.Gc
