import BJvm.Gc.Scheduler
import BJvm.Proofs.GcRoots
import BJvm.Proofs.MajorGc

/-!
# The scheduler's objects in a collection

The arguments of the queued and suspended calls are roots through the arrays they are read from, and
the results of finished calls through the handles.  They keep their objects if and only if the
vector of the roots does not have to grow for the arguments (`schedulerKept_iff`).
-/

namespace BJvm.Gc

open Collector (SameGraph WellFormed Phases strongOffsets forward majorGc_phases)

variable {vm : Vm} {desc : Nat → Collector.Classdesc} {heapUsed a base : Nat} {objects : List Nat}
  {record : ExecutionRecord} {executions : List ExecutionRecord}

/-! ### Results -/

theorem writeArray_self {mem : Nat → Nat} {values : List Nat} {i : Nat} (h : i < values.length) :
    writeArray mem base values (base + i * 8) = values.getD i 0 := by
  rw [writeArray, if_pos (by omega), show (base + i * 8 - base) / 8 = i by omega]

theorem makeJsHandle_deref (vm : Vm) (obj base : Nat) :
    (vm.makeJsHandle obj base).1.derefJsHandle (vm.makeJsHandle obj base).2 = obj := by
  rw [Vm.makeJsHandle]
  split
  · rename_i i hi
    obtain ⟨hlt, -, -⟩ := List.findIdx?_eq_some_iff_getElem.mp hi
    simp [Vm.derefJsHandle, hlt]
  · simp [Vm.derefJsHandle, writeArray_self]

/-- A finished record gives its result. -/
theorem finishCall_result (vm : Vm) (returnsReference : Bool) (result base : Nat) :
    (vm.finishCall returnsReference result base).1.executionRecordResult
      (vm.finishCall returnsReference result base).2 = result := by
  rw [Vm.finishCall]
  split_ifs
  · exact makeJsHandle_deref vm result base
  · rfl

/-- A new handle leaves the others what they were. -/
theorem makeJsHandle_keeps (vm : Vm) (obj base : Nat) {i : Nat} (hi : vm.derefJsHandle i ≠ 0) :
    (vm.makeJsHandle obj base).1.derefJsHandle i = vm.derefJsHandle i := by
  obtain ⟨a, ha⟩ : ∃ a, vm.jsHandles[i]? = some a := Option.ne_none_iff_exists'.mp fun hn => hi (by
    rw [Vm.derefJsHandle, hn]
    rfl)
  rw [Vm.derefJsHandle, ha, Option.elim_some] at hi
  obtain ⟨hlt, rfl⟩ := List.getElem?_eq_some_iff.mp ha
  rw [Vm.makeJsHandle]
  split
  · rename_i j hj
    obtain ⟨hjlt, hj0, -⟩ := List.findIdx?_eq_some_iff_getElem.mp hj
    have hne : vm.jsHandles[i] ≠ vm.jsHandles[j] := fun heq => by
      rw [heq] at hi
      exact hi (of_decide_eq_true hj0)
    simp [Vm.derefJsHandle, hlt, hjlt, Function.update_of_ne hne]
  · simp only [Vm.derefJsHandle, List.length_append, List.length_map, List.length_singleton,
      List.getElem?_map, List.getElem?_range (Nat.lt_succ_of_lt hlt), Option.map_some,
      Option.elim_some]
    rw [writeArray_self (by simp; omega), List.getD_eq_getElem?_getD,
      List.getElem?_append_left (by simpa using hlt)]
    simp [hlt]

/-! ### The roots -/

/-- The slots that a collection has to update. -/
def Vm.rootSlots (vm : Vm) : List Nat :=
  (vm.slots ++ vm.threadStackSlots).filter vm.live ++ vm.queueSlots

/-- The number of roots in front of the scheduler's: the live slots, counting once more that of a
cached `Method` or `Constructor` object and what is in `sigpoly_insns` again. -/
def Vm.pushedCount (vm : Vm) : Nat :=
  vm.liveCount + ((vm.classes.flatMap Classdesc.extra).filter vm.live).length

/-- The vector has room for the scheduler's roots. -/
def Vm.QueueFits (vm : Vm) : Prop :=
  vm.queueSlots = [] ∨ vm.pushedCount + vm.queueSlots.length ≤ grownCapacity vm.pushedCount ∨
    vm.pushedCount = 0 ∧ ∀ a ∈ vm.queueSlots, vm.live a = false

/-- A collection keeps what the scheduler holds: each reference argument of a pending call, and each
result that is read through a handle, is listed by its address if it is an object of the heap, and
is that object after the collection. -/
def Vm.SchedulerKept (vm : Vm) (desc : Nat → Collector.Classdesc) (heapUsed : Nat)
    (executions : List ExecutionRecord) : Prop :=
  ∃ roots vm' linked f, vm.majorGcEnumerateGcRoots = some roots ∧
    Collector.majorGc desc (vm.collector heapUsed) roots = some vm' ∧
    SameGraph desc (vm.collector heapUsed) vm.rootSlots (strongOffsets desc vm.mem) linked f vm' ∧
    (∀ a ∈ vm.queueSlots, (vm.live a = true → a ∈ roots) ∧
      vm'.mem a = forward (vm.collector heapUsed) f (vm.mem a)) ∧
    ∀ record ∈ executions, record.isDone = true → ∀ a ∈ vm.resultSlot record, vm.live a = true →
      a ∈ roots ∧ vm'.mem a = forward (vm.collector heapUsed) f (vm.mem a)

theorem length_enumerateRoots (h : vm.LaidOut) : vm.enumerateRoots.elems.length = vm.pushedCount := by
  rw [(roots_perm h).length_eq, List.length_append, Vm.pushedCount, Vm.liveCount]

theorem rootSlots_nodup (h : vm.LaidOut) : vm.rootSlots.Nodup := by
  have hall := h.nodup
  simp only [List.nodup_append, List.mem_append] at hall
  refine List.nodup_append.mpr ⟨(List.nodup_append.mpr ⟨hall.1.1.1, hall.2.1,
    fun a ha => hall.2.2 a (.inl (.inl ha))⟩).filter _, hall.1.2.1, fun a ha b hb => ?_⟩
  rcases List.mem_append.mp (List.mem_filter.mp ha).1 with ha | ha
  · exact hall.1.2.2 a (.inl ha) b hb
  · exact fun heq => hall.2.2 b (.inr hb) a ha heq.symm

/-- What the enumeration and the scheduler list. -/
theorem listed_perm (h : vm.LaidOut) : (vm.enumerateRoots.elems ++ vm.queueSlots).Perm
    (vm.rootSlots ++ (vm.classes.flatMap Classdesc.extra).filter vm.live) := by
  rw [Vm.rootSlots, List.append_assoc]
  refine ((roots_perm h).append_right _).trans ?_
  rw [List.append_assoc]
  exact List.perm_append_comm.append_left _

theorem mem_listed (h : vm.LaidOut) :
    a ∈ vm.enumerateRoots.elems ++ vm.queueSlots ↔ a ∈ vm.rootSlots := by
  rw [(listed_perm h).mem_iff, List.mem_append, or_iff_left_iff_imp]
  intro ha
  have hlive := (List.mem_filter.mp ha).2
  simp [Vm.rootSlots, mem_extra h ha, hlive]

theorem not_mem_extra (h : vm.LaidOut)
    (ha : a ∈ vm.queueSlots ∨ a ∈ vm.jsHandles ∨ a = vm.referencePendingList) :
    a ∉ (vm.classes.flatMap Classdesc.extra).filter vm.live := fun hex => by
  have hclass := mem_extra_classes h hex
  obtain ⟨hslots, -, hqueue⟩ := List.nodup_append.mp h.distinct
  by_cases hq : a ∈ vm.queueSlots
  · exact hqueue a (List.mem_append_left _ (mem_extra h hex)) a hq rfl
  · have hslots := (List.nodup_append.mp hslots).1
    simp only [Vm.slots, List.append_assoc] at hslots
    refine (List.nodup_append.mp hslots).2.2 a hclass a ?_ rfl
    rcases ha.resolve_left hq with ha | ha <;> simp [ha]

theorem count_listed (h : vm.LaidOut)
    (ha : a ∈ vm.queueSlots ∨ a ∈ vm.jsHandles ∨ a = vm.referencePendingList) :
    (vm.enumerateRoots.elems ++ vm.queueSlots).count a ≤ 1 := by
  rw [(listed_perm h).count_eq, List.count_append, List.count_eq_zero.mpr (not_mem_extra h ha)]
  exact List.nodup_iff_count_le_one.mp (rootSlots_nodup h) a

/-- A collection with the roots listed keeps what the scheduler holds. -/
theorem kept_of_roots (h : vm.LaidOut)
    (hw : WellFormed desc (vm.collector heapUsed) objects vm.rootSlots) {roots : List Nat}
    (hroots : vm.majorGcEnumerateGcRoots = some roots)
    (hlisted : roots = vm.enumerateRoots.elems ++ vm.queueSlots ∨
      roots = [] ∧ ∀ a ∈ vm.rootSlots, vm.live a = false) :
    vm.SchedulerKept desc heapUsed executions := by
  have hsub : ∀ r ∈ roots, r ∈ vm.rootSlots := fun r hr => by
    rcases hlisted with rfl | ⟨rfl, -⟩
    · exact (mem_listed h).mp hr
    · cases hr
  have hlive : ∀ r ∈ vm.rootSlots, vm.live r = true → r ∈ roots := fun r hr hl => by
    rcases hlisted with rfl | ⟨-, hno⟩
    · exact (mem_listed h).mpr hr
    · exact absurd hl (by simp [hno r hr])
  have hin : ∀ r ∈ vm.rootSlots, (vm.collector heapUsed).inHeap (vm.mem r) = true → r ∈ roots :=
    fun r hr hin => by
      refine hlive r hr ?_
      rw [Vm.live, Bool.and_eq_true]
      refine ⟨decide_eq_true fun h0 => ?_, hin⟩
      rw [h0, hw.null_outside] at hin
      cases hin
  have hcount : ∀ a, (a ∈ vm.queueSlots ∨ a ∈ vm.jsHandles ∨ a = vm.referencePendingList) →
      roots.count a ≤ 1 := fun a ha => by
    rcases hlisted with rfl | ⟨rfl, -⟩
    · exact count_listed h ha
    · exact Nat.zero_le 1
  obtain ⟨live, mem', hp, hout, hrun, -⟩ := majorGc_phases hw hsub hin
    (hcount _ (.inr (.inr rfl)))
  have hn := hp.nodup
  have hobjects := hp.live_subset hw
  have hkept : ∀ a ∈ vm.rootSlots, a ≠ vm.referencePendingList → roots.count a ≤ 1 →
      mem' a = forward (vm.collector heapUsed)
        (Collector.moved desc (vm.collector heapUsed) live) (vm.mem a) := fun a ha hne hc => by
    rw [hout a (hw.rootsOutside a ha) hne hc]
    split_ifs with hr
    · exact (hw.forward_moved hn hobjects).symm
    · rw [forward, if_neg fun hheap => hr (hin a ha hheap)]
      rfl
  have hslots := h.distinct
  refine ⟨roots, _, _, _, hroots, hrun, hp.sameGraph hw rfl, fun a ha => ?_,
    fun record _ _ a ha hl => ?_⟩
  · have hroot : a ∈ vm.rootSlots := List.mem_append_right _ ha
    refine ⟨hlive a hroot, hkept a hroot ?_ (hcount a (.inl ha))⟩
    rintro rfl
    refine (List.nodup_append.mp hslots).2.2 _ (List.mem_append_left _ ?_) _ ha rfl
    simp [Vm.slots]
  · obtain ⟨i, -, hi⟩ := Option.bind_eq_some_iff.mp ha
    have hjs : a ∈ vm.jsHandles := List.mem_of_getElem? hi
    have hroot : a ∈ vm.rootSlots := by
      simp [Vm.rootSlots, Vm.slots, hjs, hl]
    refine ⟨hlive a hroot hl, hkept a hroot ?_ (hcount a (.inr (.inl hjs)))⟩
    rintro rfl
    have hnd := (List.nodup_append.mp (List.nodup_append.mp hslots).1).1
    simp only [Vm.slots, List.append_assoc] at hnd
    have hnd := (List.nodup_append.mp (List.nodup_append.mp hnd).2.1).2.1
    exact (List.nodup_append.mp hnd).2.2 _ hjs _ (by simp) rfl

theorem enumerateRoots_eq_nil_iff (h : vm.LaidOut) :
    vm.enumerateRoots.elems = [] ↔ vm.pushedCount = 0 := by
  rw [← length_enumerateRoots h, List.length_eq_zero_iff]

theorem schedulerKept_of_fits (h : vm.LaidOut)
    (hw : WellFormed desc (vm.collector heapUsed) objects vm.rootSlots) (hf : vm.QueueFits) :
    vm.SchedulerKept desc heapUsed executions := by
  have heq := @majorGcEnumerateGcRoots_eq vm
  rw [length_enumerateRoots h] at heq
  by_cases h1 : vm.queueSlots = [] ∨
      vm.pushedCount + vm.queueSlots.length ≤ grownCapacity vm.pushedCount
  · rw [if_pos h1] at heq
    exact kept_of_roots h hw heq (.inl rfl)
  · obtain ⟨hzero, hno⟩ := (or_assoc.mpr hf).resolve_left h1
    have hnil := (enumerateRoots_eq_nil_iff h).mpr hzero
    rw [if_neg h1, if_pos hnil] at heq
    refine kept_of_roots h hw heq (.inr ⟨rfl, fun a ha => ?_⟩)
    rcases List.mem_append.mp ((mem_listed h).mpr ha) with ha | ha
    · rw [hnil] at ha
      cases ha
    · exact hno a ha

/-- The scheduler's objects survive a collection if and only if the vector of the roots has room for
the arguments. -/
theorem schedulerKept_iff (h : vm.LaidOut)
    (hw : WellFormed desc (vm.collector heapUsed) objects vm.rootSlots) :
    vm.SchedulerKept desc heapUsed executions ↔ vm.QueueFits := by
  refine ⟨?_, schedulerKept_of_fits h hw⟩
  have heq := @majorGcEnumerateGcRoots_eq vm
  rw [length_enumerateRoots h] at heq
  rintro ⟨roots, vm', linked, f, hroots, -, -, hqueue, -⟩
  rw [hroots] at heq
  split_ifs at heq with h1 h2
  · exact h1.imp_right .inl
  · rw [Option.some.injEq] at heq
    refine .inr (.inr ⟨(enumerateRoots_eq_nil_iff h).mp h2, fun a ha => ?_⟩)
    rw [← Bool.not_eq_true]
    intro hl
    have := (hqueue a ha).1 hl
    simp [heq] at this

/-! ### A queued call -/

/-- Two objects at 256 and 272. -/
def queuedHeap : Collector.Vm where
  mem
    | 32 | 40 | 48 | 64 => 256
    | 56 => 272
    | 256 | 264 | 272 | 280 => 1
    | _ => 0
  heap := 256
  heapCapacity := 64
  heapUsed := 32
  referencePendingList := 16

/-- A call with the second object as its argument is queued, and there are handles for the first. -/
def queuedVm (handles : List Nat) : Vm where
  mem := queuedHeap.mem
  heap := 256
  heapCapacity := 64
  jsHandles := handles
  referencePendingList := 16
  mainThreadGroup := 24
  scheduler := some [[{ isStatic := true, args := [56]
                        descriptor := { args := [{ baseKind := .reference }],
                                        returnType := { baseKind := .void } } }]]

theorem queuedVm_laidOut {handles : List Nat} (h : ((queuedVm handles).slots ++
    (queuedVm handles).neglected ++ (queuedVm handles).queueSlots).Nodup) :
    (queuedVm handles).LaidOut where
  distinct := h
  thread := by simp [queuedVm]
  bounds := by simp [queuedVm]
  outside := by simp [queuedVm]
  disjoint := List.Pairwise.nil
  loader := by simp [queuedVm, Vm.classes, Vm.loadedClasses]
  primitive := by simp [queuedVm]

theorem queuedHeap_wellFormed {roots : List Nat} (hd : roots.Nodup)
    (hs : ∀ r ∈ roots, queuedHeap.inHeap r = false ∧ queuedHeap.mem r ∈ [256, 272]) :
    WellFormed Collector.weakClasses queuedHeap [256, 272] roots where
  heapAligned := by decide
  used := by decide
  aligned := by decide
  monitor := by decide
  layout o ho := by
    simp only [List.mem_cons, List.not_mem_nil, or_false] at ho
    rcases ho with rfl | rfl <;> constructor <;> decide
  inside := by decide
  disjoint := by decide
  unmarked := by decide
  references := by decide
  rootsDistinct := hd
  rootsOutside r hr := (hs r hr).1
  rootTargets r hr _ := (hs r hr).2
  pending := ⟨by decide, .inr (by decide)⟩

theorem queuedVm_kept : (queuedVm [32]).SchedulerKept Collector.weakClasses 32
    [{ isDone := true, returned := 256, jsHandle := some 0 }] :=
  (schedulerKept_iff (queuedVm_laidOut (by decide))
    (queuedHeap_wellFormed (by decide) (by decide))).mpr (.inr (.inl (by decide)))

/-- With four handles the vector is full when the scheduler adds the argument. -/
theorem queuedVm_lost : (queuedVm [32, 40, 48, 64]).LaidOut ∧
    WellFormed Collector.weakClasses ((queuedVm [32, 40, 48, 64]).collector 32) [256, 272]
      (queuedVm [32, 40, 48, 64]).rootSlots ∧
    ¬ (queuedVm [32, 40, 48, 64]).SchedulerKept Collector.weakClasses 32 [] := by
  refine ⟨queuedVm_laidOut (by decide), queuedHeap_wellFormed (by decide) (by decide), ?_⟩
  rintro ⟨roots, vm', linked, f, hroots, -⟩
  have hnone : (queuedVm [32, 40, 48, 64]).majorGcEnumerateGcRoots = none := by decide
  rw [hnone] at hroots
  cases hroots

end BJvm.Gc
