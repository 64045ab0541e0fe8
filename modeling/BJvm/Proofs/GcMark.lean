import BJvm.Gc.HeapGraph
import Mathlib.Data.List.Nodup
import Mathlib.Data.List.Perm.Subperm

/-!
# The mark phase

While the mark phase runs, the memory is that of the beginning but for the mark bits of the objects
met so far (`markedMem`), which are those done and those on the worklist.  It ends with the list of
all reachable objects and their monitors (`drain_spec`).
-/

namespace BJvm.Collector

variable {desc : Nat → Classdesc} {vm : Vm} {objects roots L : List Nat} {mem : Nat → Nat}
  {o o' k k' a d n r : Nat}

/-! ### Blocks -/

theorem mem_keys : k ∈ keys mem o ↔ k = o ∨ hasExpandedData mem o = true ∧ k = mem o + 1 := by
  rw [keys]
  split_ifs with h <;> simp [h]

theorem self_mem_keys : o ∈ keys mem o := List.mem_cons_self

/-- The mark word of an object is its first word, or the second one of its monitor. -/
theorem getMarkWord_cases (mem : Nat → Nat) (o : Nat) :
    (hasExpandedData mem o = false ∧ getMarkWord mem o = o) ∨
      (hasExpandedData mem o = true ∧ getMarkWord mem o = mem o + 8) := by
  rw [getMarkWord]
  cases hasExpandedData mem o
  · exact .inl ⟨rfl, rfl⟩
  · exact .inr ⟨rfl, rfl⟩

namespace WellFormed

variable (h : WellFormed desc vm objects roots)

include h

theorem untag_object (ho : o ∈ objects) : untag o = o := untag_of_even (by have := h.aligned o ho; omega)

theorem not_isMonitor (ho : o ∈ objects) : isMonitor o = false := by
  have := h.aligned o ho
  rw [Bool.eq_false_iff, ne_eq, isMonitor_iff]
  omega

theorem untag_monitor (ho : o ∈ objects) (he : hasExpandedData vm.mem o = true) :
    untag (vm.mem o + 1) = vm.mem o :=
  untag_succ (by have := (h.monitor o ho he).1; omega)

theorem isMonitor_succ (ho : o ∈ objects) (he : hasExpandedData vm.mem o = true) :
    isMonitor (vm.mem o + 1) = true :=
  isMonitor_iff.mpr (by have := (h.monitor o ho he).1; omega)

theorem span_monitor (ho : o ∈ objects) (he : hasExpandedData vm.mem o = true) :
    span desc vm.mem (vm.mem o + 1) = 16 := by
  rw [span, h.isMonitor_succ ho he, if_pos rfl]
  rfl

theorem span_object (ho : o ∈ objects) :
    span desc vm.mem o = alignUp (sizeOfObject desc vm.mem o) 8 := by
  rw [span, h.not_isMonitor ho]
  rfl

theorem size_pos (ho : o ∈ objects) : 16 ≤ sizeOfObject desc vm.mem o := by
  have hl := h.layout o ho
  rw [sizeOfObject]
  cases hk : (descriptor desc vm.mem o).kind
  · exact hl.header hk
  · exact absurd hk hl.notPrimitive
  all_goals exact Nat.le_trans (show 16 ≤ kArrayDataOffset by decide) (Nat.le_add_right _ _)

theorem span_pos (ho : o ∈ objects) (hk : k ∈ keys vm.mem o) : 16 ≤ span desc vm.mem k := by
  rcases mem_keys.mp hk with rfl | ⟨he, rfl⟩
  · rw [h.span_object ho]
    exact Nat.le_trans (h.size_pos ho) (le_alignUp _)
  · rw [h.span_monitor ho he]

/-- No address is in two blocks. -/
theorem block_unique (ho : o ∈ objects) (hk : k ∈ keys vm.mem o) (ho' : o' ∈ objects)
    (hk' : k' ∈ keys vm.mem o') (h1 : untag k ≤ a) (h2 : a < untag k + span desc vm.mem k)
    (h3 : untag k' ≤ a) (h4 : a < untag k' + span desc vm.mem k') : o = o' ∧ k = k' := by
  rcases h.disjoint o ho k hk o' ho' k' hk' with h | h | h
  · exact h
  · omega
  · omega

theorem key_owner (ho : o ∈ objects) (hk : k ∈ keys vm.mem o) (ho' : o' ∈ objects)
    (hk' : k ∈ keys vm.mem o') : o = o' := by
  have := h.span_pos ho hk
  exact (h.block_unique ho hk ho' hk' (Nat.le_refl _) (by omega) (Nat.le_refl _) (by omega)).1

theorem markWord_owner (ho : o ∈ objects) (hk : k ∈ keys vm.mem o) (ho' : o' ∈ objects)
    (h1 : untag k ≤ getMarkWord vm.mem o') (h2 : getMarkWord vm.mem o' < untag k + span desc vm.mem k) :
    o = o' ∧ (k = o ∧ hasExpandedData vm.mem o = false ∧ getMarkWord vm.mem o' = o ∨
      k = vm.mem o + 1 ∧ hasExpandedData vm.mem o = true) := by
  rcases getMarkWord_cases vm.mem o' with ⟨he, hw⟩ | ⟨he, hw⟩ <;> rw [hw] at h1 h2
  · have := h.span_pos ho' self_mem_keys
    obtain ⟨rfl, rfl⟩ := h.block_unique ho hk ho' self_mem_keys h1 h2
      (h.untag_object ho').le (by rw [h.untag_object ho']; omega)
    exact ⟨rfl, .inl ⟨rfl, he, hw⟩⟩
  · have hk' : vm.mem o' + 1 ∈ keys vm.mem o' := mem_keys.mpr (.inr ⟨he, rfl⟩)
    obtain ⟨rfl, rfl⟩ := h.block_unique ho hk ho' hk' h1 h2
      (by rw [h.untag_monitor ho' he]; omega)
      (by rw [h.untag_monitor ho' he, h.span_monitor ho' he]; omega)
    exact ⟨rfl, .inr ⟨rfl, he⟩⟩

theorem getMarkWord_inj (ho : o ∈ objects) (ho' : o' ∈ objects)
    (heq : getMarkWord vm.mem o = getMarkWord vm.mem o') : o = o' := by
  rcases getMarkWord_cases vm.mem o with ⟨he, hw⟩ | ⟨he, hw⟩
  · have := h.span_pos ho self_mem_keys
    refine (h.markWord_owner ho self_mem_keys ho' ?_ ?_).1 <;> rw [← heq, hw, h.untag_object ho]
    omega
  · have hk : vm.mem o + 1 ∈ keys vm.mem o := mem_keys.mpr (.inr ⟨he, rfl⟩)
    refine (h.markWord_owner ho hk ho' ?_ ?_).1 <;> rw [← heq, hw, h.untag_monitor ho he]
    · omega
    · rw [h.span_monitor ho he]
      omega

theorem inHeap_block (ho : o ∈ objects) (hk : k ∈ keys vm.mem o) (h1 : untag k ≤ a)
    (h2 : a < untag k + span desc vm.mem k) : vm.inHeap a = true := by
  have := h.inside o ho k hk
  have := h.used
  simp only [Vm.inHeap, Bool.and_eq_true, decide_eq_true_eq]
  omega

theorem inHeap_object (ho : o ∈ objects) : vm.inHeap o = true := by
  have := h.span_pos ho self_mem_keys
  exact h.inHeap_block ho self_mem_keys (h.untag_object ho).le (by rw [h.untag_object ho]; omega)

theorem inHeap_markWord (ho : o ∈ objects) : vm.inHeap (getMarkWord vm.mem o) = true := by
  rcases getMarkWord_cases vm.mem o with ⟨he, hw⟩ | ⟨he, hw⟩ <;> rw [hw]
  · exact h.inHeap_object ho
  · refine h.inHeap_block ho (mem_keys.mpr (.inr ⟨he, rfl⟩)) ?_ ?_ <;> rw [h.untag_monitor ho he]
    · omega
    · rw [h.span_monitor ho he]
      omega

/-- The references of an object lie behind its header. -/
theorem referenceOffsets_inside (ho : o ∈ objects) (hd : d ∈ referenceOffsets desc vm.mem o) :
    16 ≤ d ∧ d % 8 = 0 ∧ d + 8 ≤ span desc vm.mem o := by
  have hl := h.layout o ho
  have hs := le_alignUp (sizeOfObject desc vm.mem o)
  rw [h.span_object ho]
  rw [referenceOffsets] at hd
  cases hk : (descriptor desc vm.mem o).kind <;> rw [hk] at hd <;> simp only [List.not_mem_nil,
    List.mem_map, List.mem_range] at hd
  · obtain ⟨slot, hmem, rfl⟩ := hd
    have := hl.inside hk slot hmem
    rw [sizeOfObject, hk] at hs ⊢
    simp only at hs ⊢
    omega
  · obtain ⟨i, hi, rfl⟩ := hd
    rw [sizeOfObject, hk] at hs ⊢
    simp only [kArrayDataOffset] at hs ⊢
    omega

end WellFormed

/-! ### Marked memory -/

/-- The memory with the mark bits of the objects in `L`. -/
def markedMem (mem : Nat → Nat) (L : List Nat) : Nat → Nat := fun a =>
  if a ∈ L.map (getMarkWord mem) then mem a ||| 2 else mem a

/-- A slot that no mark touches, and that refers to an object if into the heap. -/
def Clean (vm : Vm) (objects : List Nat) (slot : Nat) : Prop :=
  (∀ L, (∀ o ∈ L, o ∈ objects) → markedMem vm.mem L slot = vm.mem slot) ∧
    (vm.inHeap (vm.mem slot) = true → vm.mem slot ∈ objects)

theorem markedMem_nil : markedMem mem [] = mem := by
  funext a
  rw [markedMem, List.map_nil, if_neg List.not_mem_nil]

theorem markedMem_of_ne (hne : ∀ o ∈ L, a ≠ getMarkWord mem o) : markedMem mem L a = mem a :=
  if_neg fun h => by
    obtain ⟨o, ho, heq⟩ := List.mem_map.mp h
    exact hne o ho heq.symm

theorem markedMem_congr {L' : List Nat} (h : ∀ o, o ∈ L ↔ o ∈ L') :
    markedMem mem L = markedMem mem L' := by
  funext a
  simp only [markedMem, List.mem_map, h]

theorem hasExpandedData_markedMem :
    hasExpandedData (markedMem mem L) o = hasExpandedData mem o := by
  rw [hasExpandedData, hasExpandedData, markedMem]
  split_ifs
  · rw [Nat.testBit_or]
    simp
  · rfl

theorem lor_two_lor_two (n : Nat) : n ||| 2 ||| 2 = n ||| 2 := by
  rw [Nat.or_assoc, Nat.or_self]

namespace WellFormed

variable (h : WellFormed desc vm objects roots) (hL : ∀ o ∈ L, o ∈ objects)

include h hL

/-- Marks are only set in the first word of an object and in monitors. -/
theorem markedMem_body (ho : o ∈ objects) (h8 : 8 ≤ d) (hd : d < span desc vm.mem o) :
    markedMem vm.mem L (o + d) = vm.mem (o + d) :=
  markedMem_of_ne fun o' ho' heq => by
    have hu := h.untag_object ho
    obtain ⟨rfl, ⟨-, -, hw⟩ | ⟨hk, he⟩⟩ := h.markWord_owner ho self_mem_keys (hL o' ho')
      (by omega) (by omega)
    · omega
    · have := h.monitor o ho he
      omega

/-- An object that is not marked is as it was, and so is its monitor. -/
theorem markedMem_block (ho : o ∈ objects) (hk : k ∈ keys vm.mem o) (hnot : o ∉ L)
    (h1 : untag k ≤ a) (h2 : a < untag k + span desc vm.mem k) : markedMem vm.mem L a = vm.mem a :=
  markedMem_of_ne fun o' ho' heq => by
    obtain ⟨rfl, -⟩ := h.markWord_owner ho hk (hL o' ho') (heq ▸ h1) (heq ▸ h2)
    exact hnot ho'

theorem markedMem_outside (ha : vm.inHeap a = false) : markedMem vm.mem L a = vm.mem a :=
  markedMem_of_ne fun o ho heq => by
    rw [heq, h.inHeap_markWord (hL o ho)] at ha
    cases ha

/-- The pointer to a monitor is never marked itself. -/
theorem markedMem_expanded (ho : o ∈ objects) (he : hasExpandedData vm.mem o = true) :
    markedMem vm.mem L o = vm.mem o :=
  markedMem_of_ne fun o' ho' heq => by
    have hu := h.untag_object ho
    have := h.span_pos ho self_mem_keys
    obtain ⟨rfl, ⟨-, hf, -⟩ | ⟨hk, -⟩⟩ := h.markWord_owner ho self_mem_keys (hL o' ho')
      (by omega) (by omega)
    · rw [he] at hf
      cases hf
    · have := h.monitor o ho he
      omega

theorem getMarkWord_markedMem (ho : o ∈ objects) :
    getMarkWord (markedMem vm.mem L) o = getMarkWord vm.mem o := by
  rw [getMarkWord, hasExpandedData_markedMem, getMarkWord]
  split_ifs with he
  · rw [h.markedMem_expanded hL ho he]
  · rfl

theorem isReachable_markedMem (ho : o ∈ objects) :
    isReachable (markedMem vm.mem L) o = true ↔ o ∈ L := by
  rw [isReachable, h.getMarkWord_markedMem hL ho, markedMem]
  constructor
  · intro hr
    split_ifs at hr with hmem
    · obtain ⟨o', ho', heq⟩ := List.mem_map.mp hmem
      rwa [h.getMarkWord_inj ho (hL o' ho') heq.symm]
    · have := h.unmarked o ho
      rw [isReachable, hr] at this
      cases this
  · intro hmem
    rw [if_pos (List.mem_map_of_mem hmem), Nat.testBit_or]
    exact Bool.or_true _

theorem setReachable_markedMem (ho : o ∈ objects) :
    setReachable (markedMem vm.mem L) o = markedMem vm.mem (L ++ [o]) := by
  funext a
  rw [setReachable, h.getMarkWord_markedMem hL ho, Function.update_apply]
  simp only [markedMem, List.map_append, List.map_cons, List.map_nil, List.mem_append,
    List.mem_singleton]
  by_cases ha : a = getMarkWord vm.mem o
  · subst ha
    simp only [if_true, or_true]
    split_ifs
    · exact lor_two_lor_two _
    · rfl
  · simp only [ha, if_false, or_false]

theorem descriptor_markedMem (ho : o ∈ objects) :
    descriptor desc (markedMem vm.mem L) o = descriptor desc vm.mem o := by
  have := h.span_pos ho self_mem_keys
  rw [descriptor, h.markedMem_body hL ho (by omega) (by omega), descriptor]

/-! ### Visiting slots -/

omit hL in
theorem referenceOffset_clean (ho : o ∈ objects) (hd : d ∈ referenceOffsets desc vm.mem o) :
    Clean vm objects (o + d) := by
  obtain ⟨h1, -, h2⟩ := h.referenceOffsets_inside ho hd
  exact ⟨fun L hL => h.markedMem_body hL ho (by omega) (by omega), h.references o ho d hd⟩

omit hL in
theorem root_clean (hr : r ∈ roots) : Clean vm objects r :=
  ⟨fun _ hL => h.markedMem_outside hL (h.rootsOutside r hr), h.rootTargets r hr⟩

omit hL in
theorem null_outside : vm.inHeap 0 = false := by
  have := h.heapAligned.1
  simp only [Vm.inHeap, Bool.and_eq_false_iff, decide_eq_false_iff_not]
  omega

omit hL in
/-- What visiting slots adds to the worklist. -/
theorem visit_slots {P : List Nat} : ∀ (slots : List Nat) (st : MarkState),
    (∀ slot ∈ slots, Clean vm objects slot) → st.mem = markedMem vm.mem (P ++ st.worklist) →
    (P ++ st.worklist).Nodup → (∀ o ∈ P ++ st.worklist, o ∈ objects) →
    ∃ new, slots.foldl (MarkState.visit vm) st =
        { mem := markedMem vm.mem (P ++ (st.worklist ++ new)), objs := st.objs,
          worklist := st.worklist ++ new } ∧
      (P ++ (st.worklist ++ new)).Nodup ∧
      (∀ v ∈ new, ∃ slot ∈ slots, v = vm.mem slot ∧ vm.inHeap v = true) ∧
      ∀ slot ∈ slots, vm.inHeap (vm.mem slot) = true → vm.mem slot ∈ P ++ (st.worklist ++ new)
  | [], st, _, hm, hn, _ => ⟨[], by simp [← hm], by simpa using hn, by simp, by simp⟩
  | slot :: slots, st, hc, hm, hn, hsub => by
    obtain ⟨hclean, htarget⟩ := hc slot List.mem_cons_self
    have hslot : st.mem slot = vm.mem slot := by rw [hm, hclean _ hsub]
    have hrest := fun s hs => hc s (List.mem_cons_of_mem _ hs)
    rw [List.foldl_cons, MarkState.visit, hslot]
    by_cases hnew : vm.inHeap (vm.mem slot) = true ∧ vm.mem slot ∉ P ++ st.worklist
    · obtain ⟨hin, hmark⟩ := hnew
      have ho := htarget hin
      have hne : vm.mem slot ≠ 0 := fun h0 => by
        rw [h0, h.null_outside] at hin
        cases hin
      have hnot : isReachable st.mem (vm.mem slot) = false := by
        rw [Bool.eq_false_iff, ne_eq, hm, h.isReachable_markedMem hsub ho]
        exact hmark
      rw [if_pos (by simp [hne, hin, hnot]), hm, h.setReachable_markedMem hsub ho]
      obtain ⟨new, h1, h2, h3, h4⟩ := visit_slots (P := P) slots
        { st with
          mem := markedMem vm.mem (P ++ st.worklist ++ [vm.mem slot])
          worklist := st.worklist ++ [vm.mem slot] } hrest (by simp)
        (by
          rw [← List.append_assoc]
          exact List.nodup_append.mpr ⟨hn, List.nodup_singleton _, fun a ha b hb hab => by
            rw [List.mem_singleton] at hb
            exact hmark (hb ▸ hab ▸ ha)⟩)
        (fun o ho' => by
          rw [← List.append_assoc, List.mem_append, List.mem_singleton] at ho'
          rcases ho' with ho' | rfl
          · exact hsub o ho'
          · exact ho)
      simp only [List.append_assoc, List.singleton_append] at h1 h2 h4
      refine ⟨vm.mem slot :: new, by rw [List.append_assoc]; exact h1, h2, fun v hv => ?_, fun s hs => ?_⟩
      · rcases List.mem_cons.mp hv with rfl | hv
        · exact ⟨slot, List.mem_cons_self, rfl, hin⟩
        · obtain ⟨s, hs, hv⟩ := h3 v hv
          exact ⟨s, List.mem_cons_of_mem _ hs, hv⟩
      · rcases List.mem_cons.mp hs with rfl | hs
        · intro _
          simp
        · exact h4 s hs
    · -- the slot holds no object, or one that is marked
      have hold : vm.inHeap (vm.mem slot) = true → vm.mem slot ∈ P ++ st.worklist := fun hin =>
        not_not.mp fun hmark => hnew ⟨hin, hmark⟩
      have hskip : ¬ (vm.mem slot ≠ 0 ∧ vm.inHeap (vm.mem slot) = true ∧
          isReachable st.mem (vm.mem slot) = false) := by
        rintro ⟨-, hin, hnot⟩
        rw [hm, Bool.eq_false_iff] at hnot
        exact hnot ((h.isReachable_markedMem hsub (htarget hin)).mpr (hold hin))
      rw [if_neg (by simpa using hskip)]
      obtain ⟨new, h1, h2, h3, h4⟩ := visit_slots slots st hrest hm hn hsub
      refine ⟨new, h1, h2, fun v hv => ?_, fun s hs => ?_⟩
      · obtain ⟨s, hs, hv⟩ := h3 v hv
        exact ⟨s, List.mem_cons_of_mem _ hs, hv⟩
      · rcases List.mem_cons.mp hs with rfl | hs
        · intro hin
          rw [← List.append_assoc]
          exact List.mem_append_left _ (hold hin)
        · exact h4 s hs

omit h hL in
theorem strongOffsets_subset (hd : d ∈ strongOffsets desc vm.mem o) :
    d ∈ referenceOffsets desc vm.mem o := by
  rw [strongOffsets] at hd
  split_ifs at hd
  · exact List.mem_of_mem_drop hd
  · exact hd

omit hL in
theorem object_of_reachable (hr : Reachable vm roots (strongOffsets desc vm.mem) o) :
    o ∈ objects := by
  induction hr with
  | root hr hin => exact h.rootTargets _ hr hin
  | field _ hd hin ih => exact h.references _ ih _ (strongOffsets_subset hd) hin

theorem arrayLength_markedMem (ho : o ∈ objects)
    (hk : (descriptor desc vm.mem o).kind = .ordinaryArray) :
    arrayLength (markedMem vm.mem L) o = arrayLength vm.mem o := by
  have hs := le_alignUp (sizeOfObject desc vm.mem o)
  rw [sizeOfObject, hk] at hs
  simp only [kArrayDataOffset] at hs
  rw [arrayLength, h.markedMem_body hL ho (by decide)
    (by rw [h.span_object ho, sizeOfObject, hk]; simp only [kArrayLengthOffset, kArrayDataOffset]; omega),
    arrayLength]

/-- `mark_reachable` lists the object and its monitor, and visits its references. -/
theorem markReachable_eq {st : MarkState} (hm : st.mem = markedMem vm.mem L) (ho : o ∈ objects) :
    st.markReachable desc vm o = ((strongOffsets desc vm.mem o).map (o + ·)).foldl
      (MarkState.visit vm) { st with objs := st.objs ++ keys vm.mem o } := by
  have hst : (if hasExpandedData st.mem o = true then
      { mem := st.mem, objs := st.objs ++ [o] ++ [st.mem o ||| 1], worklist := st.worklist }
      else { mem := st.mem, objs := st.objs ++ [o], worklist := st.worklist } : MarkState) =
      { st with objs := st.objs ++ keys vm.mem o } := by
    rw [hm, hasExpandedData_markedMem, keys]
    split_ifs with he
    · have hmon := (h.monitor o ho he).1
      rw [h.markedMem_expanded hL ho he, lor_one (by omega)]
      simp
    · rfl
  have hl := h.layout o ho
  rw [MarkState.markReachable]
  simp only [hst]
  rw [hm, h.descriptor_markedMem hL ho]
  cases hk : (descriptor desc vm.mem o).kind with
  | ordinary =>
    rw [if_pos rfl]
    congr 1
    rw [strongOffsets, referenceOffsets, hk, fieldSlots, h.descriptor_markedMem hL ho]
    simp only [IsReference, hk, true_and]
    split_ifs <;> simp [← List.map_drop, Function.comp_def]
  | primitive => exact absurd hk hl.notPrimitive
  | ordinaryArray =>
    rw [if_neg (by simp), if_pos (by simp), elementSlots, h.arrayLength_markedMem hL ho hk,
      strongOffsets, if_neg (by simp [IsReference, hk]), referenceOffsets, hk]
    simp [Function.comp_def, Nat.add_assoc]
  | primitiveArray =>
    have := hl.oneDimension hk
    rw [if_neg (by simp), if_neg (by simpa using this), strongOffsets,
      if_neg (by simp [IsReference, hk]), referenceOffsets, hk]
    rfl

end WellFormed

/-! ### The worklist -/

/-- The objects done and those on the worklist. -/
structure MarkInv (desc : Nat → Classdesc) (vm : Vm) (roots : List Nat) (st : MarkState)
    (done : List Nat) : Prop where
  mem : st.mem = markedMem vm.mem (done ++ st.worklist)
  objs : st.objs = done.flatMap (keys vm.mem)
  nodup : (done ++ st.worklist).Nodup
  reachable : ∀ o ∈ done ++ st.worklist, Reachable vm roots (strongOffsets desc vm.mem) o
  closed : ∀ o ∈ done, ∀ d ∈ strongOffsets desc vm.mem o, vm.inHeap (vm.mem (o + d)) = true →
    vm.mem (o + d) ∈ done ++ st.worklist
  roots : ∀ r ∈ roots, vm.inHeap (vm.mem r) = true → vm.mem r ∈ done ++ st.worklist

namespace WellFormed

variable (h : WellFormed desc vm objects roots)

include h

theorem visitRoot_eq (st : MarkState) (slot : Nat) :
    st.visitRoot vm slot = MarkState.visit vm st slot := by
  rw [MarkState.visitRoot, MarkState.visit]
  by_cases h0 : st.mem slot = 0
  · simp [h0, h.null_outside]
  · cases vm.inHeap (st.mem slot) <;> cases isReachable st.mem (st.mem slot) <;> simp [h0]

/-- The roots that hold an object may be listed more than once, and the others may be left out. -/
theorem markInv_roots {listed : List Nat} (hsub : ∀ r ∈ listed, r ∈ roots)
    (hall : ∀ r ∈ roots, vm.inHeap (vm.mem r) = true → r ∈ listed) :
    MarkInv desc vm roots (listed.foldl (MarkState.visitRoot vm) { mem := vm.mem }) [] := by
  obtain ⟨new, h1, h2, h3, h4⟩ := h.visit_slots (P := []) listed { mem := vm.mem }
    (fun r hr => h.root_clean (hsub r hr)) (by simp [markedMem_nil]) (by simp) (by simp)
  rw [show MarkState.visitRoot vm = MarkState.visit vm from
    funext fun st => funext fun slot => h.visitRoot_eq st slot, h1]
  refine ⟨rfl, rfl, h2, fun o ho => ?_, by simp, fun r hr hin => h4 r (hall r hr hin) hin⟩
  obtain ⟨r, hr, rfl, hin⟩ := h3 o ho
  exact .root (hsub r hr) hin

/-- One turn of the loop takes the last object of the worklist to those done. -/
theorem markInv_step {st : MarkState} {done rest : List Nat} (hi : MarkInv desc vm roots st done)
    (hw : st.worklist = rest ++ [o]) :
    MarkInv desc vm roots
      (MarkState.markReachable desc vm
        { mem := setReachable st.mem o, objs := st.objs, worklist := rest } o) (done ++ [o]) := by
  have hmem : ∀ x, x ∈ done ++ [o] ++ rest ↔ x ∈ done ++ st.worklist := fun x => by
    rw [hw]
    simp only [List.mem_append, List.mem_singleton]
    tauto
  have hobj : ∀ x ∈ done ++ st.worklist, x ∈ objects := fun x hx =>
    h.object_of_reachable (hi.reachable x hx)
  have hsub : ∀ x ∈ done ++ [o] ++ rest, x ∈ objects := fun x hx => hobj x ((hmem x).mp hx)
  have ho : o ∈ done ++ st.worklist := (hmem o).mp (by simp)
  have hm : setReachable st.mem o = markedMem vm.mem (done ++ [o] ++ rest) := by
    rw [hi.mem, h.setReachable_markedMem hobj (hobj o ho)]
    refine markedMem_congr fun x => ?_
    rw [hmem, List.mem_append, List.mem_singleton, or_iff_left_iff_imp]
    rintro rfl
    exact ho
  rw [h.markReachable_eq hsub (by exact hm) (hobj o ho)]
  have hnodup : (done ++ [o] ++ rest).Nodup := by
    have hn := hi.nodup
    rw [hw] at hn
    refine (List.Perm.nodup_iff ?_).mp hn
    rw [List.append_assoc]
    exact List.Perm.append_left done List.perm_append_comm
  obtain ⟨new, h1, h2, h3, h4⟩ := h.visit_slots (P := done ++ [o])
    ((strongOffsets desc vm.mem o).map (o + ·))
    { mem := setReachable st.mem o, objs := st.objs ++ keys vm.mem o, worklist := rest }
    (fun slot hslot => by
      obtain ⟨d, hd, rfl⟩ := List.mem_map.mp hslot
      exact h.referenceOffset_clean (hobj o ho) (strongOffsets_subset hd)) hm hnodup hsub
  rw [h1]
  have hkeep : ∀ x ∈ done ++ st.worklist, x ∈ done ++ [o] ++ (rest ++ new) := fun x hx => by
    rw [← List.append_assoc]
    exact List.mem_append_left _ ((hmem x).mpr hx)
  refine ⟨rfl, ?_, h2, fun x hx => ?_, fun x hx d hd hin => ?_, fun r hr hin =>
    hkeep _ (hi.roots r hr hin)⟩
  · rw [hi.objs, List.flatMap_append, List.flatMap_singleton]
  · rw [← List.append_assoc, List.mem_append] at hx
    rcases hx with hx | hx
    · exact hi.reachable x ((hmem x).mp hx)
    · obtain ⟨slot, hslot, rfl, hin⟩ := h3 x hx
      obtain ⟨d, hd, rfl⟩ := List.mem_map.mp hslot
      exact .field (hi.reachable o ho) hd hin
  · rcases List.mem_append.mp hx with hx | hx
    · exact hkeep _ (hi.closed x hx d hd hin)
    · rw [List.mem_singleton] at hx
      subst hx
      exact h4 _ (List.mem_map_of_mem hd) hin

theorem length_le_capacity {l : List Nat} (hl : l.Nodup) (hs : ∀ x ∈ l, x ∈ objects) :
    l.length ≤ vm.heapCapacity := by
  have hsub : l ⊆ List.range' vm.heap vm.heapCapacity := fun x hx => by
    have := h.inHeap_object (hs x hx)
    simp only [Vm.inHeap, Bool.and_eq_true, decide_eq_true_eq] at this
    exact List.mem_range'_1.mpr this
  simpa using (List.Nodup.subperm hl hsub).length_le

/-- The worklist gets empty, and then the objects done are the reachable ones. -/
theorem drain_spec : ∀ (fuel : Nat) (st : MarkState) (done : List Nat),
    vm.heapCapacity < fuel + done.length → MarkInv desc vm roots st done →
    ∃ live, live.Nodup ∧ (∀ o, o ∈ live ↔ Reachable vm roots (strongOffsets desc vm.mem) o) ∧
      st.drain desc vm fuel =
        some { mem := markedMem vm.mem live, objs := live.flatMap (keys vm.mem) }
  | 0, st, done, hf, hi => by
    have := h.length_le_capacity (List.nodup_append.mp hi.nodup).1
      fun x hx => h.object_of_reachable (hi.reachable x (List.mem_append_left _ hx))
    omega
  | fuel + 1, st, done, hf, hi => by
    rw [MarkState.drain]
    rcases List.eq_nil_or_concat st.worklist with hw | ⟨rest, o, hw⟩
    · refine ⟨done, (List.nodup_append.mp hi.nodup).1, fun o => ⟨fun ho =>
        hi.reachable o (List.mem_append_left _ ho), fun ho => ?_⟩, ?_⟩
      · have hall : ∀ x, x ∈ done ++ st.worklist ↔ x ∈ done := by simp [hw]
        induction ho with
        | root hr hin => exact (hall _).mp (hi.roots _ hr hin)
        | field _ hd hin ih => exact (hall _).mp (hi.closed _ ih _ hd hin)
      · have hm := hi.mem
        rw [hw, List.append_nil] at hm
        rw [hw, List.getLast?_nil, ← hm, ← hi.objs, ← hw]
    · rw [hw, List.concat_eq_append, List.getLast?_append, List.getLast?_singleton]
      simp only [Option.some_or, List.dropLast_concat]
      refine drain_spec fuel _ (done ++ [o]) (by simp; omega) ?_
      exact h.markInv_step hi (by rw [hw, List.concat_eq_append])

end WellFormed

end BJvm.Collector
