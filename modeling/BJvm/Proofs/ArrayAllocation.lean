import BJvm.Memory.ArrayAllocation

/-!
# What arrays are allocated

The size that is asked for is the bytes of the array as long as the arithmetic holds them, and
beyond that it is too small, or so large that the heap cannot have it unless the sum wraps around,
too.
-/

namespace BJvm.Arrays

variable {target : Target} {size : HeapSize target} {majorGc : Heap size → Heap size}
  {heap : Heap size} {kind : ElementKind} {count : Int32}

/-! ### Arithmetic -/

theorem toInt_emod (x : Int) : toInt x % 2 ^ 32 = x % 2 ^ 32 := by
  unfold toInt
  exact Int.bmod_emod

theorem toInt_range (x : Int) : -2 ^ 31 ≤ toInt x ∧ toInt x < 2 ^ 31 := by
  unfold toInt
  rw [Int.bmod_def]
  split_ifs <;> omega

theorem toInt_add_toInt (x y : Int) : toInt (x + toInt y) = toInt (x + y) := by
  unfold toInt
  exact Int.add_bmod_bmod

theorem elementSize_le : kind.elementSize target ≤ 8 := by
  cases kind with
  | object => cases target <;> decide
  | primitive kind h => cases kind <;> simp [ElementKind.elementSize, Collector.sizeofTypeKind]

theorem arrayBytes_range (h : 0 ≤ count.toInt) :
    16 ≤ arrayBytes target kind count ∧ arrayBytes target kind count < 2 ^ 35 := by
  have hle := @elementSize_le target kind
  have hcount : count.toInt < 2 ^ 31 := count.toInt_lt
  have hlow : 0 ≤ count.toInt * kind.elementSize target :=
    Int.mul_nonneg h (Int.natCast_nonneg _)
  have hhigh : count.toInt * kind.elementSize target ≤ count.toInt * 8 :=
    Int.mul_le_mul_of_nonneg_left (by omega) h
  unfold arrayBytes
  cases target <;> simp only [Target.kArrayDataOffset] at * <;> omega

/-- In one step of wrapping around, if it is all in `int`. -/
theorem allocationSize_primitive (k : TypeKind) (hk : k ≠ .reference ∧ k ≠ .void) :
    (ElementKind.primitive k hk).allocationSize target count
      = toSize target (toInt (arrayBytes target (.primitive k hk) count)) := by
  rw [ElementKind.allocationSize, toInt_add_toInt]
  rfl

theorem allocationSize_object (h : 0 ≤ count.toInt) :
    ElementKind.object.allocationSize target count
      = toSize target (arrayBytes target .object count) := by
  have hcount : count.toInt < 2 ^ 31 := count.toInt_lt
  cases target <;>
    simp only [ElementKind.allocationSize, arrayBytes, ElementKind.elementSize, toSize, Target.bits,
      Target.sizeofObject, Target.kArrayDataOffset] <;> omega

/-- The size that is asked for is that of the array, or is far from it. -/
theorem allocationSize_spec (h : 0 ≤ count.toInt) :
    (¬TooLarge target kind count →
      (kind.allocationSize target count : Int) = arrayBytes target kind count) ∧
    (TooLarge target kind count →
      (kind.allocationSize target count : Int) + 2 ^ 32 ≤ arrayBytes target kind count ∨
        2 ^ 64 - 2 ^ 31 ≤ (kind.allocationSize target count : Int)) ∧
    kind.allocationSize target count < 2 ^ target.bits := by
  obtain ⟨hlow, hhigh⟩ := @arrayBytes_range target kind count h
  cases kind with
  | primitive k hk =>
    rw [allocationSize_primitive]
    obtain ⟨hneg, hpos⟩ := toInt_range (arrayBytes target (.primitive k hk) count)
    have hmod := toInt_emod (arrayBytes target (.primitive k hk) count)
    cases target <;> simp only [TooLarge, toSize, Target.bits] <;> omega
  | object =>
    rw [allocationSize_object h]
    cases target with
    | bits32 =>
      simp only [TooLarge, toSize, Target.bits]
      omega
    | bits64 =>
      refine ⟨fun _ => ?_, False.elim, ?_⟩ <;>
        simp only [toSize, Target.bits] <;> omega

/-! ### Allocation -/

theorem bumpAllocate_eq (bytes : Nat) :
    (bumpAllocate majorGc heap bytes).2 =
      (if size.capacity < (heapFor majorGc heap bytes).sum (alignUp target bytes) then none
        else some (heapFor majorGc heap bytes).heapUsed) ∧
    ((heapFor majorGc heap bytes).sum (alignUp target bytes) ≤ size.capacity →
      (bumpAllocate majorGc heap bytes).1.heapUsed
        = (heapFor majorGc heap bytes).sum (alignUp target bytes)) := by
  unfold bumpAllocate heapFor
  by_cases h : heap.sum (alignUp target bytes) ≤ size.capacity
  · simp [h]
  · by_cases h' : (majorGc heap).sum (alignUp target bytes) ≤ size.capacity
    · simp [h, h', not_lt.2 h']
    · simp [h, h', not_le.1 h']

/-- The end of what is allocated: rounded up, or not behind the start. -/
theorem sum_alignUp (heap : Heap size) {bytes : Nat} (h : bytes < 2 ^ target.bits) :
    (heap.heapUsed + (bytes + 7) / 8 * 8 < 2 ^ target.bits ∧
      heap.sum (alignUp target bytes) = heap.heapUsed + (bytes + 7) / 8 * 8) ∨
    (2 ^ target.bits ≤ heap.heapUsed + (bytes + 7) / 8 * 8 ∧
      heap.sum (alignUp target bytes) ≤ heap.heapUsed) := by
  have hused := heap.used_le
  have hcap := size.capacity_lt
  unfold Heap.sum alignUp
  cases target <;> simp only [toSize, Target.bits] at * <;> omega

theorem newarray_negative (h : count < 0) :
    newarray majorGc heap kind count = (heap, .negativeArraySize count) := by
  rw [newarray, if_pos h]

/-- Creating an array allocates it all when there is no memory for what is asked, or the size is
what the arithmetic can hold, and so is the end of the array. -/
theorem allocatesAll_iff (majorGc : Heap size → Heap size) (heap : Heap size) (kind : ElementKind)
    (count : Int32) :
    let asked := kind.allocationSize target count
    let u := heapFor majorGc heap asked
    AllocatesAll majorGc heap kind count ↔ count < 0 ∨
      size.capacity < u.sum (alignUp target asked) ∨
      (¬TooLarge target kind count ∧
        u.heapUsed + (arrayBytes target kind count + 7) / 8 * 8 < 2 ^ target.bits) := by
  intro asked u
  unfold AllocatesAll
  by_cases hneg : count < 0
  · rw [newarray_negative hneg]
    simp [hneg]
  have hcount : 0 ≤ count.toInt := by
    rw [Int32.lt_iff_toInt_lt, not_lt] at hneg
    simpa using hneg
  obtain ⟨hobj, hused⟩ := @bumpAllocate_eq target size majorGc heap asked
  rw [newarray, if_neg hneg, createArray1D]
  dsimp only
  rw [hobj]
  by_cases hfull : size.capacity < u.sum (alignUp target asked)
  · rw [if_pos hfull]
    simp [hfull]
  rw [if_neg hfull]
  simp only [Option.map_some, Option.elim_some, NewArrayResult.array.injEq, forall_eq', hneg,
    false_or, hfull]
  rw [hused (not_lt.1 hfull)]
  have hlt : asked < 2 ^ target.bits := (allocationSize_spec hcount).2.2
  have hsmall : ¬TooLarge target kind count → (asked : Int) = arrayBytes target kind count :=
    (allocationSize_spec hcount).1
  have hlarge : TooLarge target kind count →
      (asked : Int) + 2 ^ 32 ≤ arrayBytes target kind count ∨ 2 ^ 64 - 2 ^ 31 ≤ (asked : Int) :=
    (allocationSize_spec hcount).2.1
  obtain ⟨hlow, hhigh⟩ := @arrayBytes_range target kind count hcount
  have hcap := size.capacity_lt
  have hle : u.heapUsed ≤ size.capacity := u.used_le
  change (u.heapUsed + arrayBytes target kind count ≤ u.sum (alignUp target asked)) ↔ _
  rw [not_lt] at hfull
  clear_value u asked
  by_cases hwrong : TooLarge target kind count
  · refine iff_of_false ?_ fun h => h.1 hwrong
    rcases sum_alignUp u hlt with ⟨-, hsum⟩ | ⟨-, hsum⟩
    · rcases hlarge hwrong with hfar | hhuge
      · omega
      · -- a heap cannot have that much
        have hcap' : size.capacity < 2 ^ 63 := hcap.trans_le (by cases target <;> decide)
        omega
    · omega
  · have hsize := hsmall hwrong
    rw [and_iff_right hwrong]
    rcases sum_alignUp u hlt with ⟨hin, hsum⟩ | ⟨hout, hsum⟩
    · exact iff_of_true (by omega) (by
        rw [← hsize]
        exact_mod_cast hin)
    · refine iff_of_false (by omega) ?_
      rw [← hsize, not_lt]
      exact_mod_cast hout

/-! ### A failing allocation -/

/-- A heap of 64 MB, as `default_vm_options` has it. -/
def defaultHeapSize : HeapSize .bits64 where
  capacity := 2 ^ 26
  capacity_lt := by decide

/-- 32 bytes for `new long[1 << 29]`. -/
theorem longs_not_allocatesAll :
    ¬AllocatesAll (fun heap => heap) (⟨0, Nat.zero_le _⟩ : Heap defaultHeapSize)
      (.primitive .long (by decide)) 536870912 := by
  intro h
  have hend := h { base := 0, length := 536870912 } rfl
  revert hend
  decide

end BJvm.Arrays
