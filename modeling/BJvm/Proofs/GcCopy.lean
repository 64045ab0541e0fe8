import BJvm.Proofs.GcMark

/-!
# The sliding copy

The blocks of the live objects and monitors are moved down in the order of their addresses, one
behind the other.  A block is never moved up, so what is written never hits a block still to be
moved, and the marks are cleared before the blocks that hold them are moved (`copy_spec`).
-/

namespace BJvm.Collector

variable {desc : Nat → Classdesc} {vm : Vm} {objects roots L R : List Nat} {mem : Nat → Nat}
  {o o' k k' a d n w : Nat}

section

variable (desc : Nat → Classdesc) (mem : Nat → Nat)

/-- The blocks one behind the other from `w` on. -/
def locations (w : Nat) : List Nat → List Nat
  | [] => []
  | k :: ks => w :: locations (w + span desc mem k) ks

/-- The end of the blocks. -/
def endOf (w : Nat) : List Nat → Nat
  | [] => w
  | k :: ks => endOf (w + span desc mem k) ks

/-- The blocks lie in the order of the list. -/
def Separated (keys : List Nat) : Prop :=
  keys.Pairwise fun k k' => untag k + span desc mem k ≤ untag k'

end

theorem span_mod : span desc mem k % 8 = 0 := alignUp_mod _

theorem length_locations : ∀ {ks : List Nat} {w : Nat}, (locations desc mem w ks).length = ks.length
  | [], _ => rfl
  | _ :: _, _ => congrArg (· + 1) length_locations

theorem le_endOf : ∀ {ks : List Nat} {w : Nat}, w ≤ endOf desc mem w ks
  | [], _ => Nat.le_refl _
  | _ :: _, _ => Nat.le_trans (Nat.le_add_right _ _) le_endOf

theorem endOf_mod : ∀ (ks : List Nat) (w : Nat), w % 8 = 0 → endOf desc mem w ks % 8 = 0
  | [], _, h => h
  | k :: ks, w, h => endOf_mod ks (w + span desc mem k) (by
    rw [Nat.add_mod, h, span_mod])

theorem clearReachable_apply (mem : Nat → Nat) (o a : Nat) : clearReachable mem o a =
    if a = getMarkWord mem o then
      mem (getMarkWord mem o) ^^^ (mem (getMarkWord mem o) &&& 2) else mem a := by
  rw [clearReachable, Function.update_apply]

/-- Clearing the bit undoes setting it. -/
theorem clear_lor_two {n : Nat} (h : n.testBit 1 = false) :
    (n ||| 2) ^^^ ((n ||| 2) &&& 2) = n := by
  refine Nat.eq_of_testBit_eq fun i => ?_
  rw [Nat.testBit_xor, Nat.testBit_and, Nat.testBit_or]
  rcases Nat.lt_trichotomy i 1 with hi | rfl | hi
  · obtain rfl : i = 0 := by omega
    simp
  · simp [h]
  · have h2 : Nat.testBit 2 i = false := Nat.testBit_lt_two_pow (Nat.lt_of_lt_of_le
      (by decide : 2 < 2 ^ 2) (Nat.pow_le_pow_right (by decide) hi))
    simp [h2]

namespace WellFormed

variable (h : WellFormed desc vm objects roots)

include h

/-- What an object is can be told from a copy of its data. -/
theorem descriptor_congr (ho : o ∈ objects)
    (hm : ∀ d, 8 ≤ d → d < span desc vm.mem o → d ∉ referenceOffsets desc vm.mem o →
      mem (n + d) = vm.mem (o + d)) :
    descriptor desc mem n = descriptor desc vm.mem o := by
  have := h.span_pos ho self_mem_keys
  have hnot : 8 ∉ referenceOffsets desc vm.mem o := fun hd => by
    have := h.referenceOffsets_inside ho hd
    omega
  rw [descriptor, hm 8 (by omega) (by omega) hnot, descriptor]

theorem arrayLength_congr (ho : o ∈ objects) (hk : (descriptor desc vm.mem o).kind ≠ .ordinary)
    (hm : ∀ d, 8 ≤ d → d < span desc vm.mem o → d ∉ referenceOffsets desc vm.mem o →
      mem (n + d) = vm.mem (o + d)) :
    arrayLength mem n = arrayLength vm.mem o := by
  have hs := h.span_object ho
  have hle := le_alignUp (sizeOfObject desc vm.mem o)
  have h32 : 32 ≤ sizeOfObject desc vm.mem o := by
    rw [sizeOfObject]
    cases hk' : (descriptor desc vm.mem o).kind
    · exact absurd hk' hk
    all_goals exact Nat.le_add_right 32 _
  have hnot : kArrayLengthOffset ∉ referenceOffsets desc vm.mem o := by
    rw [referenceOffsets]
    cases hk' : (descriptor desc vm.mem o).kind
    · exact absurd hk' hk
    · simp
    · simp only [kArrayLengthOffset, kArrayDataOffset, List.mem_map, List.mem_range, not_exists,
        not_and]
      omega
    · simp
  rw [arrayLength, hm _ (by decide) (by rw [hs]; simp only [kArrayLengthOffset]; omega) hnot,
    arrayLength]

theorem sizeOfObject_congr (ho : o ∈ objects)
    (hm : ∀ d, 8 ≤ d → d < span desc vm.mem o → d ∉ referenceOffsets desc vm.mem o →
      mem (n + d) = vm.mem (o + d)) :
    sizeOfObject desc mem n = sizeOfObject desc vm.mem o := by
  rw [sizeOfObject, h.descriptor_congr ho hm, sizeOfObject]
  cases hk : (descriptor desc vm.mem o).kind
  · rfl
  all_goals simp only [h.arrayLength_congr ho (by simp [hk]) hm]

theorem referenceOffsets_congr (ho : o ∈ objects)
    (hm : ∀ d, 8 ≤ d → d < span desc vm.mem o → d ∉ referenceOffsets desc vm.mem o →
      mem (n + d) = vm.mem (o + d)) :
    referenceOffsets desc mem n = referenceOffsets desc vm.mem o := by
  rw [referenceOffsets, h.descriptor_congr ho hm, referenceOffsets]
  cases hk : (descriptor desc vm.mem o).kind
  case ordinaryArray => simp only [h.arrayLength_congr ho (by simp [hk]) hm]
  all_goals rfl

/-- Clearing the mark of one object. -/
theorem clearReachable_markedMem (hL : ∀ o ∈ L, o ∈ objects) (hn : o ∉ L)
    (ho : o ∈ objects) (hw : getMarkWord mem o = getMarkWord vm.mem o)
    (ha : mem a = markedMem vm.mem (o :: L) a)
    (hm : mem (getMarkWord vm.mem o) = markedMem vm.mem (o :: L) (getMarkWord vm.mem o)) :
    clearReachable mem o a = markedMem vm.mem L a := by
  rw [clearReachable_apply, hw]
  split_ifs with heq
  · rw [hm, heq, markedMem, if_pos (List.mem_map_of_mem List.mem_cons_self),
      clear_lor_two (h.unmarked o ho)]
    refine (markedMem_of_ne fun o' ho' heq' => ?_).symm
    exact hn (h.getMarkWord_inj ho (hL o' ho') heq' ▸ ho')
  · rw [ha]
    simp only [markedMem, List.map_cons, List.mem_cons, heq, false_or]

/-- One turn of the loop: the mark is cleared, and then the block moved. -/
theorem copy_step {st : CopyState} (hw : st.writePtr % 8 = 0) (ho : o ∈ objects)
    (hk : k ∈ keys vm.mem o) (hstart : ∀ k' ∈ k :: R, st.writePtr ≤ untag k')
    (hL : ∀ x ∈ R.filter fun k => !isMonitor k, x ∈ objects)
    (howner : o ∉ R.filter fun k => !isMonitor k)
    (hmon : k = o → hasExpandedData vm.mem o = true → vm.mem o + 1 ∈ R)
    (hmem : ∀ k' ∈ k :: R, ∀ a, untag k' ≤ a → a < untag k' + span desc vm.mem k' →
      st.mem a = markedMem vm.mem ((k :: R).filter fun k => !isMonitor k) a) :
    ∃ mem', st.copy desc k =
        { mem := memmove mem' st.writePtr (untag k) (span desc vm.mem k)
          writePtr := st.writePtr + span desc vm.mem k
          newLocation := st.newLocation ++ [st.writePtr] } ∧
      (∀ k' ∈ k :: R, ∀ a, untag k' ≤ a → a < untag k' + span desc vm.mem k' →
        mem' a = markedMem vm.mem (R.filter fun k => !isMonitor k) a) ∧
      ∀ a, (a < st.writePtr ∨ ∀ k' ∈ k :: R, untag k' + span desc vm.mem k' ≤ a) →
        mem' a = st.mem a := by
  have hu := h.untag_object ho
  have hpos := h.span_pos ho self_mem_keys
  rw [CopyState.copy, alignUp_of_aligned hw]
  rcases mem_keys.mp hk with rfl | ⟨he, rfl⟩
  · have hnot := h.not_isMonitor ho
    rw [List.filter_cons_of_pos (by simp [hnot])] at hmem
    generalize hLeq : (R.filter fun k => !isMonitor k) = L at *
    have hL' : ∀ x ∈ k :: L, x ∈ objects := fun x hx => by
      rcases List.mem_cons.mp hx with rfl | hx
      · exact ho
      · exact hL x hx
    have hself : ∀ d < span desc vm.mem k, st.mem (k + d) = markedMem vm.mem (k :: L) (k + d) :=
      fun d hd => hmem k List.mem_cons_self _ (by omega) (by omega)
    have hword : getMarkWord st.mem k = getMarkWord vm.mem k := by
      rw [← h.getMarkWord_markedMem hL' ho, getMarkWord, hasExpandedData,
        show st.mem k = _ from hself 0 (by omega)]
      rfl
    -- the mark word is in one of the blocks
    obtain ⟨k₀, hk₀, h1, h2⟩ : ∃ k₀ ∈ k :: R, untag k₀ ≤ getMarkWord vm.mem k ∧
        getMarkWord vm.mem k < untag k₀ + span desc vm.mem k₀ := by
      rcases getMarkWord_cases vm.mem k with ⟨-, hw⟩ | ⟨he, hw⟩ <;> rw [hw]
      · exact ⟨k, List.mem_cons_self, by omega, by omega⟩
      · refine ⟨_, List.mem_cons_of_mem _ (hmon rfl he), ?_, ?_⟩ <;>
          rw [h.untag_monitor ho he]
        · omega
        · rw [h.span_monitor ho he]
          omega
    have hsize : sizeOfObject desc st.mem k = sizeOfObject desc vm.mem k :=
      h.sizeOfObject_congr ho fun d h8 hd _ => by rw [hself d hd, h.markedMem_body hL' ho h8 hd]
    refine ⟨clearReachable st.mem k, ?_, fun k' hk' a ha1 ha2 => ?_, fun a ha => ?_⟩
    · simp only [hnot, Bool.false_eq_true, if_false, hu, hsize, h.span_object ho]
    · exact h.clearReachable_markedMem hL howner ho hword (hmem k' hk' a ha1 ha2)
        (hmem k₀ hk₀ _ h1 h2)
    · rw [clearReachable_apply, hword, if_neg]
      rintro rfl
      have := hstart k₀ hk₀
      rcases ha with ha | ha
      · omega
      · have := ha k₀ hk₀
        omega
  · have hmonitor := h.isMonitor_succ ho he
    rw [List.filter_cons_of_neg (by simp [hmonitor])] at hmem
    refine ⟨st.mem, ?_, hmem, fun _ _ => rfl⟩
    simp only [hmonitor, if_true, h.span_monitor ho he]
    rfl

/-- The loop over blocks that lie in order at and above the write pointer. -/
theorem copy_spec : ∀ (R : List Nat) (st : CopyState), st.writePtr % 8 = 0 →
    Separated desc vm.mem R → (∀ k ∈ R, ∃ o ∈ objects, k ∈ keys vm.mem o) →
    (∀ k ∈ R, st.writePtr ≤ untag k) →
    (∀ o ∈ objects, o ∈ R → hasExpandedData vm.mem o = true → vm.mem o + 1 ∈ R) →
    (∀ k ∈ R, ∀ a, untag k ≤ a → a < untag k + span desc vm.mem k →
      st.mem a = markedMem vm.mem (R.filter fun k => !isMonitor k) a) →
    ∃ m, R.foldl (CopyState.copy desc) st =
        { mem := m, writePtr := endOf desc vm.mem st.writePtr R,
          newLocation := st.newLocation ++ locations desc vm.mem st.writePtr R } ∧
      (∀ p ∈ R.zip (locations desc vm.mem st.writePtr R), ∀ d < span desc vm.mem p.1,
        m (p.2 + d) = vm.mem (untag p.1 + d)) ∧
      ∀ a, (a < st.writePtr ∨ ∀ k ∈ R, untag k + span desc vm.mem k ≤ a) → m a = st.mem a
  | [], st, _, _, _, _, _, _ => ⟨st.mem, by simp [endOf, locations], by simp, fun _ _ => rfl⟩
  | k :: R, st, hw, hsep, hkeys, hstart, hmon, hmem => by
    obtain ⟨hhead, hsep'⟩ := List.pairwise_cons.mp hsep
    obtain ⟨o, ho, hk⟩ := hkeys k List.mem_cons_self
    have hpos := h.span_pos ho hk
    have hkle := hstart k List.mem_cons_self
    have hkeys' := fun k' hk' => hkeys k' (List.mem_cons_of_mem _ hk')
    have hsub : ∀ x ∈ R.filter fun k => !isMonitor k, x ∈ objects := fun x hx => by
      obtain ⟨hx, hnot⟩ := List.mem_filter.mp hx
      obtain ⟨ox, hox, hkx⟩ := hkeys' x hx
      rcases mem_keys.mp hkx with rfl | ⟨he, rfl⟩
      · exact hox
      · rw [h.isMonitor_succ hox he] at hnot
        cases hnot
    -- the owner of the block has none of the marks that are left
    have howner : o ∉ R.filter fun k => !isMonitor k := fun hmem => by
      have hsepo := hhead o (List.mem_filter.mp hmem).1
      have hu := h.untag_object ho
      rcases mem_keys.mp hk with rfl | ⟨he, rfl⟩
      · omega
      · rw [h.untag_monitor ho he] at hsepo
        have := h.monitor o ho he
        omega
    have hmon' : ∀ o ∈ objects, o ∈ R → hasExpandedData vm.mem o = true → vm.mem o + 1 ∈ R :=
      fun x hx hxR he => by
        rcases List.mem_cons.mp (hmon x hx (List.mem_cons_of_mem _ hxR) he) with heq | hR
        · have hsepx := hhead x hxR
          rw [← heq, h.untag_monitor hx he, h.untag_object hx] at hsepx
          have := h.monitor x hx he
          omega
        · exact hR
    obtain ⟨mem', hcopy, hmem', hout⟩ := h.copy_step hw ho hk hstart hsub howner
      (fun hko he => by
        have heq := hko
        rcases List.mem_cons.mp (hmon o ho (heq ▸ List.mem_cons_self) he) with heq' | hR
        · have := h.monitor o ho he
          omega
        · exact hR) hmem
    have hblock : ∀ a, untag k ≤ a → a < untag k + span desc vm.mem k → mem' a = vm.mem a :=
      fun a ha1 ha2 => by
        rw [hmem' k List.mem_cons_self a ha1 ha2, h.markedMem_block hsub ho hk howner ha1 ha2]
    rw [List.foldl_cons, hcopy]
    obtain ⟨m, h1, h2, h3⟩ := copy_spec R
      { mem := memmove mem' st.writePtr (untag k) (span desc vm.mem k)
        writePtr := st.writePtr + span desc vm.mem k
        newLocation := st.newLocation ++ [st.writePtr] }
      (by have : span desc vm.mem k % 8 = 0 := span_mod; simp only; omega) hsep' hkeys'
      (fun k' hk' => by have := hhead k' hk'; simp only; omega) hmon'
      (fun k' hk' a ha1 ha2 => by
        have := hhead k' hk'
        simp only [memmove]
        rw [if_neg (by omega)]
        exact hmem' k' (List.mem_cons_of_mem _ hk') a ha1 ha2)
    refine ⟨m, ?_, fun p hp d hd => ?_, fun a ha => ?_⟩
    · rw [h1]
      simp only [endOf, locations, List.append_assoc, List.singleton_append]
    · rw [locations, List.zip_cons_cons] at hp
      rcases List.mem_cons.mp hp with rfl | hp
      · rw [h3 _ (.inl (by simp only at hd ⊢; omega))]
        simp only [memmove] at hd ⊢
        rw [if_pos (by omega), Nat.add_sub_cancel_left]
        exact hblock _ (by omega) (by omega)
      · exact h2 p hp d hd
    · rw [h3 a (ha.imp (fun hlt => by simp only; omega) fun hall k' hk' =>
        hall k' (List.mem_cons_of_mem _ hk'))]
      have hnot : ¬ (st.writePtr ≤ a ∧ a < st.writePtr + span desc vm.mem k) := fun hin => by
        rcases ha with ha | ha
        · omega
        · have := ha k List.mem_cons_self
          omega
      simp only [memmove]
      rw [if_neg hnot]
      exact hout a ha

end WellFormed

end BJvm.Collector
