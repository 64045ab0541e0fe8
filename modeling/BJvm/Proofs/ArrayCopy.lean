import BJvm.Natives.ArrayCopy
import BJvm.Proofs.Instanceof
import Mathlib.Data.Nat.Find

/-!
# System.arraycopy

Both ways of copying move some number of elements at once (`copyLoop_eq`), and what a move leaves can
be told from what was there before (`memmove_copied_iff`).  So a call does what the documentation
says as far as `instanceof` tells what may be assigned.
-/

namespace BJvm.ArrayCopy

open Arrays (Target)
open Chunks
open Function (update)
open Linker (ClassId)

variable {target : Target} {heap heap' : Heap target} {src dest : Nat}
  {srcPos destPos length : BitVec 32} {instanceof : ClassId → ClassId → Bool}
  {assignable : ClassId → ClassId → Prop} {comp : ClassId} {k n s d size i : Nat}

/-! ### Exceptions -/

theorem is1DPrimitiveArray_iff {o : HeapObject target} :
    o.is1DPrimitiveArray = true ↔ ∃ kind, o.descriptor = ⟨.primitive kind, 1⟩ := by
  rw [HeapObject.is1DPrimitiveArray, decide_eq_true_eq]
  obtain ⟨_ | kind, _ | _ | d⟩ := o.descriptor <;> simp [ClassId.kind]

theorem primitiveElement_eq {o : HeapObject target} :
    o.primitiveElement =
      if o.is1DPrimitiveArray then some o.descriptor.primitiveComponent else none := by
  rw [HeapObject.primitiveElement, HeapObject.is1DPrimitiveArray]
  obtain ⟨_ | kind, _ | _ | d⟩ := o.descriptor <;> rfl

theorem not_isArray_iff {o : HeapObject target} :
    ¬ o.isArray = true ↔ o.descriptor.kind = .ordinary := by
  have hprim := o.not_primitive
  rw [HeapObject.isArray, decide_eq_true_eq]
  generalize o.descriptor = c at hprim ⊢
  obtain ⟨_ | kind, _ | _ | d⟩ := c <;> simp_all [ClassId.kind]

theorem incompatible_iff {a b : HeapObject target} :
    a.primitiveElement ≠ b.primitiveElement ↔
      (a.is1DPrimitiveArray ≠ b.is1DPrimitiveArray ∨ a.is1DPrimitiveArray = true ∧
        a.descriptor.primitiveComponent ≠ b.descriptor.primitiveComponent) := by
  rw [primitiveElement_eq, primitiveElement_eq]
  cases a.is1DPrimitiveArray <;> cases b.is1DPrimitiveArray <;> simp

/-- The sum does not overflow. -/
theorem outOfBounds_iff (o : HeapObject target) (pos : BitVec 32) :
    outOfBounds pos length o.length = true ↔ (o.length : Int) < pos.toInt + length.toInt := by
  have hlt := o.length_lt
  have hpos := BitVec.toInt_lt (x := pos)
  have hpos' := BitVec.le_toInt (x := pos)
  have hlen := BitVec.toInt_lt (x := length)
  have hlen' := BitVec.le_toInt (x := length)
  rw [outOfBounds, BitVec.slt, decide_eq_true_eq, BitVec.toInt_add,
    BitVec.toInt_signExtend_of_le (by decide), BitVec.toInt_signExtend_of_le (by decide),
    BitVec.toInt_signExtend_of_le (by decide), BitVec.toInt_ofNat', Int.bmod_eq_of_le (by omega)
      (by omega), Int.bmod_eq_of_le (by omega) (by omega)]

theorem slt_zero_iff (x : BitVec 32) : x.slt 0 = true ↔ x.toInt < 0 := by
  rw [BitVec.slt, decide_eq_true_eq]
  rfl

/-- The range lies in both arrays. -/
structure InRange (heap : Heap target) (src : Nat) (srcPos : BitVec 32) (dest : Nat)
    (destPos length : BitVec 32) : Prop where
  src_le : srcPos.toNat + length.toNat ≤ (heap src).length
  dest_le : destPos.toNat + length.toNat ≤ (heap dest).length

theorem toNat_of_nonneg {x : BitVec 32} (h : ¬ x.toInt < 0) : (x.toNat : Int) = x.toInt := by
  rw [BitVec.toInt_eq_toNat_bmod] at h ⊢
  have hlt := x.isLt
  simp only [Int.bmod] at h ⊢
  omega

/-- The code looks for the same exceptions as the documentation, in the same order. -/
theorem arraycopy_of_exception (instanceof : ClassId → ClassId → Bool) {exc : Exc}
    (h : specifiedException heap src srcPos dest destPos length = some exc) :
    ∃ thrown, thrown.exc = exc ∧
      arraycopy instanceof heap src srcPos dest destPos length = some (heap, some thrown) := by
  rw [specifiedException] at h
  rw [arraycopy]
  simp only [slt_zero_iff, outOfBounds_iff, ← incompatible_iff, ← not_isArray_iff]
  split_ifs at h with hnull harray hprim hbounds
  all_goals obtain rfl := Option.some.inj h
  · exact ⟨.nullPointerException, rfl, if_pos hnull⟩
  · rw [if_neg hnull]
    by_cases hs : (heap src).isArray = true
    · rw [if_neg (not_not.mpr hs), if_pos (harray.resolve_left (not_not.mpr hs))]
      exact ⟨.arrayStoreException _, rfl, rfl⟩
    · rw [if_pos hs]
      exact ⟨.arrayStoreException _, rfl, rfl⟩
  · rw [not_or] at harray
    rw [if_neg hnull, if_neg harray.1, if_neg harray.2, if_pos hprim]
    exact ⟨.arrayStoreException _, rfl, rfl⟩
  · rw [not_or] at harray
    rw [if_neg hnull, if_neg harray.1, if_neg harray.2, if_neg hprim, if_pos hbounds]
    exact ⟨.arrayIndexOutOfBoundsException, rfl, rfl⟩

/-- What holds of the two arrays behind the checks. -/
structure Compatible (heap : Heap target) (src dest : Nat) : Prop where
  srcArray : (heap src).isArray = true
  destArray : (heap dest).isArray = true
  primitive : (heap src).primitiveElement = (heap dest).primitiveElement

/-- The copy that `arraycopy` makes of elements of a primitive type. -/
theorem arraycopy_of_none (instanceof : ClassId → ClassId → Bool)
    (h : specifiedException heap src srcPos dest destPos length = none) :
    Compatible heap src dest ∧ InRange heap src srcPos dest destPos length ∧
      arraycopy instanceof heap src srcPos dest destPos length =
        if (heap src).is1DPrimitiveArray then
          (copySize (heap src).descriptor.primitiveComponent).map fun size =>
            (heap.memmove size dest destPos.toNat src srcPos.toNat length.toNat, none)
        else
          match (heap src).descriptor.oneFewerDim, (heap dest).descriptor.oneFewerDim with
          | some srcComp, some destComp =>
            if instanceof srcComp destComp then
              some (heap.memmove target.sizeofObject dest destPos.toNat src srcPos.toNat
                length.toNat, none)
            else
              some (copyLoop instanceof destComp src dest length.toNat srcPos.toNat destPos.toNat
                heap)
          | _, _ => none := by
  rw [specifiedException] at h
  split_ifs at h with hnull harray hprim hbounds
  have harray' := not_or.mp harray
  have hbounds' := hbounds
  simp only [not_or] at hbounds'
  obtain ⟨h1, h2, h3, h4, h5⟩ := hbounds'
  refine ⟨⟨not_not.mp harray'.1, not_not.mp harray'.2, not_not.mp hprim⟩, ⟨?_, ?_⟩, ?_⟩
  · rw [← toNat_of_nonneg h1, ← toNat_of_nonneg h3] at h4
    omega
  · rw [← toNat_of_nonneg h2, ← toNat_of_nonneg h3] at h5
    omega
  · rw [arraycopy]
    simp only [slt_zero_iff, outOfBounds_iff, ← incompatible_iff, ← not_isArray_iff]
    rw [if_neg hnull, if_neg harray'.1, if_neg harray'.2, if_neg hprim]
    exact if_neg hbounds

/-! ### Moving elements -/

theorem copySize_eq {kind : TypeKind} (h : copySize kind = some size) :
    size = Collector.sizeofTypeKind kind := by
  cases kind <;> cases h <;> rfl

/-- The elements of compatible arrays have the same size. -/
theorem Compatible.elementSize (h : Compatible heap src dest) :
    elementSize target (heap src).descriptor = elementSize target (heap dest).descriptor := by
  have hprim := h.primitive
  rw [primitiveElement_eq, primitiveElement_eq] at hprim
  rw [ArrayCopy.elementSize, ArrayCopy.elementSize]
  by_cases hs : (heap src).is1DPrimitiveArray = true <;>
    by_cases hd : (heap dest).is1DPrimitiveArray = true
  · rw [if_pos hs, if_pos hd, Option.some.injEq] at hprim
    rw [if_pos (of_decide_eq_true hs), if_pos (of_decide_eq_true hd), hprim]
  · rw [if_pos hs, if_neg hd] at hprim
    cases hprim
  · rw [if_neg hs, if_pos hd] at hprim
    cases hprim
  · rw [if_neg fun h => hs (decide_eq_true h), if_neg fun h => hd (decide_eq_true h)]

/-- The write that a move does. -/
theorem memmove_dest (hsize : elementSize target (heap src).descriptor = size)
    (hsize' : elementSize target (heap dest).descriptor = size) (hs : s + k ≤ (heap src).length)
    (hd : d + k ≤ (heap dest).length) : ∃ hsized, heap.memmove size dest d src s k =
      update heap dest { heap dest with
        data := overwrite (heap dest).data (d * size) (chunks size (heap src).data s k)
        sized := hsized } := by
  have hsrc : (s + k) * size ≤ (heap src).data.length := by
    rw [(heap src).sized, hsize]
    exact Nat.mul_le_mul_right _ hs
  have hdest : d * size + (chunks size (heap src).data s k).length ≤ (heap dest).data.length := by
    rw [length_chunks hsrc, ← Nat.add_mul, (heap dest).sized, hsize']
    exact Nat.mul_le_mul_right _ hd
  refine ⟨(length_overwrite hdest).trans (heap dest).sized, ?_⟩
  rw [Heap.memmove, HeapObject.write, dif_pos hdest]

section

variable (hsize : elementSize target (heap src).descriptor = size)
  (hsize' : elementSize target (heap dest).descriptor = size)
  (hrange : InRange heap src srcPos dest destPos length)

include hsize hsize' hrange

theorem InRange.data (hk : k ≤ length.toNat) :
    (srcPos.toNat + k) * size ≤ (heap src).data.length ∧
      (destPos.toNat + k) * size ≤ (heap dest).data.length := by
  obtain ⟨hs, hd⟩ := hrange
  rw [(heap src).sized, (heap dest).sized, hsize, hsize']
  exact ⟨Nat.mul_le_mul_right _ (by omega), Nat.mul_le_mul_right _ (by omega)⟩

/-- A move copies. -/
theorem memmove_copied (hk : k ≤ length.toNat) : Copied heap src srcPos dest destPos
    (heap.memmove size dest destPos.toNat src srcPos.toNat k) k := by
  obtain ⟨hs, hd⟩ := hrange
  obtain ⟨hsized, heq⟩ := memmove_dest hsize hsize' (s := srcPos.toNat) (d := destPos.toNat)
    (k := k) (by omega) (by omega)
  obtain ⟨hsrc, hdest⟩ := InRange.data hsize hsize' ⟨hs, hd⟩ hk
  rw [heq]
  refine ⟨fun r hr => Function.update_of_ne hr .., ?_, ?_, fun i hi => ?_, fun j hj => ?_⟩
  · rw [Function.update_self]
  · rw [Function.update_self]
  · simp only [Heap.element, Function.update_self, hsize, hsize']
    exact chunk_overwrite_inside hdest hsrc hi
  · simp only [Heap.element, Function.update_self, hsize']
    exact chunk_overwrite_outside hdest (length_chunks hsrc) hj

/-- A move of more elements copies fewer, if the others were there. -/
theorem memmove_copied_iff {stop : Nat} (hk : k ≤ stop) (hstop : stop ≤ length.toNat) :
    Copied heap src srcPos dest destPos
        (heap.memmove size dest destPos.toNat src srcPos.toNat stop) k ↔
      ∀ i, k ≤ i → i < stop → heap.element src (srcPos.toNat + i) =
        heap.element dest (destPos.toNat + i) := by
  have hcopied := memmove_copied hsize hsize' hrange hstop
  constructor
  · intro h i hki hi
    rw [← hcopied.copied i hi]
    exact h.rest _ (.inr (by omega))
  · intro h
    refine ⟨hcopied.others, hcopied.descriptor, hcopied.length_eq,
      fun i hi => hcopied.copied i (by omega), fun j hj => ?_⟩
    by_cases hjs : j < destPos.toNat ∨ destPos.toNat + stop ≤ j
    · exact hcopied.rest j hjs
    · obtain ⟨i, rfl⟩ : ∃ i, j = destPos.toNat + i := ⟨j - destPos.toNat, by omega⟩
      rw [hcopied.copied i (by omega), h i (by omega) (by omega)]

end

/-! ### The loop -/

theorem memmove_zero : heap.memmove size dest d src s 0 = heap := by
  rw [Heap.memmove, chunks_zero, HeapObject.write]
  split_ifs with h
  · rw [Function.update_eq_self_iff]
    simp only [overwrite_nil]
  · exact Function.update_eq_self ..

/-- A move keeps what a write into the data keeps. -/
theorem memmove_keeps {β : Type} (f : HeapObject target → β)
    (hf : ∀ o offset bytes, f (HeapObject.write o offset bytes) = f o) (r : Nat) :
    f (heap.memmove size dest d src s k r) = f (heap r) := by
  rw [Heap.memmove]
  rcases eq_or_ne r dest with rfl | hr
  · rw [Function.update_self, hf]
  · rw [Function.update_of_ne hr]

theorem memmove_descriptor (r : Nat) :
    (heap.memmove size dest d src s k r).descriptor = (heap r).descriptor :=
  memmove_keeps HeapObject.descriptor (fun o offset bytes => by
    rw [HeapObject.write]
    split_ifs <;> rfl) r

theorem memmove_length (r : Nat) :
    (heap.memmove size dest d src s k r).length = (heap r).length :=
  memmove_keeps HeapObject.length (fun o offset bytes => by
    rw [HeapObject.write]
    split_ifs <;> rfl) r

/-- A move of one element and a move of those behind it. -/
theorem memmove_memmove (hne : src ≠ dest)
    (hsize : elementSize target (heap src).descriptor = size)
    (hsize' : elementSize target (heap dest).descriptor = size)
    (hs : s + (k + 1) ≤ (heap src).length) (hd : d + (k + 1) ≤ (heap dest).length) :
    (heap.memmove size dest d src s 1).memmove size dest (d + 1) src (s + 1) k =
      heap.memmove size dest d src s (k + 1) := by
  obtain ⟨_, h1⟩ := memmove_dest hsize hsize' (s := s) (d := d) (k := 1) (by omega) (by omega)
  obtain ⟨_, h2⟩ := memmove_dest hsize hsize' hs hd
  have hroom₁ : s + 1 + k ≤ (heap.memmove size dest d src s 1 src).length := by
    rw [memmove_length]
    omega
  have hroom₂ : d + 1 + k ≤ (heap.memmove size dest d src s 1 dest).length := by
    rw [memmove_length]
    omega
  have hsize₁ : elementSize target (heap.memmove size dest d src s 1 src).descriptor = size := by
    rw [memmove_descriptor, hsize]
  have hsize₂ : elementSize target (heap.memmove size dest d src s 1 dest).descriptor = size := by
    rw [memmove_descriptor, hsize']
  obtain ⟨_, h3⟩ := memmove_dest hsize₁ hsize₂ hroom₁ hroom₂
  have hsrc : (heap.memmove size dest d src s 1) src = heap src := by
    rw [Heap.memmove, Function.update_of_ne hne]
  have hfirst : (s + 1) * size ≤ (heap src).data.length := by
    rw [(heap src).sized, hsize]
    exact Nat.mul_le_mul_right _ (by omega)
  have hroom : d * size + (chunk size (heap src).data s).length ≤ (heap dest).data.length := by
    rw [chunk, length_chunks hfirst, ← Nat.add_mul, (heap dest).sized, hsize']
    exact Nat.mul_le_mul_right _ (by omega)
  have hplace : (d + 1) * size = d * size + (chunk size (heap src).data s).length := by
    rw [chunk, length_chunks hfirst, Nat.add_mul]
  rw [h3, h2]
  simp only [hsrc, h1, Function.update_self, Function.update_idem]
  congr 2
  rw [chunks_succ (n := k), hplace]
  exact overwrite_overwrite hroom

/-- The loop moves the elements that pass. -/
theorem copyLoop_eq (hne : src ≠ dest) :
    ∀ {n s d stop : Nat} {heap : Heap target},
      elementSize target (heap src).descriptor = target.sizeofObject →
      elementSize target (heap dest).descriptor = target.sizeofObject →
      s + n ≤ (heap src).length → d + n ≤ (heap dest).length → stop ≤ n →
      (∀ i < stop, heap.passes instanceof comp (heap.element src (s + i)) = true) →
      (stop < n → ¬ heap.passes instanceof comp (heap.element src (s + stop)) = true) →
      copyLoop instanceof comp src dest n s d heap =
        (heap.memmove target.sizeofObject dest d src s stop,
          if stop < n then
            some (.arrayStoreException "source and destination are not compatible")
          else none)
  | 0, s, d, stop, heap, _, _, _, _, hstop, _, _ => by
    obtain rfl : stop = 0 := by omega
    rw [memmove_zero]
    rfl
  | n + 1, s, d, 0, heap, hsize, _, _, _, _, _, hreject => by
    have hs := hreject (Nat.succ_pos n)
    rw [Heap.element, hsize, Nat.add_zero] at hs
    rw [copyLoop, if_neg hs, memmove_zero, if_pos (Nat.succ_pos n)]
  | n + 1, s, d, stop + 1, heap, hsize, hsize', hs, hd, hstop, hpass, hreject => by
    have hfirst := hpass 0 (Nat.succ_pos stop)
    rw [Heap.element, hsize, Nat.add_zero] at hfirst
    have hsrc : (heap.memmove target.sizeofObject dest d src s 1) src = heap src := by
      rw [Heap.memmove, Function.update_of_ne hne]
    have hpasses : ∀ i, (heap.memmove target.sizeofObject dest d src s 1).passes instanceof comp
        ((heap.memmove target.sizeofObject dest d src s 1).element src (s + 1 + i)) =
        heap.passes instanceof comp (heap.element src (s + (i + 1))) := fun i => by
      rw [Heap.element, Heap.element, hsrc, Heap.passes, Heap.passes, memmove_descriptor,
        show s + 1 + i = s + (i + 1) by omega]
    have hroom : s + 1 + n ≤ (heap.memmove target.sizeofObject dest d src s 1 src).length := by
      rw [memmove_length]
      omega
    have hroom' : d + 1 + n ≤ (heap.memmove target.sizeofObject dest d src s 1 dest).length := by
      rw [memmove_length]
      omega
    have hrest := copyLoop_eq hne (by rw [memmove_descriptor, hsize])
      (by rw [memmove_descriptor, hsize']) hroom hroom' (by omega : stop ≤ n)
      (fun i hi => (hpasses i).trans (hpass (i + 1) (by omega)))
      (fun hlt => by rw [hpasses]; exact hreject (by omega))
    rw [memmove_memmove hne hsize hsize' (by omega) (by omega)] at hrest
    rw [copyLoop, if_pos hfirst]
    refine hrest.trans ?_
    simp only [Nat.add_lt_add_iff_right]

/-! ### A call -/

/-- `instanceof` tells what may be assigned, but for arrays of booleans. -/
def Judges (heap : Heap target) (src : Nat) (srcPos : BitVec 32) (dest : Nat) (length : BitVec 32)
    (instanceof : ClassId → ClassId → Bool) (assignable : ClassId → ClassId → Prop) : Prop :=
  (heap src).is1DPrimitiveArray = false → (heap dest).is1DPrimitiveArray = false →
    ∀ i < length.toNat, ∀ comp, (heap dest).descriptor.oneFewerDim = some comp →
    address (heap.element src (srcPos.toNat + i)) ≠ 0 →
    (instanceof (heap (address (heap.element src (srcPos.toNat + i)))).descriptor comp = true ↔
      assignable (heap (address (heap.element src (srcPos.toNat + i)))).descriptor comp ∨
        BooleansForObjects heap src srcPos dest i)

/-- Moving everything is right if everything may be assigned. -/
theorem specified_whole_iff (hnone : specifiedException heap src srcPos dest destPos length = none)
    (hcopied : Copied heap src srcPos dest destPos heap' length.toNat) :
    Specified heap src srcPos dest destPos length assignable (heap', none) ↔
      ∀ k < length.toNat, (∀ i < k, Assignable heap src srcPos dest assignable i) →
        Assignable heap src srcPos dest assignable k := by
  constructor
  · intro h k hk hall
    by_contra hnot
    have hthrown := (h.upTo hnone k hk hall hnot).1
    cases hthrown
  · intro h
    refine ⟨fun exc hexc => ?_, fun _ _ => ⟨rfl, hcopied⟩, fun _ k hk hall hnot => ?_⟩
    · rw [hnone] at hexc
      cases hexc
    · exact absurd (h k hk hall) hnot

/-- An element passes the loop if it may be assigned, or is an array of booleans for objects. -/
theorem passes_iff (hprim : (heap src).is1DPrimitiveArray = false)
    (hprim' : (heap dest).is1DPrimitiveArray = false)
    (hcomp : (heap dest).descriptor.oneFewerDim = some comp)
    (hjudges : Judges heap src srcPos dest length instanceof assignable) (hi : i < length.toNat) :
    heap.passes instanceof comp (heap.element src (srcPos.toNat + i)) = true ↔
      Assignable heap src srcPos dest assignable i ∨ BooleansForObjects heap src srcPos dest i := by
  rw [Heap.passes, Bool.or_eq_true, decide_eq_true_eq, Assignable, hprim]
  by_cases hnull : address (heap.element src (srcPos.toNat + i)) = 0
  · exact iff_of_true (.inl hnull) (.inl (.inr (.inl hnull)))
  · rw [or_iff_right hnull, or_iff_right Bool.false_ne_true, or_iff_right hnull, hcomp,
      hjudges hprim hprim' i hi comp hcomp hnull]
    simp only [Option.some.injEq, exists_eq_left']

/-- The copy that ends at `stop` is right if what was copied too much was there before. -/
theorem specified_stopped_iff {stop : Nat} {message : String}
    (hnone : specifiedException heap src srcPos dest destPos length = none)
    (hsize : elementSize target (heap src).descriptor = size)
    (hsize' : elementSize target (heap dest).descriptor = size)
    (hrange : InRange heap src srcPos dest destPos length) (hstop : stop < length.toNat)
    (hpass : ∀ i < stop, Assignable heap src srcPos dest assignable i ∨
      BooleansForObjects heap src srcPos dest i)
    (hreject : ¬ (Assignable heap src srcPos dest assignable stop ∨
      BooleansForObjects heap src srcPos dest stop)) :
    Specified heap src srcPos dest destPos length assignable
        (heap.memmove size dest destPos.toNat src srcPos.toNat stop,
          some (.arrayStoreException message)) ↔
      ∀ k < length.toNat, (∀ i < k, Assignable heap src srcPos dest assignable i) →
        ¬ Assignable heap src srcPos dest assignable k →
        Unnoticed heap src srcPos dest destPos length assignable k := by
  obtain ⟨hreject, hreject'⟩ := not_or.mp hreject
  have hle : ∀ k, (∀ i < k, Assignable heap src srcPos dest assignable i) → k ≤ stop := fun k hall =>
    not_lt.mp fun hlt => hreject (hall stop hlt)
  constructor
  · intro h k hk hall hnot
    have hcopied := (h.upTo hnone k hk hall hnot).2
    rw [memmove_copied_iff hsize hsize' hrange (hle k hall) hstop.le] at hcopied
    exact ⟨stop, hstop, hle k hall, fun i hki hi => ⟨hpass i hi, hcopied i hki hi⟩, hreject, hreject'⟩
  · intro h
    refine ⟨fun exc hexc => ?_, fun _ hall => absurd (hall stop hstop) hreject,
      fun _ k hk hall hnot => ⟨rfl, ?_⟩⟩
    · rw [hnone] at hexc
      cases hexc
    · obtain ⟨stop', hstop', hk', hbetween, hrej, hrej'⟩ := h k hk hall hnot
      -- both are the first element that does not pass
      have heq : stop' = stop := by
        rcases lt_trichotomy stop' stop with hlt | heq | hgt
        · exact absurd (hpass stop' hlt) (not_or.mpr ⟨hrej, hrej'⟩)
        · exact heq
        · exact absurd (hbetween stop (hle k hall) hgt).1 (not_or.mpr ⟨hreject, hreject'⟩)
      subst heq
      rw [memmove_copied_iff hsize hsize' hrange hk' hstop.le]
      exact fun i hki hi => (hbetween i hki hi).2

theorem oneFewerDim_of_isArray {o : HeapObject target} (h : o.isArray = true) :
    ∃ c, o.descriptor.oneFewerDim = some c := by
  rw [HeapObject.isArray, decide_eq_true_eq] at h
  generalize o.descriptor = c at h ⊢
  obtain ⟨e, _ | d⟩ := c
  · exact absurd h (Nat.lt_irrefl 0)
  · exact ⟨_, rfl⟩

theorem Compatible.destReference (h : Compatible heap src dest)
    (hprim : (heap src).is1DPrimitiveArray = false) :
    (heap dest).is1DPrimitiveArray = false := by
  have hsame := h.primitive
  rw [primitiveElement_eq, primitiveElement_eq, hprim] at hsame
  by_contra hdest
  rw [Bool.not_eq_false] at hdest
  rw [hdest] at hsame
  cases hsame

theorem elementSize_reference {o : HeapObject target} (h : o.is1DPrimitiveArray = false) :
    elementSize target o.descriptor = target.sizeofObject :=
  if_neg (of_decide_eq_false h)

/-- The loop, for a range of references. -/
theorem specified_loop_iff (hnone : specifiedException heap src srcPos dest destPos length = none)
    (hne : src ≠ dest) (hrange : InRange heap src srcPos dest destPos length)
    (hprim : (heap src).is1DPrimitiveArray = false)
    (hprim' : (heap dest).is1DPrimitiveArray = false)
    (hsize : elementSize target (heap src).descriptor = target.sizeofObject)
    (hsize' : elementSize target (heap dest).descriptor = target.sizeofObject)
    (hcomp : (heap dest).descriptor.oneFewerDim = some comp)
    (hjudges : Judges heap src srcPos dest length instanceof assignable) :
    Specified heap src srcPos dest destPos length assignable
        (copyLoop instanceof comp src dest length.toNat srcPos.toNat destPos.toNat heap) ↔
      ∀ k < length.toNat, (∀ i < k, Assignable heap src srcPos dest assignable i) →
        ¬ Assignable heap src srcPos dest assignable k →
        Unnoticed heap src srcPos dest destPos length assignable k := by
  by_cases hstops : ∃ stop, stop < length.toNat ∧
      ¬ heap.passes instanceof comp (heap.element src (srcPos.toNat + stop)) = true
  · classical
    obtain ⟨hstop, hreject⟩ := Nat.find_spec hstops
    have hpass : ∀ i < Nat.find hstops,
        heap.passes instanceof comp (heap.element src (srcPos.toNat + i)) = true := fun i hi =>
      not_not.mp fun hnot => Nat.find_min hstops hi ⟨hi.trans hstop, hnot⟩
    rw [copyLoop_eq hne hsize hsize' hrange.src_le hrange.dest_le hstop.le hpass fun _ => hreject,
      if_pos hstop]
    refine specified_stopped_iff hnone hsize hsize' hrange hstop (fun i hi => ?_) ?_
    · exact (passes_iff hprim hprim' hcomp hjudges (hi.trans hstop)).mp (hpass i hi)
    · exact fun h => hreject ((passes_iff hprim hprim' hcomp hjudges hstop).mpr h)
  · have hpass : ∀ i < length.toNat,
        heap.passes instanceof comp (heap.element src (srcPos.toNat + i)) = true := fun i hi =>
      not_not.mp fun hnot => hstops ⟨i, hi, hnot⟩
    rw [copyLoop_eq hne hsize hsize' hrange.src_le hrange.dest_le le_rfl hpass
      fun h => absurd h (lt_irrefl _), if_neg (lt_irrefl _),
      specified_whole_iff hnone (memmove_copied hsize hsize' hrange le_rfl)]
    refine forall₃_congr fun k hk hall => ⟨fun h hnot => absurd h hnot, fun h => ?_⟩
    by_contra hnot
    obtain ⟨stop, hstop, -, -, hrej, hrej'⟩ := h hnot
    exact ((passes_iff hprim hprim' hcomp hjudges hstop).mp (hpass stop hstop)).elim hrej hrej'

/-- A call does what the documentation says if and only if it is sound. -/
theorem arraycopy_iff (hrefl : ∀ c, instanceof c c = true)
    (hjudges : Judges heap src srcPos dest length instanceof assignable) :
    (∃ result, arraycopy instanceof heap src srcPos dest destPos length = some result ∧
      Specified heap src srcPos dest destPos length assignable result) ↔
    Sound instanceof heap src srcPos dest destPos length assignable := by
  rcases hexc : specifiedException heap src srcPos dest destPos length with _ | exc
  · obtain ⟨hcompat, hrange, heq⟩ := arraycopy_of_none instanceof hexc
    have hsound : Sound instanceof heap src srcPos dest destPos length assignable ↔
        ∀ k < length.toNat, (∀ i < k, Assignable heap src srcPos dest assignable i) →
          ¬ Assignable heap src srcPos dest assignable k → ¬ Bulk instanceof heap src dest ∧
            Unnoticed heap src srcPos dest destPos length assignable k := forall_prop_of_true hexc
    rw [heq, hsound]
    rcases hprim : (heap src).is1DPrimitiveArray with _ | _
    · obtain ⟨srcComp, hsrc⟩ := oneFewerDim_of_isArray hcompat.srcArray
      obtain ⟨destComp, hdest⟩ := oneFewerDim_of_isArray hcompat.destArray
      have hprim' := hcompat.destReference hprim
      have hsize := elementSize_reference hprim
      have hsize' := hcompat.elementSize.symm.trans hsize
      rw [if_neg Bool.false_ne_true, hsrc, hdest]
      dsimp only
      have hbulk : Bulk instanceof heap src dest ↔ instanceof srcComp destComp = true := by
        simp only [Bulk, hsrc, hdest, Option.some.injEq, exists_and_left, exists_eq_left']
      rw [hbulk]
      by_cases hinst : instanceof srcComp destComp = true
      · rw [if_pos hinst]
        simp only [Option.some.injEq, exists_eq_left', hinst, not_true, false_and]
        rw [specified_whole_iff hexc (memmove_copied hsize hsize' hrange le_rfl)]
        exact forall₃_congr fun k hk hall => not_not.symm
      · have hne : src ≠ dest := fun h => by
          rw [← h, hsrc] at hdest
          rw [← Option.some.inj hdest, hrefl] at hinst
          exact hinst rfl
        rw [if_neg hinst]
        simp only [Option.some.injEq, exists_eq_left', hinst, Bool.false_eq_true,
          not_false_eq_true, true_and]
        exact specified_loop_iff hexc hne hrange hprim hprim' hsize hsize' hdest hjudges
    · obtain ⟨size, hcopy⟩ := Option.isSome_iff_exists.mp ((heap src).component
        (of_decide_eq_true hprim))
      have hsize : elementSize target (heap src).descriptor = size :=
        (if_pos (of_decide_eq_true hprim)).trans (copySize_eq hcopy).symm
      rw [if_pos rfl, hcopy]
      refine iff_of_true ⟨_, rfl, ?_⟩ fun k _ _ hnot => absurd (.inl hprim) hnot
      rw [specified_whole_iff hexc
        (memmove_copied hsize (hcompat.elementSize.symm.trans hsize) hrange le_rfl)]
      exact fun k _ _ => .inl hprim
  · obtain ⟨thrown, hthrown, heq⟩ := arraycopy_of_exception instanceof hexc
    refine iff_of_true ⟨_, heq, ?_, ?_, ?_⟩ fun h => ?_
    · intro exc' hexc'
      rw [hexc] at hexc'
      exact ⟨congrArg some (hthrown.trans (Option.some.inj hexc')), rfl⟩
    · intro h
      rw [hexc] at h
      cases h
    · intro h
      rw [hexc] at h
      cases h
    · rw [hexc] at h
      cases h

/-! ### The linked classes -/

open Linker in
/-- The classes that `instanceof` compares are linked, as it asserts. -/
structure ClassesLinked (w : World) (heap : Heap target) (src : Nat) (srcPos : BitVec 32) (dest : Nat)
    (length : BitVec 32) : Prop where
  component : ∀ comp, (heap dest).descriptor.oneFewerDim = some comp → comp.kind ≠ .primitive →
    w.Exists comp ∧ (w.state comp).isLinked = true
  elements : (heap src).is1DPrimitiveArray = false → ∀ i < length.toNat,
    address (heap.element src (srcPos.toNat + i)) ≠ 0 →
    w.Exists (heap (address (heap.element src (srcPos.toNat + i)))).descriptor ∧
      (w.state (heap (address (heap.element src (srcPos.toNat + i)))).descriptor).isLinked = true

/-- The types that may be assigned. -/
def subtype (classes : Linker.Classes) (c d : ClassId) : Prop :=
  Types.IsSubtype (Linker.typeHierarchy classes) (Linker.typeOf c) (Linker.typeOf d)

/-- The elements of an array are no primitive values, if its class is none of primitive arrays. -/
theorem kind_component {o : HeapObject target} (hprim : o.is1DPrimitiveArray = false)
    (hcomp : o.descriptor.oneFewerDim = some comp) : comp.kind ≠ .primitive := fun hk => by
  obtain ⟨kind, rfl⟩ := Linker.eq_of_kind_primitive hk
  have hdesc : o.descriptor = ⟨.primitive kind, 1⟩ := by
    generalize o.descriptor = c at hcomp
    obtain ⟨e, _ | d⟩ := c
    · cases hcomp
    · cases hcomp
      rfl
  rw [is1DPrimitiveArray_iff.mpr ⟨kind, hdesc⟩] at hprim
  cases hprim

/-- Nothing else is an array of booleans. -/
theorem subtype_booleans {classes : Linker.Classes} {c : ClassId}
    (h : subtype classes c ⟨.primitive .boolean, 1⟩) : c = ⟨.primitive .boolean, 1⟩ := by
  obtain ⟨e, _ | d⟩ := c
  · exact absurd h (Types.not_isSubtype_element_array (Linker.elementType_ne_array e))
  · obtain ⟨rfl, rfl⟩ := Linker.isSubtype_primitive_cases (.inr ⟨.boolean, rfl⟩)
      (Types.isSubtype_array_array_iff.mp h)
    rfl

section

variable {classes : Linker.Classes} {w : Linker.World} (hwf : Linker.WellFormed classes)
  (run : Linker.Run classes (Linker.TablesStep classes) w)
  (hlinked : ClassesLinked w heap src srcPos dest length)

include hwf run hlinked

theorem judges_of_run :
    Judges heap src srcPos dest length (Linker.instanceof classes w) (subtype classes) := by
  intro hprim hprim' i hi comp hcomp hnull
  have hkind := kind_component hprim' hcomp
  obtain ⟨hexists, hl⟩ := hlinked.component comp hcomp hkind
  obtain ⟨hexists', hl'⟩ := hlinked.elements hprim i hi hnull
  have hnp := (heap (address (heap.element src (srcPos.toNat + i)))).not_primitive
  have hiff := Linker.instanceof_iff_of_run hwf run hexists' hexists hnp hkind hl' hl
  have hbool : BooleansForObjects heap src srcPos dest i ↔
      (heap (address (heap.element src (srcPos.toNat + i)))).descriptor =
        ⟨.primitive .boolean, 1⟩ ∧ ∃ n, comp = ⟨.ordinary n, 1⟩ := by
    rw [BooleansForObjects, and_iff_right hnull]
    refine and_congr_right fun _ => exists_congr fun n => ?_
    generalize (heap dest).descriptor = c at hcomp
    obtain ⟨e, _ | d⟩ := c
    · cases hcomp
    · cases hcomp
      simp
  rw [hbool]
  by_cases hb : (heap (address (heap.element src (srcPos.toNat + i)))).descriptor =
      ⟨.primitive .boolean, 1⟩ ∧ ∃ n, comp = ⟨.ordinary n, 1⟩
  · obtain ⟨hs, n, rfl⟩ := hb
    refine iff_of_true ?_ (.inr ⟨hs, n, rfl⟩)
    rw [hs]
    exact (Linker.instanceof_primitiveArray classes w (by simp [ClassId.kind])
      (by simp [ClassId.kind]) (by simp)).2.mpr ⟨rfl, n, rfl⟩
  · exact (hiff.mpr hb).trans (or_iff_left hb).symm

/-- A call does what the documentation says if and only if the first element of the range that may not
be assigned is looked at, and is no array of booleans for an array of arrays of objects. -/
theorem arraycopy_specified_iff :
    (∃ result, arraycopy (Linker.instanceof classes w) heap src srcPos dest destPos length =
        some result ∧
      Specified heap src srcPos dest destPos length (subtype classes) result) ↔
    Sound (Linker.instanceof classes w) heap src srcPos dest destPos length (subtype classes) :=
  arraycopy_iff (fun _ => if_pos rfl) (judges_of_run hwf run hlinked)

/-- The elements of the range are of the type of the source, as the type system of Java has it. -/
def Typed (classes : Linker.Classes) (heap : Heap target) (src : Nat) (srcPos length : BitVec 32) :
    Prop :=
  ∀ comp, (heap src).descriptor.oneFewerDim = some comp → ∀ i < length.toNat,
    address (heap.element src (srcPos.toNat + i)) ≠ 0 →
    subtype classes (heap (address (heap.element src (srcPos.toNat + i)))).descriptor comp

/-- Between arrays that hold what they may hold, every call is sound but for arrays of booleans. -/
theorem sound_of_typed (htyped : Typed classes heap src srcPos length)
    (hsrc : ∀ comp, (heap src).descriptor.oneFewerDim = some comp → comp.kind ≠ .primitive →
      w.Exists comp ∧ (w.state comp).isLinked = true)
    (hbool : ∀ i < length.toNat, ¬ BooleansForObjects heap src srcPos dest i) :
    Sound (Linker.instanceof classes w) heap src srcPos dest destPos length (subtype classes) := by
  intro hnone k hk _ hnot
  refine ⟨?_, k, hk, le_rfl, fun i hki hi => absurd hki (not_le.mpr hi), hnot, hbool k hk⟩
  rintro ⟨srcComp, destComp, hs, hd, hinst⟩
  have hcompat := (arraycopy_of_none (Linker.instanceof classes w) hnone).1
  rw [Assignable] at hnot
  simp only [not_or, not_exists, not_and, Bool.not_eq_true] at hnot
  obtain ⟨hprim, hnull, hassign⟩ := hnot
  have hsub := htyped srcComp hs k hk hnull
  have hsk := kind_component hprim hs
  have hdk := kind_component (hcompat.destReference hprim) hd
  obtain ⟨hexists, hl⟩ := hsrc srcComp hs hsk
  obtain ⟨hexists', hl'⟩ := hlinked.component destComp hd hdk
  by_cases hb : srcComp = ⟨.primitive .boolean, 1⟩ ∧ ∃ n, destComp = ⟨.ordinary n, 1⟩
  · obtain ⟨rfl, n, rfl⟩ := hb
    refine hbool k hk ⟨hnull, subtype_booleans hsub, n, ?_⟩
    generalize (heap dest).descriptor = c at hd
    obtain ⟨e, _ | d⟩ := c
    · cases hd
    · cases hd
      rfl
  · have hiff := (Linker.instanceof_iff_of_run hwf run hexists hexists' hsk hdk hl hl').mpr hb
    exact hassign destComp hd (hsub.trans (hiff.mp hinst))

end

/-! ### Samples -/

/-- An object. -/
def sampleObject (c : ClassId) (h : c.kind = .ordinary) : HeapObject .bits64 where
  descriptor := c
  length := 0
  data := []
  not_primitive := by simp [h]
  component hk := by simp [h] at hk
  length_lt := by decide
  sized := (Nat.zero_mul _).symm

/-- An array of one element, a pointer to the address. -/
def sampleArray (c : ClassId) (pointer : UInt8) (h : c.kind = .ordinaryArray) :
    HeapObject .bits64 where
  descriptor := c
  length := 1
  data := [pointer, 0, 0, 0, 0, 0, 0, 0]
  not_primitive := by simp [h]
  component hk := by simp [h] at hk
  length_lt := by decide
  sized := by simp [elementSize, h, Target.sizeofObject]

/-- An array of no booleans. -/
def sampleBooleans : HeapObject .bits64 where
  descriptor := ⟨.primitive .boolean, 1⟩
  not_primitive := by decide
  component _ := rfl
  length_lt := by decide
  sized := rfl

/-- An array at 16 of a class with an object at 48, and an array at 32 of its superclass. -/
def sampleHeap : Heap .bits64
  | 16 => sampleArray ⟨.ordinary 3, 1⟩ 48 rfl
  | 32 => sampleArray ⟨.ordinary 0, 1⟩ 0 rfl
  | _ => sampleObject (.ordinary 3) rfl

/-- An array at 16 with the array of booleans at 48, and an array at 32 of arrays of objects. -/
def booleansHeap : Heap .bits64
  | 16 => sampleArray ⟨.primitive .boolean, 2⟩ 48 rfl
  | 32 => sampleArray ⟨.ordinary 0, 2⟩ 0 rfl
  | _ => sampleBooleans

open Linker in
theorem arraycopy_sample : ∃ w, Run sampleClasses (TablesStep sampleClasses) w ∧
    ((∃ result, arraycopy (Linker.instanceof sampleClasses w) sampleHeap 16 0 32 0 1 = some result ∧
      Specified sampleHeap 16 0 32 0 1 (subtype sampleClasses) result) ↔
    Sound (Linker.instanceof sampleClasses w) sampleHeap 16 0 32 0 1 (subtype sampleClasses)) := by
  obtain ⟨w, run, hs, ht, hsl, htl⟩ := run_sampleClasses
  refine ⟨w, run, arraycopy_specified_iff wellFormed_sampleClasses run
    ⟨fun comp hcomp _ => ?_, fun _ i hi _ => ?_⟩⟩
  · obtain rfl := Option.some.inj hcomp
    exact ⟨ht, htl⟩
  · obtain rfl : i = 0 := Nat.lt_one_iff.mp hi
    have haddr : address (sampleHeap.element 16 ((0 : BitVec 32).toNat + 0)) = 48 := by decide
    rw [haddr]
    exact ⟨hs, hsl⟩

open Linker in
/-- An array of booleans ends up in an array of arrays of objects. -/
theorem arraycopy_booleans : ∃ w, Run sampleClasses (fun _ _ _ => True) w ∧
    (w.state ⟨.primitive .boolean, 1⟩).isLinked = true ∧
    (w.state ⟨.ordinary 0, 1⟩).isLinked = true ∧
    ∃ result, arraycopy (Linker.instanceof sampleClasses w) booleansHeap 16 0 32 0 1 = some result ∧
      ¬ Specified booleansHeap 16 0 32 0 1 (subtype sampleClasses) result := by
  obtain ⟨w, hw⟩ : ∃ w, applyAll sampleClasses 5 [.link (.ordinary 0), .link (.ordinary 1),
    .link (.ordinary 2), .getOrCreateArray ⟨.primitive .boolean, 0⟩,
    .getOrCreateArray (.ordinary 0)] .start = some w := ⟨_, rfl⟩
  refine ⟨w, run_applyAll .start hw, ?_⟩
  cases hw
  refine ⟨rfl, rfl, _, rfl, fun h => ?_⟩
  have hnot : ¬ Assignable booleansHeap 16 0 32 (subtype sampleClasses) 0 := by
    rintro (h | h | ⟨comp, hcomp, hsub⟩)
    · revert h
      decide
    · revert h
      decide
    · obtain rfl := Option.some.inj hcomp
      have heq := Types.isSubtype_primitive_iff.mp (Types.isSubtype_array_array_iff.mp hsub)
      cases heq
  have hthrown := (h.upTo rfl 0 (by decide) (fun i hi => absurd hi (Nat.not_lt_zero i)) hnot).1
  cases hthrown

end BJvm.ArrayCopy
