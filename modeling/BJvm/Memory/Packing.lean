import Mathlib.Data.List.Basic
import Mathlib.Data.Nat.ModEq
import Mathlib.Tactic.Common

/-!
# Packing

Byte ranges placed one behind another, each at a multiple of its own size.
-/

namespace BJvm.Packing

/-- The bytes from an offset on. -/
structure Extent where
  offset : Nat
  size : Nat
  deriving DecidableEq, Repr

namespace Extent

/-- The first byte behind. -/
def limit (e : Extent) : Nat := e.offset + e.size

def Disjoint (e f : Extent) : Prop := e.limit ≤ f.offset ∨ f.limit ≤ e.offset

theorem Disjoint.symm {e f : Extent} (h : Disjoint e f) : Disjoint f e := Or.symm h

/-- Extents that are not empty and start at one place are not disjoint. -/
theorem Disjoint.offset_ne {e f : Extent} (h : Disjoint e f) (he : 0 < e.size) (hf : 0 < f.size) :
    e.offset ≠ f.offset := by
  unfold Disjoint limit at h
  omega

end Extent

/-- `value` rounded up to a multiple of `alignment`. -/
def alignUp (value alignment : Nat) : Nat := (value + alignment - 1) / alignment * alignment

theorem alignUp_mod (value alignment : Nat) : alignUp value alignment % alignment = 0 :=
  Nat.mul_mod_left _ _

theorem le_alignUp (value : Nat) {alignment : Nat} (h : 0 < alignment) :
    value ≤ alignUp value alignment := by
  have hd := Nat.div_add_mod (value + alignment - 1) alignment
  have hm := Nat.mod_lt (value + alignment - 1) h
  rw [Nat.mul_comm] at hd
  unfold alignUp
  omega

@[simp] theorem alignUp_one (value : Nat) : alignUp value 1 = value := by
  simp [alignUp]

theorem alignUp_of_mod {value alignment : Nat} (h : value % alignment = 0) (hpos : 0 < alignment) :
    alignUp value alignment = value := by
  obtain ⟨k, rfl⟩ := Nat.dvd_of_mod_eq_zero h
  unfold alignUp
  rw [Nat.add_sub_assoc hpos, Nat.mul_add_div hpos,
    Nat.div_eq_of_lt (Nat.sub_lt hpos Nat.one_pos), Nat.add_zero, Nat.mul_comm]

/-- The extents lie between two bounds, each is aligned to its size, and no two of them overlap. -/
structure Packed (lo hi : Nat) (l : List Extent) : Prop where
  le : lo ≤ hi
  aligned : ∀ e ∈ l, e.offset % e.size = 0
  within : ∀ e ∈ l, lo ≤ e.offset ∧ e.limit ≤ hi
  disjoint : l.Pairwise Extent.Disjoint

namespace Packed

variable {lo mid hi : Nat} {l l' : List Extent} {e : Extent}

theorem nil (h : lo ≤ hi) : Packed lo hi [] := ⟨h, by simp, by simp, .nil⟩

theorem mono {lo' hi' : Nat} (h : Packed lo hi l) (hlo : lo' ≤ lo) (hhi : hi ≤ hi') :
    Packed lo' hi' l where
  le := hlo.trans (h.le.trans hhi)
  aligned := h.aligned
  within e he := ⟨hlo.trans (h.within e he).1, (h.within e he).2.trans hhi⟩
  disjoint := h.disjoint

/-- What lies below a bound and what lies above it. -/
theorem append (h : Packed lo mid l) (h' : Packed mid hi l') : Packed lo hi (l ++ l') where
  le := h.le.trans h'.le
  aligned e he := (List.mem_append.mp he).elim (h.aligned e) (h'.aligned e)
  within e he := by
    rcases List.mem_append.mp he with he | he
    · exact ⟨(h.within e he).1, (h.within e he).2.trans h'.le⟩
    · exact ⟨h.le.trans (h'.within e he).1, (h'.within e he).2⟩
  disjoint := List.pairwise_append.mpr ⟨h.disjoint, h'.disjoint, fun e he f hf =>
    Or.inl ((h.within e he).2.trans (h'.within f hf).1)⟩

theorem singleton (ha : e.offset % e.size = 0) (hlo : lo ≤ e.offset) (hhi : e.limit ≤ hi) :
    Packed lo hi [e] where
  le := hlo.trans ((Nat.le_add_right _ _).trans hhi)
  aligned f hf := by rwa [List.mem_singleton.mp hf]
  within f hf := by rw [List.mem_singleton.mp hf]; exact ⟨hlo, hhi⟩
  disjoint := List.pairwise_singleton _ _

/-- Nothing depends on the order in which the extents are listed. -/
theorem perm (h : Packed lo hi l) (hp : l.Perm l') : Packed lo hi l' where
  le := h.le
  aligned e he := h.aligned e (hp.mem_iff.mpr he)
  within e he := h.within e (hp.mem_iff.mpr he)
  disjoint := (hp.pairwise_iff fun h => h.symm).mp h.disjoint

end Packed

/-- Extents of the sizes given, each at the first multiple of its size behind the one before. -/
def placeAll : Nat → List Nat → List Extent
  | _, [] => []
  | start, s :: sizes => ⟨alignUp start s, s⟩ :: placeAll (alignUp start s + s) sizes

/-- The first byte behind them. -/
def endOf : Nat → List Nat → Nat
  | start, [] => start
  | start, s :: sizes => endOf (alignUp start s + s) sizes

theorem packed_placeAll : ∀ {sizes : List Nat} {start : Nat}, (∀ s ∈ sizes, 0 < s) →
    Packed start (endOf start sizes) (placeAll start sizes)
  | [], _, _ => .nil le_rfl
  | s :: sizes, start, h => by
    have hs := le_alignUp start (h s List.mem_cons_self)
    have hfirst : Packed start (alignUp start s + s) [⟨alignUp start s, s⟩] :=
      .singleton (alignUp_mod start s) hs le_rfl
    exact hfirst.append (packed_placeAll fun s hs => h s (List.mem_cons_of_mem _ hs))

/-- Extents of one size leave no gaps. -/
theorem endOf_replicate {s : Nat} (hs : 0 < s) : ∀ {n start : Nat}, start % s = 0 →
    endOf start (List.replicate n s) = start + n * s
  | 0, _, _ => by simp [endOf]
  | n + 1, start, h => by
    rw [List.replicate_succ, endOf, alignUp_of_mod h hs, endOf_replicate hs (by simp [h]),
      Nat.succ_mul]
    omega

theorem placeAll_append : ∀ {sizes sizes' : List Nat} {start : Nat},
    placeAll start (sizes ++ sizes') = placeAll start sizes ++ placeAll (endOf start sizes) sizes'
  | [], _, _ => rfl
  | s :: sizes, sizes', start => by
    rw [List.cons_append, placeAll, placeAll_append]
    rfl

end BJvm.Packing
