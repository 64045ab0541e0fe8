import Mathlib.Data.List.Basic

/-!
# Lists of chunks

A list as a row of chunks of the same size, and writing over a part of it.
-/

namespace BJvm.Chunks

variable {α : Type*}

/-- The list with `ys` written over it. -/
def overwrite (xs : List α) (offset : Nat) (ys : List α) : List α :=
  xs.take offset ++ (ys ++ xs.drop (offset + ys.length))

/-- `n` chunks from the chunk `i` on. -/
def chunks (size : Nat) (xs : List α) (i n : Nat) : List α := (xs.drop (i * size)).take (n * size)

/-- One chunk. -/
def chunk (size : Nat) (xs : List α) (i : Nat) : List α := chunks size xs i 1

variable {xs ys zs : List α} {size offset i j k n d s : Nat}

theorem length_overwrite (h : offset + ys.length ≤ xs.length) :
    (overwrite xs offset ys).length = xs.length := by
  simp only [overwrite, List.length_append, List.length_take, List.length_drop]
  omega

theorem length_chunks (h : (i + n) * size ≤ xs.length) : (chunks size xs i n).length = n * size := by
  rw [chunks, List.length_take, List.length_drop]
  rw [Nat.add_mul] at h
  omega

theorem getElem?_overwrite (h : offset + ys.length ≤ xs.length) (j : Nat) :
    (overwrite xs offset ys)[j]? =
      if offset ≤ j ∧ j < offset + ys.length then ys[j - offset]? else xs[j]? := by
  have htake : (xs.take offset).length = offset := by
    rw [List.length_take]
    omega
  rw [overwrite]
  rcases Nat.lt_or_ge j offset with hj | hj
  · rw [List.getElem?_append_left (by omega), List.getElem?_take_of_lt hj, if_neg (by omega)]
  rw [List.getElem?_append_right (by omega), htake]
  rcases Nat.lt_or_ge j (offset + ys.length) with hj' | hj'
  · rw [List.getElem?_append_left (by omega), if_pos ⟨hj, hj'⟩]
  · rw [List.getElem?_append_right (by omega), List.getElem?_drop, if_neg (by omega)]
    congr 1
    omega

theorem getElem?_chunks (j : Nat) :
    (chunks size xs i n)[j]? = if j < n * size then xs[i * size + j]? else none := by
  rw [chunks, List.getElem?_take, List.getElem?_drop]

theorem chunks_zero : chunks size xs i 0 = [] := by
  rw [chunks, Nat.zero_mul, List.take_zero]

/-- Writing over nothing. -/
theorem overwrite_nil : overwrite xs offset [] = xs := by
  rw [overwrite, List.nil_append, List.length_nil, Nat.add_zero, List.take_append_drop]

theorem chunks_succ : chunks size xs i (n + 1) = chunk size xs i ++ chunks size xs (i + 1) n := by
  rw [chunk, chunks, chunks, chunks, Nat.one_mul, Nat.add_mul, Nat.one_mul, Nat.add_comm _ size,
    List.take_add, List.drop_drop, Nat.add_mul, Nat.one_mul]

/-- Writing twice, the second time behind the first. -/
theorem overwrite_overwrite (h : offset + ys.length ≤ xs.length) :
    overwrite (overwrite xs offset ys) (offset + ys.length) zs = overwrite xs offset (ys ++ zs) := by
  have htake : (xs.take offset).length = offset := by
    rw [List.length_take]
    omega
  have hfirst : (xs.take offset ++ ys).length = offset + ys.length := by
    rw [List.length_append, htake]
  rw [overwrite, overwrite, ← List.append_assoc (xs.take offset) ys, ← hfirst, List.take_left,
    List.drop_append, List.drop_of_length_le (Nat.le_add_right ..), Nat.add_sub_cancel_left,
    List.nil_append, List.drop_drop, hfirst, overwrite, List.length_append, List.append_assoc,
    List.append_assoc, Nat.add_assoc]

/-- What is written can be read. -/
theorem chunk_overwrite_inside (hd : (d + n) * size ≤ xs.length) (hs : (s + n) * size ≤ zs.length)
    (hi : i < n) :
    chunk size (overwrite xs (d * size) (chunks size zs s n)) (d + i) = chunk size zs (s + i) := by
  have hlength : (chunks size zs s n).length = n * size := length_chunks hs
  have hle : (i + 1) * size ≤ n * size := Nat.mul_le_mul_right _ hi
  rw [Nat.add_mul] at hd hle
  refine List.ext_getElem? fun j => ?_
  rw [chunk, chunk, getElem?_chunks, getElem?_chunks]
  split_ifs with hj
  · rw [getElem?_overwrite (by rw [hlength]; exact hd), hlength, Nat.add_mul, Nat.add_mul,
      if_pos (by omega), getElem?_chunks, if_pos (by omega)]
    congr 1
    omega
  · rfl

/-- What is not written over stays. -/
theorem chunk_overwrite_outside (hd : (d + n) * size ≤ xs.length) (hlength : ys.length = n * size)
    (hj : j < d ∨ d + n ≤ j) :
    chunk size (overwrite xs (d * size) ys) j = chunk size xs j := by
  have hle : (j + 1) * size ≤ d * size ∨ (d + n) * size ≤ j * size :=
    hj.imp (fun h => Nat.mul_le_mul_right _ h) fun h => Nat.mul_le_mul_right _ h
  rw [Nat.add_mul, Nat.add_mul] at hle
  rw [Nat.add_mul] at hd
  refine List.ext_getElem? fun i => ?_
  rw [chunk, chunk, getElem?_chunks, getElem?_chunks]
  split_ifs with hi
  · rw [getElem?_overwrite (by rw [hlength]; exact hd), hlength, if_neg (by omega)]
  · rfl

end BJvm.Chunks
