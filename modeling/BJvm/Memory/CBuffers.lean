import BJvm.Memory.Chunks
import Mathlib.Data.List.TakeWhile

/-!
# Text in buffers of a fixed size

What functions of the C library write to a buffer.  To write or to read beyond the buffer fails; what
is in front of a write stays.
-/

namespace BJvm.CBuffers

open Chunks

/-- The text of a C string: the bytes before the first zero. -/
def cstr (bytes : List UInt8) : List UInt8 := bytes.takeWhile (· ≠ 0)

/-- `memcpy` to the buffer. -/
def write (buffer : List UInt8) (offset : Nat) (bytes : List UInt8) : Option (List UInt8) :=
  if bytes = [] then some buffer
  else if offset + bytes.length ≤ buffer.length then some (overwrite buffer offset bytes)
  else none

/-- `memcpy` from the buffer. -/
def read (buffer : List UInt8) (offset len : Nat) : Option (List UInt8) :=
  if offset + len ≤ buffer.length then some ((buffer.drop offset).take len) else none

/-- `vsnprintf` of the text, where there is room for `n` bytes. -/
def vsnprintf (buffer : List UInt8) (offset n : Nat) (text : List UInt8) : Option (List UInt8) :=
  if n = 0 then some buffer else write buffer offset (text.take (n - 1) ++ [0])

/-- `stpncpy` with the pointer that it returns. -/
def stpncpy (buffer : List UInt8) (offset : Nat) (src : List UInt8) (n : Nat) :
    Option (List UInt8 × Nat) :=
  let text := (cstr src).take n
  (write buffer offset (text ++ List.replicate (n - text.length) 0)).map fun buffer =>
    (buffer, offset + text.length)

variable {buffer buffer' bytes text src : List UInt8} {offset len n k : Nat}

/-! ### C strings -/

theorem length_cstr_le (bytes : List UInt8) : (cstr bytes).length ≤ bytes.length :=
  (List.takeWhile_prefix _).length_le

theorem zero_notMem_cstr (bytes : List UInt8) : 0 ∉ cstr bytes := fun h => by
  simpa using List.mem_takeWhile_imp h

theorem cstr_eq_self_iff : cstr bytes = bytes ↔ 0 ∉ bytes := by
  rw [cstr, List.takeWhile_eq_self_iff]
  simp only [ne_eq, decide_eq_true_eq]
  exact ⟨fun h hmem => h 0 hmem rfl, fun h b hb hzero => h (hzero ▸ hb)⟩

theorem cstr_isPrefix (bytes : List UInt8) : cstr bytes <+: bytes := List.takeWhile_prefix _

/-- A text that is as long as the bytes is all of them. -/
theorem cstr_eq_self_of_length (h : bytes.length ≤ (cstr bytes).length) : cstr bytes = bytes :=
  (cstr_isPrefix bytes).eq_of_length_le h

theorem cstr_append_zero (h : 0 ∉ bytes) (rest : List UInt8) : cstr (bytes ++ 0 :: rest) = bytes := by
  rw [cstr, List.takeWhile_append_of_pos fun b hb => by simpa using ne_of_mem_of_not_mem hb h]
  simp

/-! ### Writing -/

theorem write_of_le (h : offset + bytes.length ≤ buffer.length) :
    write buffer offset bytes = some (overwrite buffer offset bytes) := by
  rw [write]
  split_ifs with hnil
  · rw [hnil, overwrite_nil]
  · rfl

theorem write_eq_some (h : write buffer offset bytes = some buffer') :
    buffer' = overwrite buffer offset bytes ∧
      (bytes = [] ∨ offset + bytes.length ≤ buffer.length) := by
  rw [write] at h
  split_ifs at h with hnil hle
  · obtain rfl := Option.some.inj h
    exact ⟨by rw [hnil, overwrite_nil], .inl hnil⟩
  · exact ⟨(Option.some.inj h).symm, .inr hle⟩

theorem write_eq_none (hne : bytes ≠ []) (h : buffer.length < offset + bytes.length) :
    write buffer offset bytes = none := by
  rw [write, if_neg hne, if_neg (Nat.not_le.mpr h)]

theorem length_write (h : write buffer offset bytes = some buffer') :
    buffer'.length = buffer.length := by
  obtain ⟨rfl, rfl | hle⟩ := write_eq_some h
  · rw [overwrite_nil]
  · exact length_overwrite hle

theorem take_overwrite (h : offset ≤ buffer.length) (hk : k ≤ bytes.length) :
    (overwrite buffer offset bytes).take (offset + k) = buffer.take offset ++ bytes.take k := by
  have htake : (buffer.take offset).length = offset := by
    rw [List.length_take, Nat.min_eq_left h]
  have hfront : (buffer.take offset ++ (bytes ++ buffer.drop (offset + bytes.length))).take
      ((buffer.take offset).length + k) =
      buffer.take offset ++ (bytes ++ buffer.drop (offset + bytes.length)).take k :=
    List.take_length_add_append k
  rw [htake] at hfront
  rw [overwrite, hfront, List.take_append_of_le_length hk]

theorem write_fits (h : offset + bytes.length ≤ buffer.length) :
    ∃ buffer', write buffer offset bytes = some buffer' ∧ buffer'.length = buffer.length ∧
      buffer'.take (offset + bytes.length) = buffer.take offset ++ bytes :=
  ⟨_, write_of_le h, length_overwrite h, by
    rw [take_overwrite (by omega) le_rfl, List.take_length]⟩

theorem write_start (h : bytes.length ≤ buffer.length) :
    ∃ buffer', write buffer 0 bytes = some buffer' ∧ buffer'.length = buffer.length ∧
      buffer'.take bytes.length = bytes := by
  rw [← Nat.zero_add bytes.length] at h
  obtain ⟨buffer', hwrite, hlength, htake⟩ := write_fits h
  exact ⟨buffer', hwrite, hlength, by simpa using htake⟩

theorem write_start_eq_none (h : buffer.length < bytes.length) : write buffer 0 bytes = none :=
  write_eq_none (List.ne_nil_of_length_pos (Nat.zero_lt_of_lt h)) (by rwa [Nat.zero_add])

/-- `stpncpy` always writes `n` bytes. -/
theorem length_padded (text : List UInt8) (n : Nat) :
    (text.take n ++ List.replicate (n - (text.take n).length) 0).length = n := by
  simp only [List.length_append, List.length_take, List.length_replicate]
  omega

theorem stpncpy_fits (src : List UInt8) (h : offset + n ≤ buffer.length) :
    ∃ buffer', stpncpy buffer offset src n = some (buffer', offset + ((cstr src).take n).length) ∧
      buffer'.length = buffer.length ∧
      buffer'.take (offset + ((cstr src).take n).length) =
        buffer.take offset ++ (cstr src).take n := by
  rw [← length_padded (cstr src) n] at h
  refine ⟨_, by rw [stpncpy, write_of_le h, Option.map_some], length_overwrite h, ?_⟩
  rw [take_overwrite (by omega) (by simp), List.take_left]

theorem stpncpy_eq_none (hn : n ≠ 0) (h : buffer.length < offset + n) :
    stpncpy buffer offset src n = none := by
  rw [← length_padded (cstr src) n] at h
  rw [stpncpy, write_eq_none (fun hnil => ?_) h, Option.map_none]
  have hlength := congrArg List.length hnil
  rw [length_padded, List.length_nil] at hlength
  exact hn hlength

/-- The text goes behind what has been written. -/
theorem vsnprintf_fits (hbuffer : buffer.length = offset + n) (htext : text.length < n) :
    ∃ buffer', vsnprintf buffer offset n text = some buffer' ∧ buffer'.length = buffer.length ∧
      buffer'.take (offset + text.length) = buffer.take offset ++ text := by
  have hle : offset + (text ++ [0]).length ≤ buffer.length := by
    rw [List.length_append, List.length_singleton]
    omega
  refine ⟨overwrite buffer offset (text ++ [0]), ?_, length_overwrite hle, ?_⟩
  · rw [vsnprintf, if_neg (by omega), List.take_of_length_le (by omega), write_of_le hle]
  · rw [take_overwrite (by omega) (by simp), List.take_left]

/-- Cut text ends in a zero, the last byte of the buffer. -/
theorem vsnprintf_cut (hbuffer : buffer.length = offset + n) (hn : n ≠ 0) (htext : n ≤ text.length) :
    ∃ buffer', vsnprintf buffer offset n text = some buffer' ∧ buffer'.length = buffer.length ∧
      buffer' = buffer.take offset ++ (text.take (n - 1) ++ [0]) := by
  have hlength : (text.take (n - 1) ++ [0]).length = n := by
    rw [List.length_append, List.length_take, List.length_singleton]
    omega
  have hle : offset + (text.take (n - 1) ++ [0]).length ≤ buffer.length := by omega
  refine ⟨_, ?_, length_overwrite hle, ?_⟩
  · rw [vsnprintf, if_neg hn, write_of_le hle]
  · rw [overwrite, hlength, List.drop_of_length_le (Nat.le_of_eq hbuffer), List.append_nil]

/-- There is nothing to write behind the buffer. -/
theorem vsnprintf_behind (hoffset : buffer.length ≤ offset) :
    vsnprintf buffer offset n text = if n = 0 then some buffer else none := by
  rw [vsnprintf]
  split_ifs with hn
  · rfl
  · refine write_eq_none (by simp) ?_
    rw [List.length_append, List.length_singleton]
    omega

/-! ### Reading -/

theorem read_zero (h : len ≤ buffer.length) : read buffer 0 len = some (buffer.take len) := by
  rw [read, if_pos (by omega), List.drop_zero]

theorem read_zero_eq_some (h : read buffer 0 len = some bytes) :
    len ≤ buffer.length ∧ bytes = buffer.take len := by
  rw [read] at h
  split_ifs at h with hle
  rw [List.drop_zero] at h
  exact ⟨by omega, (Option.some.inj h).symm⟩

theorem length_read (h : read buffer 0 len = some bytes) : bytes.length = len := by
  obtain ⟨hle, rfl⟩ := read_zero_eq_some h
  rw [List.length_take, Nat.min_eq_left hle]

end BJvm.CBuffers
