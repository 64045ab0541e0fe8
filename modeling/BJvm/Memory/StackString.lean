import BJvm.Memory.CBuffers
import Mathlib.Algebra.Order.Ring.Nat

/-!
# Strings on the stack

`INIT_STACK_STRING`, `bprintf` and the slices of `util.h`.  The bytes of a slice are in a buffer, and
its length is what the slice says.
-/

namespace BJvm.StackString

open CBuffers

/-- A `slice` into a buffer; `len` is a `u32`. -/
structure Slice where
  offset : Nat
  len : Nat
  deriving DecidableEq, Repr, Inhabited

/-- `INIT_STACK_STRING`. -/
def initStackString (bufferSize : Nat) : List UInt8 × Slice :=
  (List.replicate (bufferSize + 1) 0, { offset := 0, len := bufferSize })

/-- `bprintf` of a text: the slice that it returns has the length of the whole text. -/
def bprintf (buffer : List UInt8) (str : Slice) (text : List UInt8) :
    Option (List UInt8 × Slice) :=
  (vsnprintf buffer str.offset ((str.len + 1) % 2 ^ 32) text).map fun buffer =>
    (buffer, { str with len := text.length % 2 ^ 32 })

/-- `subslice`; a failed `DCHECK` aborts where they are compiled in. -/
def subslice (dchecks : Bool) (str : Slice) (start : Nat) : Option Slice :=
  if dchecks ∧ str.len < start then none
  else some { offset := str.offset + start, len := (str.len + (2 ^ 32 - start)) % 2 ^ 32 }

/-- The bytes of a slice. -/
def Slice.chars (str : Slice) (buffer : List UInt8) : Option (List UInt8) :=
  read buffer str.offset str.len

variable {text complete : List UInt8} {n : Nat}

/-- A new string gets the beginning of the text, and the length of all of it. -/
theorem bprintf_new (hn : n + 1 < 2 ^ 32) (text : List UInt8) :
    bprintf (initStackString n).1 (initStackString n).2 text =
      some (text.take n ++ List.replicate (n + 1 - (text.take n).length) 0,
        ⟨0, text.length % 2 ^ 32⟩) := by
  have hbuffer : (List.replicate (n + 1) (0 : UInt8)).length = n + 1 := List.length_replicate
  have hlength : (text.take n ++ [0]).length = (text.take n).length + 1 := by simp
  have hle : (text.take n).length ≤ n := by
    rw [List.length_take]
    exact Nat.min_le_left _ _
  have hprint : vsnprintf (List.replicate (n + 1) 0) 0 (n + 1) text =
      some (text.take n ++ List.replicate (n + 1 - (text.take n).length) 0) := by
    rw [vsnprintf, if_neg (Nat.succ_ne_zero n), Nat.add_sub_cancel, write_of_le (by omega),
      Chunks.overwrite, List.take_zero, List.nil_append, hlength, List.drop_replicate, Nat.zero_add,
      List.append_assoc, List.singleton_append, ← List.replicate_succ]
    congr 3
    omega
  simp only [bprintf, initStackString, Nat.mod_eq_of_lt hn, hprint, Option.map_some]

/-- The slice that `bprintf` returns holds the text, if there was room for it. -/
theorem bprintf_new_chars (hn : n + 1 < 2 ^ 32) (htext : text.length ≤ n) :
    (bprintf (initStackString n).1 (initStackString n).2 text).bind (fun p => p.2.chars p.1) =
      some text := by
  rw [bprintf_new hn, Option.bind_some, List.take_of_length_le htext,
    Nat.mod_eq_of_lt (show text.length < 2 ^ 32 by omega), Slice.chars, read_zero (by simp),
    List.take_left]

/-- Where there was not, it is beyond the buffer, or ends in the zero that ends the string. -/
theorem bprintf_new_long (hn : n + 1 < 2 ^ 32) (htext : n < text.length)
    (hlength : text.length ≤ complete.length) (hzero : complete.length = text.length → 0 ∉ complete) :
    (bprintf (initStackString n).1 (initStackString n).2 text).bind (fun p => p.2.chars p.1) ≠
      some complete := by
  rw [bprintf_new hn, Option.bind_some]
  intro h
  obtain ⟨hle, hcomplete⟩ := read_zero_eq_some h
  have htake : (text.take n).length = n := by
    rw [List.length_take, Nat.min_eq_left htext.le]
  have hmod : text.length % 2 ^ 32 ≤ text.length := Nat.mod_le _ _
  have hread : complete.length = text.length % 2 ^ 32 := length_read h
  have hend : (text.take n ++ List.replicate (n + 1 - (text.take n).length) (0 : UInt8)).length ≤
      text.length % 2 ^ 32 := by
    simp only [List.length_append, htake, List.length_replicate] at hle ⊢
    omega
  simp only [List.length_append, htake, List.length_replicate] at hle
  refine hzero (by omega) ?_
  rw [hcomplete, List.take_of_length_le hend, htake]
  refine List.mem_append_right _ (List.mem_replicate.mpr ⟨by omega, rfl⟩)

theorem bprintf_new_chars_iff (hn : n + 1 < 2 ^ 32) (hlength : text.length ≤ complete.length)
    (hzero : complete.length = text.length → 0 ∉ complete) :
    (bprintf (initStackString n).1 (initStackString n).2 text).bind (fun p => p.2.chars p.1) =
      some complete ↔ text.length ≤ n ∧ text = complete := by
  by_cases htext : text.length ≤ n
  · rw [bprintf_new_chars hn htext, Option.some.injEq, and_iff_right htext]
  · exact iff_of_false (bprintf_new_long hn (not_le.mp htext) hlength hzero) fun h => htext h.1

end BJvm.StackString
