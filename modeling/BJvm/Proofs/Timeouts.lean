import BJvm.Threads.Timeouts
import Mathlib.Tactic.Common

/-!
# Wakeup times

Only `sleepNanos0` looks at the carry of its sum.  Elsewhere a sum that wraps around is smaller than
the deadline, unless it wraps to zero.
-/

namespace BJvm.Threads

variable {now : UInt64} {timeout : Timeout}

namespace Timeout

theorem representable_of_none (h : timeout.deadline now = none) : timeout.Representable now := by
  intro deadline hmem
  rw [h] at hmem
  cases hmem

theorem representable_of_some {d : Int} (h : timeout.deadline now = some d) :
    timeout.Representable now ↔ d < now.toNat ∨ (0 < d ∧ d < 2 ^ 64) ∨
      2 ^ 64 ≤ d ∧ timeout.ZeroFor now d := by
  rw [Representable, h]
  simp only [Option.mem_def, Option.some.injEq, forall_eq']

end Timeout

open Timeout

/-- A sum that wraps around. -/
theorem wrapped_iff (d : Nat) :
    ((d % 2 ^ 64 ≠ 0 ∧ (d : Int) ≤ (d % 2 ^ 64 : Nat)) ∨ (d % 2 ^ 64 = 0 ∧ (2 ^ 64 : Int) ≤ d)) ↔
      (0 < (d : Int) ∧ (d : Int) < 2 ^ 64) ∨ (2 ^ 64 : Int) ≤ d ∧ (2 ^ 64 : Int) ∣ d := by
  omega

theorem wait0_right_iff (t : Fin (2 ^ 63)) :
    (wait0 t).StoredRight now ↔ (wait0 t).Representable now := by
  by_cases ht : t = 0
  · have hnone : (wait0 t).deadline now = none := if_pos ht
    refine iff_of_true ?_ (representable_of_none hnone)
    rw [StoredRight, hnone, wakeupUs, waitDeadline, ht]
    rfl
  · have hsome : (wait0 t).deadline now = some ((now.toNat + t * 1000 : Nat) : Int) := by
      rw [deadline, if_neg ht]
      push_cast
      rfl
    have ht' : (t : Nat) ≠ 0 := fun h => ht (Fin.ext h)
    have hge : ¬ ((now.toNat + t * 1000 : Nat) : Int) < now.toNat := by omega
    rw [representable_of_some hsome, StoredRight, hsome, wakeupUs, waitDeadline, if_neg ht',
      or_iff_right hge]
    exact wrapped_iff _

theorem sleepNanos0_right_iff (t : Fin (2 ^ 63)) :
    (sleepNanos0 t).StoredRight now ↔ (sleepNanos0 t).Representable now := by
  have hsome : (sleepNanos0 t).deadline now = some ((now.toNat + t / 1000 : Nat) : Int) := by
    rw [deadline]
    push_cast
    rfl
  have hge : ¬ ((now.toNat + t / 1000 : Nat) : Int) < now.toNat := by omega
  rw [representable_of_some hsome, StoredRight, hsome, wakeupUs, sleepDeadline, or_iff_right hge]
  simp only [RightFor, ZeroFor, and_true]
  split_ifs <;> omega

theorem parkFor_right_iff (t : Fin (2 ^ 63)) :
    (parkFor t).StoredRight now ↔ (parkFor t).Representable now := by
  have hneg : ¬ ((t : Nat) : Int) < 0 := by omega
  by_cases ht : t = 0
  · have hnone : (parkFor t).deadline now = none := if_pos ht
    refine iff_of_true ?_ (representable_of_none hnone)
    rw [StoredRight, hnone, wakeupUs, parkDeadline, if_neg hneg, ht]
    rfl
  · have hsome : (parkFor t).deadline now = some ((now.toNat + t / 1000 : Nat) : Int) := by
      rw [deadline, if_neg ht]
      push_cast
      rfl
    have ht' : ¬ ((t : Nat) : Int) = 0 := fun h => ht (Fin.ext (Int.natCast_eq_zero.mp h))
    have hge : ¬ ((now.toNat + t / 1000 : Nat) : Int) < now.toNat := by omega
    rw [representable_of_some hsome, StoredRight, hsome, wakeupUs, parkDeadline, if_neg hneg,
      if_neg (by decide), if_neg ht', or_iff_right hge]
    exact wrapped_iff _

/-- A point in time that is not negative. -/
theorem parkDeadline_right_iff (n : Nat) :
    RightFor now (parkDeadline true n now.toNat) (some ((n * 1000 : Nat) : Int)) ↔
      ((n * 1000 : Nat) : Int) < now.toNat ∨
      (0 < ((n * 1000 : Nat) : Int) ∧ ((n * 1000 : Nat) : Int) < 2 ^ 64) ∨
      (2 ^ 64 : Int) ≤ (n * 1000 : Nat) ∧ (2 ^ 64 : Int) ∣ (n * 1000 : Nat) ∧ now.toNat = 0 := by
  rw [parkDeadline, if_neg (by omega), if_pos rfl, Int.toNat_natCast]
  generalize n * 1000 = d
  have hlt := now.toNat_lt
  dsimp only
  split_ifs
  · rw [RightFor]
    omega
  · rw [RightFor]
    omega

theorem parkUntil_right_iff (t : Int64) :
    (parkUntil t).StoredRight now ↔ (parkUntil t).Representable now := by
  have hsome : (parkUntil t).deadline now = some (t.toInt * 1000) := rfl
  have hnow : now = 0 ↔ now.toNat = 0 := by
    rw [← UInt64.toNat_inj]
    rfl
  rw [representable_of_some hsome, StoredRight, hsome, wakeupUs, ZeroFor, hnow]
  rcases Int.lt_or_le t.toInt 0 with hneg | hpos
  · rw [parkDeadline, if_pos hneg, RightFor]
    omega
  · obtain ⟨n, hn⟩ := Int.eq_ofNat_of_zero_le hpos
    have hmul : t.toInt * 1000 = (n * 1000 : Nat) := by
      rw [hn]
      push_cast
      rfl
    rw [hmul, hn]
    exact parkDeadline_right_iff n

/-- The time stored is right if and only if the code can represent the deadline. -/
theorem storedRight_iff (now : UInt64) (timeout : Timeout) :
    timeout.StoredRight now ↔ timeout.Representable now := by
  cases timeout with
  | wait0 t => exact wait0_right_iff t
  | sleepNanos0 t => exact sleepNanos0_right_iff t
  | parkFor t => exact parkFor_right_iff t
  | parkUntil t => exact parkUntil_right_iff t

/-- A thread with the right wakeup time does not time out before its deadline. -/
theorem Timeout.StoredRight.not_timedOut {wakeup : WakeupInfo} {deadline : Int} {time : Nat}
    (h : timeout.StoredRight now) (hwakeup : timeout.wakeupUs now = some wakeup.wakeupUs)
    (hdeadline : timeout.deadline now = some deadline) (htime : (time : Int) ≤ deadline) :
    wakeup.timedOut time = false := by
  rw [StoredRight, hwakeup, hdeadline] at h
  rw [WakeupInfo.timedOut, decide_eq_false_iff_not]
  rcases h with ⟨-, hle⟩ | ⟨hzero, -⟩
  · omega
  · exact fun h => h.1 hzero

/-- A wait for as long as possible is over at once. -/
theorem longestWait_wrong :
    ¬ (wait0 ⟨2 ^ 63 - 1, by decide⟩).StoredRight 1700000000000000 := by
  rintro (⟨-, hle⟩ | ⟨hzero, -⟩)
  · exact absurd hle (by decide)
  · exact absurd hzero (by decide)

end BJvm.Threads
