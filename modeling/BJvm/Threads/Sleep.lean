import BJvm.Threads.RoundRobin

/-!
# Sleeping between steps

`rr_scheduler_may_sleep_us`: how long the caller of the scheduler may sleep before its next step.
-/

namespace BJvm.Threads

/-- The loop over the threads; none where one of them has a call and is awake. -/
def minWakeup (m : Machine) (mem : Memory) (time : Nat) : List ThreadInfo → Nat → Option Nat
  | [], min => some min
  | info :: infos, min =>
    if info.callQueue = [] then minWakeup m mem time infos min
    else if isSleeping m mem time info then
      let wakeupTime := info.wakeupInfo.elim 0 fun a => (mem a).wakeupUs
      minWakeup m mem time infos (if wakeupTime ≠ 0 ∧ wakeupTime < min then wakeupTime else min)
    else none

/-- `rr_scheduler_may_sleep_us` at a time. -/
def rrSchedulerMaySleepUs (m : Machine) (mem : Memory) (time : Nat) (roundRobin : List ThreadInfo) :
    Nat :=
  match minWakeup m mem time roundRobin uint64Max with
  | none => 0
  | some min => if time < min then min - time else 0

/-- The thread has a call, and a step at this time may pick it. -/
def ThreadInfo.Runnable (info : ThreadInfo) (m : Machine) (mem : Memory) (time : Nat) : Prop :=
  info.callQueue ≠ [] ∧ isSleeping m mem time info = false

/-- A time to sleep that lets no thread oversleep.  What the threads wait for is what it is now, and
only time goes by; a clock of 64 bits has no later time than `uint64Max`. -/
structure SleepsRight (m : Machine) (mem : Memory) (time : Nat) (roundRobin : List ThreadInfo)
    (us : Nat) : Prop where
  earliest : ∀ info ∈ roundRobin, ∀ time', time ≤ time' → info.Runnable m mem time' →
    us ≤ time' - time
  awake : (∃ info ∈ roundRobin, info.Runnable m mem time) → us = 0
  unbounded : us = uint64Max - time → ∀ info ∈ roundRobin, ∀ time', time < time' →
    time' ≤ uint64Max → ¬ info.Runnable m mem time'

end BJvm.Threads
