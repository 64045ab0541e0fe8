import BJvm.Threads.Parking

/-!
# Wakeup times

What `wait0`, `sleepNanos0` and `park` store for the scheduler, in microseconds.  A product or sum
that leaves 64 bits is taken to wrap around.
-/

namespace BJvm.Threads

/-- What a thread asks for; an argument that is not to be negative has been checked. -/
inductive Timeout
  /-- `Object.wait0` -/
  | wait0 (timeoutMillis : Fin (2 ^ 63))
  /-- `Thread.sleepNanos0` -/
  | sleepNanos0 (nanos : Fin (2 ^ 63))
  /-- `Unsafe.park` with a duration -/
  | parkFor (time : Fin (2 ^ 63))
  /-- `Unsafe.park` up to a point in time -/
  | parkUntil (time : Int64)

/-- The wakeup time of `wait0`. -/
def waitDeadline (timeoutMillis now : Nat) : Nat :=
  if timeoutMillis = 0 then 0 else (now + timeoutMillis * 1000) % 2 ^ 64

/-- The wakeup time of `sleepNanos0`. -/
def sleepDeadline (nanos startUs : Nat) : Nat :=
  let sleepUs := nanos / 1000
  -- overflow, just sleep forever
  if 2 ^ 64 ≤ startUs + sleepUs then 0 else startUs + sleepUs

namespace Timeout

/-- The wakeup time; none where the thread goes on at once. -/
def wakeupUs (now : UInt64) : Timeout → Option Nat
  | wait0 timeoutMillis => some (waitDeadline timeoutMillis now.toNat)
  | sleepNanos0 nanos => some (sleepDeadline nanos now.toNat)
  | parkFor time => parkDeadline false (time : Nat) now.toNat
  | parkUntil time => parkDeadline true time.toInt now.toNat

/-- When the thread is to go on, in whole microseconds; none if not before something else happens. -/
def deadline (now : UInt64) : Timeout → Option Int
  | wait0 timeoutMillis => if timeoutMillis = 0 then none else some (now.toNat + timeoutMillis * 1000)
  | sleepNanos0 nanos => some (now.toNat + nanos / 1000)
  | parkFor time => if time = 0 then none else some (now.toNat + time / 1000)
  | parkUntil time => some (time.toInt * 1000)

/-- The time stored is no earlier than the deadline.  Zero is stored only without a deadline, or for
one that 64 bits do not hold; and nothing only when the deadline has passed. -/
def RightFor (now : UInt64) : Option Nat → Option Int → Prop
  | some wakeup, none => wakeup = 0
  | some wakeup, some deadline =>
    (wakeup ≠ 0 ∧ deadline ≤ wakeup) ∨ (wakeup = 0 ∧ 2 ^ 64 ≤ deadline)
  | none, some deadline => deadline < now.toNat
  | none, none => False

def StoredRight (now : UInt64) (timeout : Timeout) : Prop :=
  RightFor now (timeout.wakeupUs now) (timeout.deadline now)

/-- What the code makes of a deadline that 64 bits do not hold is zero. -/
def ZeroFor (now : UInt64) (deadline : Int) : Timeout → Prop
  | sleepNanos0 _ => True
  | wait0 _ | parkFor _ => 2 ^ 64 ∣ deadline
  | parkUntil _ => 2 ^ 64 ∣ deadline ∧ now = 0

/-- The deadline has passed, or is not at zero and fits in 64 bits, or is taken for none. -/
def Representable (now : UInt64) (timeout : Timeout) : Prop :=
  ∀ deadline ∈ timeout.deadline now, deadline < now.toNat ∨ (0 < deadline ∧ deadline < 2 ^ 64) ∨
    2 ^ 64 ≤ deadline ∧ timeout.ZeroFor now deadline

end Timeout

end BJvm.Threads
