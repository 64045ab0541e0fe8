import BJvm.Memory.StackString
import Mathlib.Data.List.Chain

/-!
# Identifying methods

The loops of `merge_itable` and `setup_itables` call `identify` with one scratch string, for one method
after the other.  Its length is how much may be written, and becomes that of the key.
-/

namespace BJvm.Linkage

open CBuffers StackString

/-- The name and the descriptor of a method, in bytes. -/
structure MethodIdentity where
  name : List UInt8
  unparsedDescriptor : List UInt8
  deriving DecidableEq, Repr, Inhabited

namespace MethodIdentity

variable (m : MethodIdentity)

/-- The name, a colon and the descriptor. -/
def key : List UInt8 := m.name ++ ':'.toUInt8 :: m.unparsedDescriptor

def size : Nat := m.name.length + m.unparsedDescriptor.length

/-- `identify`, on the buffer of the scratch string. -/
def identify (buffer : List UInt8) (scratch : Slice) : Option (List UInt8 × Slice) := do
  let (buffer, pos) ← stpncpy buffer scratch.offset m.name scratch.len
  let buffer ← write buffer pos [':'.toUInt8]
  let (buffer, pos) ← stpncpy buffer (pos + 1) m.unparsedDescriptor
    (scratch.offset + scratch.len + 1 - (pos + 1))
  return (buffer, { scratch with len := pos - scratch.offset })

end MethodIdentity

/-- The keys of a sequence of methods. -/
def identifyAll : List UInt8 → Slice → List MethodIdentity → Option (List (List UInt8))
  | _, _, [] => some []
  | buffer, scratch, m :: ms => do
    let (buffer, scratch) ← m.identify buffer scratch
    let key ← scratch.chars buffer
    let keys ← identifyAll buffer scratch ms
    return key :: keys

/-- `identifyAll` with a new scratch string. -/
def identifyWithScratch (ms : List MethodIdentity) : Option (List (List UInt8)) :=
  identifyAll (initStackString 1024).1 (initStackString 1024).2 ms

/-- The keys are those of the methods, and different methods have different keys. -/
def KeysRight (ms : List MethodIdentity) : Prop :=
  ∃ keys, identifyWithScratch ms = some keys ∧ keys = ms.map (·.key) ∧
    ∀ i < ms.length, ∀ j < ms.length, keys[i]? = keys[j]? ↔ ms[i]? = ms[j]?

/-- When the keys of a sequence are right.  The length of a key is one more than the size of its
method. -/
structure KeysFit (ms : List MethodIdentity) : Prop where
  first : ∀ m ∈ ms.head?, m.size ≤ 1024
  next : ms.IsChain fun m m' => m.size < 1024 ∧ m'.size ≤ m.size + 1
  noZero : ∀ m ∈ ms, 0 ∉ m.name ∧ 0 ∉ m.unparsedDescriptor
  noColon : ∀ m ∈ ms, ∀ m' ∈ ms, ∀ s, m.name = m'.name ++ ':'.toUInt8 :: s →
    m'.unparsedDescriptor ≠ s ++ ':'.toUInt8 :: m.unparsedDescriptor

end BJvm.Linkage
