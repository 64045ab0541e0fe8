import BJvm.Insn

/-!
# Line numbers

`get_line_number` looks the place of an instruction in the bytecode up in the `LineNumberTable`, by
bisection.  The JVM specification leaves the order of the table open.
-/

namespace BJvm.ClassFile

/-- The search of `get_line_number` between `low` and `high`, the index behind the last one.  An
entry is the `start_pc` and the line. -/
def searchLine (entries : List (Nat × Nat)) (originalPc : Nat) : Nat → Nat → Nat → Option Nat
  | 0, _, _ => none
  | fuel + 1, low, high =>
    if low < high then
      let mid := (low + (high - 1)) / 2
      match entries[mid]? with
      | none => none
      | some entry =>
        if entry.1 ≤ originalPc ∧ entries[mid + 1]?.all (originalPc < ·.1) then some entry.2
        else if entry.1 < originalPc then searchLine entries originalPc fuel (mid + 1) high
        else searchLine entries originalPc fuel low mid
    else none

/-- `get_line_number` of the instruction at `pc`; `none` is -1. -/
def getLineNumber (table : Option (List (Nat × Nat))) (code : List BytecodeInsn) (pc : Nat) :
    Option Nat :=
  match table, code[pc]? with
  | some entries, some insn =>
    searchLine entries insn.originalPc (entries.length + 1) 0 entries.length
  | _, _ => none

/-- The entry `e` has the greatest start that is not behind `originalPc`, and is the last listed of
those with it. -/
def Governs (starts : List Nat) (originalPc e : Nat) : Prop :=
  ∃ start, starts[e]? = some start ∧ start ≤ originalPc ∧
    ∀ j start', starts[j]? = some start' → start' ≤ originalPc →
      start' < start ∨ start' = start ∧ j ≤ e

/-- The line is that of the entry that governs the instruction, if there are both. -/
def SpecifiedLine (entries : List (Nat × Nat)) (code : List BytecodeInsn) (pc : Nat)
    (line : Option Nat) : Prop :=
  ∀ l, line = some l ↔ ∃ insn e entry, code[pc]? = some insn ∧ entries[e]? = some entry ∧
    Governs (entries.map Prod.fst) insn.originalPc e ∧ entry.2 = l

/-- The entries that a bisection looks at before `e`. -/
def bisectTo (e : Nat) : Nat → Nat → Nat → List Nat
  | 0, _, _ => []
  | fuel + 1, low, high =>
    let mid := (low + (high - 1)) / 2
    if e < mid then mid :: bisectTo e fuel low mid
    else if mid < e then mid :: bisectTo e fuel (mid + 1) high
    else []

/-- The entry at `mid` sends a bisection on towards `e`. -/
def SendsOn (starts : List Nat) (originalPc e mid : Nat) : Prop :=
  if mid < e then
    (∃ start, starts[mid]? = some start ∧ start < originalPc) ∧
      ∃ start, starts[mid + 1]? = some start ∧ start ≤ originalPc
  else ∃ start, starts[mid]? = some start ∧ originalPc < start

/-- The entry that governs the place is followed by a greater one or by none, and each entry that the
bisection looks at before is on its side of the place. -/
def Searchable (starts : List Nat) (originalPc : Nat) : Prop :=
  ∀ e, Governs starts originalPc e → (∀ start ∈ starts[e + 1]?, originalPc < start) ∧
    ∀ mid ∈ bisectTo e (starts.length + 1) 0 starts.length, SendsOn starts originalPc e mid

/-- A bisection that looks at the entry stops there: it does not start behind the place, and what
follows does. -/
def Stops (starts : List Nat) (originalPc i : Nat) : Prop :=
  ∃ start, starts[i]? = some start ∧ start ≤ originalPc ∧ ∀ next ∈ starts[i + 1]?, originalPc < next

/-- A bisection that looks at the entry `mid` goes on to the side of `i`. -/
def Passes (starts : List Nat) (originalPc i mid : Nat) : Prop :=
  ¬ Stops starts originalPc mid ∧
    (mid < i ↔ ∃ start, starts[mid]? = some start ∧ start < originalPc)

/-- A bisection comes to the entry `i` and stops. -/
def Reaches (starts : List Nat) (originalPc i : Nat) : Prop :=
  Stops starts originalPc i ∧
    ∀ mid ∈ bisectTo i (starts.length + 1) 0 starts.length, Passes starts originalPc i mid

/-- If an entry governs the place, a bisection comes to it or to one with its line. -/
def FindsLine (entries : List (Nat × Nat)) (originalPc : Nat) : Prop :=
  ∀ e entry, Governs (entries.map Prod.fst) originalPc e → entries[e]? = some entry →
    ∃ i found, Reaches (entries.map Prod.fst) originalPc i ∧ entries[i]? = some found ∧
      found.2 = entry.2

end BJvm.ClassFile
