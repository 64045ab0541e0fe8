import BJvm.Analysis.NpeMessage
import BJvm.Memory.StackString

/-!
# Class names in fixed buffers

The routines that copy the name of a class to a string on the stack: `bootstrap_load_class_from_fs` and
`lookup_class` of `bjvm.c`, and the native methods of `Class` and `ClassLoader`.  Each is modelled up to
the name that it goes on with.  It fails where it reads or writes beyond the buffer, or aborts.
-/

namespace BJvm.ClassNames

open CBuffers StackString
open ClassFile (Chars)

/-- `MAX_CF_NAME_LENGTH`. -/
def maxCfNameLength : Nat := 1000

/-- `.class`. -/
def cfEnding : Chars := ['.', 'c', 'l', 'a', 's', 's'].map Char.toUInt8

/-- `%d` of a count. -/
def decimal (n : Nat) : Chars := (Nat.toDigits 10 n).map Char.toUInt8

/-- The name of the file for which `bootstrap_load_class_from_fs` calls `lookup_classpath`. -/
def bootstrapFilename (chars : Chars) : Option Chars := do
  let (buffer, filename) := initStackString (maxCfNameLength + 6)
  let buffer ← write buffer filename.offset chars
  let buffer ← write buffer (filename.offset + chars.length) cfEnding
  ({ filename with len := chars.length + cfEnding.length } : Slice).chars buffer

/-- `exchange_slashes_and_dots`, from a string to a string on the stack. -/
def exchangeInto (dchecks : Bool) (buffer : Chars) (dst : Slice) (src : Chars) :
    Option (Chars × Slice) := do
  -- the `DCHECK` of `dst->len`
  if dchecks ∧ dst.len < src.length then none
  else
    let buffer ← write buffer dst.offset src
    let copied ← read buffer dst.offset src.length
    let buffer ← write buffer dst.offset (exchangeSlashesAndDots copied)
    return (buffer, { dst with len := src.length })

/-- The name that `lookup_class` calls `loadClass` with. -/
def loadClassName (dchecks : Bool) (classname : Chars) : Option Chars := do
  let (buffer, withDots) := initStackString 1024
  let (buffer, withDots) ← exchangeInto dchecks buffer withDots classname
  withDots.chars buffer

/-- The name that `Class.initClassName` makes a string of. -/
def initClassName (name : Chars) : Option Chars := do
  let (buffer, str) := initStackString 1000
  let (buffer, _) ← bprintf buffer str (cstr name)
  -- the loop goes up to the length of the name of the class
  let printed ← read buffer str.offset name.length
  let buffer ← write buffer str.offset (replaceSlashes printed)
  ({ str with len := name.length } : Slice).chars buffer

/-- What `define_class_shared_impl` makes of the name that it is given. -/
def replaceDots (name : Chars) : Chars :=
  name.map fun c => if c = '.'.toUInt8 then '/'.toUInt8 else c

/-- What is behind the name of a hidden class; `incr` counts them. -/
def hiddenSuffix (incr : Option Nat) : Chars := incr.elim [] fun incr => '.'.toUInt8 :: decimal incr

/-- The name that `define_class_shared_impl` defines a class by, hidden or not. -/
def defineClassName (incr : Option Nat) (name : Chars) : Option Chars := do
  let (buffer, cfName) := initStackString 1000
  let (buffer, cfName) ← bprintf buffer cfName (cstr (replaceDots name) ++ hiddenSuffix incr)
  cfName.chars buffer

/-! ### The routines -/

inductive NameRoutine
  | bootstrapLoadClassFromFs
  | lookupClass
  | initClassName
  | defineClassSharedImpl (incr : Option Nat)
  deriving DecidableEq, Repr

namespace NameRoutine

/-- What the routine goes on with. -/
def run (dchecks : Bool) : NameRoutine → Chars → Option Chars
  | bootstrapLoadClassFromFs, name => bootstrapFilename name
  | lookupClass, name => loadClassName dchecks name
  | initClassName, name => ClassNames.initClassName name
  | defineClassSharedImpl incr, name => defineClassName incr name

/-- What it is meant to go on with. -/
def complete : NameRoutine → Chars → Chars
  | bootstrapLoadClassFromFs, name => name ++ cfEnding
  | lookupClass, name => exchangeSlashesAndDots name
  | initClassName, name => replaceSlashes name
  | defineClassSharedImpl incr, name => replaceDots name ++ hiddenSuffix incr

/-- The names that fit. -/
def Fits (dchecks : Bool) : NameRoutine → Chars → Prop
  | bootstrapLoadClassFromFs, name => name.length ≤ 1001
  | lookupClass, name => name.length ≤ if dchecks then 1024 else 1025
  | initClassName, name =>
    name.length ≤ 1001 ∧ (cstr name).length ≤ 1000 ∧ ∀ b ∈ name.drop (cstr name).length, b = 0
  | defineClassSharedImpl incr, name => (name ++ hiddenSuffix incr).length ≤ 1000 ∧ 0 ∉ name

end NameRoutine

end BJvm.ClassNames
