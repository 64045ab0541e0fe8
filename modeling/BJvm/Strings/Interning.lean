import BJvm.Adt.StringHashTable

/-!
# Strings and their interning

`objects.c`.  The table of interned strings is keyed on the bytes of a string; what they stand for
depends on the coder as well.
-/

namespace BJvm.Strings

open Adt

/-- `string_coder_kind`. -/
inductive StringCoderKind
  | latin1 | utf16
  deriving DecidableEq, Repr

/-- `native_String`, with its array.  UTF-16 takes two bytes a unit. -/
structure NativeString where
  value : List UInt8
  coder : StringCoderKind
  even : coder = .utf16 → value.length % 2 = 0
  deriving DecidableEq

/-- The UTF-16 code units that bytes stand for, the low byte first. -/
def utf16Units : List UInt8 → List UInt16
  | lo :: hi :: rest => (lo.toUInt16 + hi.toUInt16 * 256) :: utf16Units rest
  | _ => []

/-- The string as a sequence of UTF-16 code units. -/
def NativeString.units (s : NativeString) : List UInt16 :=
  match s.coder with
  | .latin1 => s.value.map UInt8.toUInt16
  | .utf16 => utf16Units s.value

/-! ### Making strings -/

/-- `do_latin1`. -/
def doLatin1 (chars : List UInt16) : Bool := chars.all (· >>> 8 = 0)

/-- `convert_modified_utf8_to_chars`. -/
def convertModifiedUtf8ToChars : List UInt8 → Option (List UInt16)
  | [] => some []
  | byte :: rest =>
    if 0x01 ≤ byte ∧ byte ≤ 0x7F then
      (convertModifiedUtf8ToChars rest).map (byte.toUInt16 :: ·)
    else if byte &&& 0xE0 = 0xC0 then
      match rest with
      | b1 :: rest =>
        (convertModifiedUtf8ToChars rest).map
          (((byte.toUInt16 &&& 0x1F) <<< 6 ||| (b1.toUInt16 &&& 0x3F)) :: ·)
      | [] => none
    else if byte &&& 0xF0 = 0xE0 then
      match rest with
      | b1 :: b2 :: rest =>
        (convertModifiedUtf8ToChars rest).map
          (((byte.toUInt16 &&& 0x0F) <<< 12 ||| (b1.toUInt16 &&& 0x3F) <<< 6 |||
            (b2.toUInt16 &&& 0x3F)) :: ·)
      | _ => none
    else if byte = 0 then some []
    else none

/-- The bytes that `memcpy` takes out of the characters. -/
def charBytes (chars : List UInt16) : List UInt8 :=
  chars.flatMap fun c : UInt16 => [c.toUInt8, (c >>> 8).toUInt8]

theorem length_charBytes (chars : List UInt16) : (charBytes chars).length = 2 * chars.length := by
  simp [charBytes, List.length_flatMap, Nat.mul_comm]

/-- The string that `make_jstring_modified_utf8` makes. -/
def modifiedUtf8String (bytes : List UInt8) : Option NativeString :=
  (convertModifiedUtf8ToChars bytes).map fun chars =>
    if doLatin1 chars then
      { value := chars.map UInt16.toUInt8, coder := .latin1, even := by simp }
    else
      { value := charBytes chars
        coder := .utf16
        even := fun _ => by simp [length_charBytes] }

/-- The string that `make_jstring_cstr` makes. -/
def cStringString (bytes : List UInt8) : NativeString where
  value := bytes.takeWhile (· ≠ 0)
  coder := .latin1
  even := by simp

/-! ### Interning -/

/-- An object; zero is the null pointer. -/
abbrev Object := Nat

/-- The string that an object is, of those that the heap has: the `n`-th is the object `n + 1`. -/
def stringAt (strings : List NativeString) : Object → Option NativeString
  | 0 => none
  | o + 1 => strings[o]?

/-- The strings of the heap, and the table. -/
structure StringHeap where
  strings : List NativeString := []
  internedStrings : StringHashTable Object := makeHashTable (.ofRat (3 / 4)) 16

namespace StringHeap

variable (heap : StringHeap)

def string (o : Object) : Option NativeString := stringAt heap.strings o

/-- A new object. -/
def alloc (s : NativeString) : StringHeap × Object :=
  ({ heap with strings := heap.strings ++ [s] }, heap.strings.length + 1)

/-- `lookup_interned_jstring`. -/
def lookupInternedJstring (s : NativeString) : Object :=
  heap.internedStrings.lookup (keyOf s.value s.value.length)

/-- `insert_interned_jstring`. -/
def insertInternedJstring (s : NativeString) (o : Object) : Option StringHeap :=
  (heap.internedStrings.insert (keyOf s.value s.value.length) o).map fun p =>
    { heap with internedStrings := p.1 }

/-- `InternJString`, of the object `o`. -/
def internJString (s : NativeString) (o : Object) : Option (StringHeap × Object) :=
  let lookupResult := heap.lookupInternedJstring s
  if lookupResult ≠ 0 then some (heap, lookupResult)
  else (heap.insertInternedJstring s o).map (·, o)

/-- The end of `MakeJStringFromModifiedUTF8` and `MakeJStringFromCString`. -/
def makeJString (s : NativeString) (intern : Bool) : Option (StringHeap × Object) :=
  let (heap, o) := heap.alloc s
  let interned := heap.lookupInternedJstring s
  if interned ≠ 0 then some (heap, interned)
  else if intern then (heap.insertInternedJstring s o).map (·, o)
  else some (heap, o)

end StringHeap

/-- What happens to strings. -/
inductive Op
  /-- a string is made that nothing interns -/
  | alloc (s : NativeString)
  /-- `String.intern` -/
  | intern (o : Object)
  /-- `MakeJStringFromModifiedUTF8` -/
  | modifiedUtf8 (bytes : List UInt8) (intern : Bool)
  /-- `MakeJStringFromCString` -/
  | cString (bytes : List UInt8) (intern : Bool)

/-- A string that was passed to interning, and the object that came back. -/
structure Interned where
  argument : NativeString
  result : Object

/-- Notes what came back from interning. -/
def noteInterned (log : List Interned) (s : NativeString) (intern : Bool)
    (p : StringHeap × Object) : StringHeap × List Interned :=
  (p.1, if intern then log ++ [{ argument := s, result := p.2 }] else log)

/-- One operation, with the log of what was interned; none where it does not return. -/
def Op.apply (st : StringHeap × List Interned) : Op → Option (StringHeap × List Interned)
  | .alloc s => some ((st.1.alloc s).1, st.2)
  | .intern o => do
    let s ← st.1.string o
    (st.1.internJString s o).map (noteInterned st.2 s true)
  | .modifiedUtf8 bytes keep =>
    match modifiedUtf8String bytes with
    | none => some st
    | some s => (st.1.makeJString s keep).map (noteInterned st.2 s keep)
  | .cString bytes keep =>
    (st.1.makeJString (cStringString bytes) keep).map
      (noteInterned st.2 (cStringString bytes) keep)

def run (st : StringHeap × List Interned) (ops : List Op) : Option (StringHeap × List Interned) :=
  ops.foldlM Op.apply st

/-- The string that an operation makes. -/
def Op.made : Op → List NativeString
  | .alloc s => [s]
  | .intern _ => []
  | .modifiedUtf8 bytes _ => (modifiedUtf8String bytes).toList
  | .cString bytes _ => [cStringString bytes]

/-- The string that an operation passes to interning, in a heap with these strings. -/
def Op.passed (strings : List NativeString) : Op → List NativeString
  | .alloc _ => []
  | .intern o => (stringAt strings o).toList
  | .modifiedUtf8 bytes keep => if keep then (modifiedUtf8String bytes).toList else []
  | .cString bytes keep => if keep then [cStringString bytes] else []

/-- The strings that are passed to interning, in turn. -/
def passedAll : List NativeString → List Op → List NativeString
  | _, [] => []
  | strings, op :: ops => op.passed strings ++ passedAll (strings ++ op.made) ops

/-- The object that an operation interns exists. -/
def Op.Exists (strings : List NativeString) : Op → Prop
  | .intern o => (stringAt strings o).isSome
  | _ => True

/-- Each object that is interned exists at the time. -/
def AllExist : List NativeString → List Op → Prop
  | _, [] => True
  | strings, op :: ops => op.Exists strings ∧ AllExist (strings ++ op.made) ops

end BJvm.Strings
