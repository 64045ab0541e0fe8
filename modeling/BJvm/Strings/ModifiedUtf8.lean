import BJvm.Strings.Interning

/-!
# Strings from and to bytes

`make_jstring_modified_utf8` in `objects.c` and `read_string_to_utf8` in `bjvm.c`, with the two
encodings they are about.  An encoding is written with numbers, where the code moves bits.
-/

namespace BJvm.Strings

/-- `slice`: its length is a `u32`. -/
structure Slice where
  chars : List UInt8
  len_lt : chars.length < 2 ^ 32

/-- `(int)string.len` -/
def Slice.intLen (string : Slice) : Int := Int.bmod string.chars.length (2 ^ 32)

/-- What `make_jstring_modified_utf8` comes to while there is memory. -/
inductive MadeString
  | null
  | string (s : NativeString)
  /-- `2 * len` is no `int`: `memcpy` writes behind whatever array there is. -/
  | overrun
  deriving DecidableEq

/-- The string object for what the bytes convert to. -/
def MadeString.of : Option NativeString → MadeString
  | none => .null
  | some s => if s.coder = .utf16 ∧ 2 ^ 31 ≤ s.value.length then .overrun else .string s

/-- `make_jstring_modified_utf8` -/
def makeJstringModifiedUtf8 (string : Slice) : MadeString :=
  -- the loop is not entered when the length has become negative
  .of (modifiedUtf8String (string.chars.take string.intLen.toNat))

/-- The string object's array has an `int` for its length. -/
structure JavaString extends NativeString where
  length_lt : value.length < 2 ^ 31

/-- `read_string_to_utf8` -/
def readStringToUtf8 (obj : JavaString) : Slice where
  chars := obj.value
  len_lt := obj.length_lt.trans (by decide)

/-! ### Modified UTF-8 -/

/-- The bytes of one code unit. -/
def encodeUnit (u : UInt16) : List UInt8 :=
  let v := u.toNat
  if 0x01 ≤ v ∧ v ≤ 0x7F then [.ofNat v]
  else if v ≤ 0x7FF then [.ofNat (0xC0 + v / 64), .ofNat (0x80 + v % 64)]
  else [.ofNat (0xE0 + v / 4096), .ofNat (0x80 + v / 64 % 64), .ofNat (0x80 + v % 64)]

/-- The modified UTF-8 of a sequence of code units. -/
def modifiedUtf8 (units : List UInt16) : List UInt8 := units.flatMap encodeUnit

/-- By the first byte of each character, the bytes come to one that no character starts with, or
to a character that they do not hold in full, before they come to a zero byte. -/
inductive Uncuttable : List UInt8 → Prop
  | continuation {b rest} (h : 0x80 ≤ b.toNat ∧ b.toNat < 0xC0) : Uncuttable (b :: rest)
  | high {b rest} (h : 0xF0 ≤ b.toNat) : Uncuttable (b :: rest)
  | cutTwo {b} (h : 0xC0 ≤ b.toNat ∧ b.toNat < 0xE0) : Uncuttable [b]
  | cutThree {b rest} (h : 0xE0 ≤ b.toNat ∧ b.toNat < 0xF0) (hrest : rest.length < 2) :
      Uncuttable (b :: rest)
  | one {b rest} (h : 0x01 ≤ b.toNat ∧ b.toNat < 0x80) (hrest : Uncuttable rest) :
      Uncuttable (b :: rest)
  | two {b b1 rest} (h : 0xC0 ≤ b.toNat ∧ b.toNat < 0xE0) (hrest : Uncuttable rest) :
      Uncuttable (b :: b1 :: rest)
  | three {b b1 b2 rest} (h : 0xE0 ≤ b.toNat ∧ b.toNat < 0xF0) (hrest : Uncuttable rest) :
      Uncuttable (b :: b1 :: b2 :: rest)

/-- A slice is decoded when it encodes something, and rejected when it does not. -/
structure DecodesExactly (string : Slice) : Prop where
  decoded : ∀ units, string.chars = modifiedUtf8 units →
    ∃ s, makeJstringModifiedUtf8 string = .string s ∧ s.units = units ∧
      (s.coder = .latin1 ↔ ∀ u ∈ units, u.toNat < 256)
  rejected : (¬∃ units, string.chars = modifiedUtf8 units) → makeJstringModifiedUtf8 string = .null

/-! ### UTF-8 -/

/-- The first of the two units of a supplementary character. -/
def HighSurrogate (u : UInt16) : Prop := 0xD800 ≤ u.toNat ∧ u.toNat < 0xDC00

/-- The second one. -/
def LowSurrogate (u : UInt16) : Prop := 0xDC00 ≤ u.toNat ∧ u.toNat < 0xE000

instance : DecidablePred HighSurrogate := fun _ => inferInstanceAs (Decidable (_ ∧ _))
instance : DecidablePred LowSurrogate := fun _ => inferInstanceAs (Decidable (_ ∧ _))

/-- The characters of a sequence of code units; none if a surrogate has no partner. -/
def characters : List UInt16 → Option (List Char)
  | [] => some []
  | u :: rest =>
    if HighSurrogate u then
      match rest with
      | l :: rest =>
        if LowSurrogate l then
          (characters rest).map
            (.ofNat (0x10000 + (u.toNat - 0xD800) * 0x400 + (l.toNat - 0xDC00)) :: ·)
        else none
      | [] => none
    else if LowSurrogate u then none
    else (characters rest).map (.ofNat u.toNat :: ·)

/-- The UTF-8 of a sequence of code units, if it has one. -/
def utf8 (units : List UInt16) : Option (List UInt8) :=
  (characters units).map (·.flatMap String.utf8EncodeChar)

/-- `read_string_to_utf8` gives the UTF-8 of a string, and what is made from that is the string
again, unless it has characters that modified UTF-8 writes in another way. -/
structure ReadsUtf8 (obj : JavaString) : Prop where
  read : ∀ bytes, utf8 obj.units = some bytes → (readStringToUtf8 obj).chars = bytes
  made : (∀ u ∈ obj.units, u ≠ 0 ∧ ¬HighSurrogate u ∧ ¬LowSurrogate u) →
    ∃ s, makeJstringModifiedUtf8 (readStringToUtf8 obj) = .string s ∧ s.units = obj.units

end BJvm.Strings
