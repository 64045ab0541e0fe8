import BJvm.Strings.ModifiedUtf8
import Mathlib.Data.FinEnum

/-!
# Decoding modified UTF-8

The decoder goes by the first byte of each character: it never looks at what makes a byte a
continuation byte, and it takes a zero byte for the end.  So it undoes the encoding, and what it
rejects is only what cannot be cut into characters.
-/

namespace BJvm.Strings

/-! ### One character -/

/-- The masks of the decoder, read off all bytes at once. -/
theorem byte_masks : ∀ b : UInt8, ((0x01 ≤ b ∧ b ≤ 0x7F) ↔ 0x01 ≤ b.toNat ∧ b.toNat < 0x80) ∧
    (b &&& 0xE0 = 0xC0 ↔ 0xC0 ≤ b.toNat ∧ b.toNat < 0xE0) ∧
    (b &&& 0xF0 = 0xE0 ↔ 0xE0 ≤ b.toNat ∧ b.toNat < 0xF0) ∧
    (b.toUInt16 &&& 0x1F).toNat = b.toNat % 32 ∧ (b.toUInt16 &&& 0x0F).toNat = b.toNat % 16 ∧
    (b.toUInt16 &&& 0x3F).toNat = b.toNat % 64 := by
  decide +kernel

theorem one_byte (b : UInt8) : (0x01 ≤ b ∧ b ≤ 0x7F) ↔ 0x01 ≤ b.toNat ∧ b.toNat < 0x80 :=
  (byte_masks b).1

theorem two_byte (b : UInt8) : b &&& 0xE0 = 0xC0 ↔ 0xC0 ≤ b.toNat ∧ b.toNat < 0xE0 :=
  (byte_masks b).2.1

theorem three_byte (b : UInt8) : b &&& 0xF0 = 0xE0 ↔ 0xE0 ≤ b.toNat ∧ b.toNat < 0xF0 :=
  (byte_masks b).2.2.1

theorem low_five (b : UInt8) : (b.toUInt16 &&& 0x1F).toNat = b.toNat % 32 :=
  (byte_masks b).2.2.2.1

theorem low_four (b : UInt8) : (b.toUInt16 &&& 0x0F).toNat = b.toNat % 16 :=
  (byte_masks b).2.2.2.2.1

theorem low_six (b : UInt8) : (b.toUInt16 &&& 0x3F).toNat = b.toNat % 64 :=
  (byte_masks b).2.2.2.2.2

/-- The unit that two bytes decode to. -/
theorem unit_two (b b1 : UInt8) :
    (b.toUInt16 &&& 0x1F) <<< 6 ||| (b1.toUInt16 &&& 0x3F)
      = .ofNat (b.toNat % 32 * 64 + b1.toNat % 64) := by
  have h := Nat.two_pow_add_eq_or_of_lt (i := 6) (b := b1.toNat % 64) (by omega) (b.toNat % 32)
  rw [← UInt16.toNat_inj, UInt16.toNat_or, UInt16.toNat_shiftLeft, low_five, low_six,
    UInt16.toNat_ofNat', Nat.shiftLeft_eq]
  simp only [UInt16.reduceToNat, Nat.reduceMod, Nat.reducePow] at h ⊢
  rw [show b.toNat % 32 * 64 % 65536 = 64 * (b.toNat % 32) by omega, ← h]
  omega

/-- The unit that three bytes decode to. -/
theorem unit_three (b b1 b2 : UInt8) :
    (b.toUInt16 &&& 0x0F) <<< 12 ||| (b1.toUInt16 &&& 0x3F) <<< 6 ||| (b2.toUInt16 &&& 0x3F)
      = .ofNat (b.toNat % 16 * 4096 + b1.toNat % 64 * 64 + b2.toNat % 64) := by
  have h := Nat.two_pow_add_eq_or_of_lt (i := 12) (b := b1.toNat % 64 * 64) (by omega)
    (b.toNat % 16)
  have h' := Nat.two_pow_add_eq_or_of_lt (i := 6) (b := b2.toNat % 64) (by omega)
    (b.toNat % 16 * 64 + b1.toNat % 64)
  rw [← UInt16.toNat_inj, UInt16.toNat_or, UInt16.toNat_or, UInt16.toNat_shiftLeft,
    UInt16.toNat_shiftLeft, low_four, low_six, low_six, UInt16.toNat_ofNat', Nat.shiftLeft_eq,
    Nat.shiftLeft_eq]
  simp only [UInt16.reduceToNat, Nat.reduceMod, Nat.reducePow] at h h' ⊢
  rw [show b.toNat % 16 * 4096 % 65536 = 4096 * (b.toNat % 16) by omega,
    show b1.toNat % 64 * 64 % 65536 = b1.toNat % 64 * 64 by omega, ← h,
    show 4096 * (b.toNat % 16) + b1.toNat % 64 * 64
      = 64 * (b.toNat % 16 * 64 + b1.toNat % 64) by omega, ← h']
  omega

/-! ### The decoder -/

variable {b b1 b2 : UInt8} {rest : List UInt8}

theorem convert_one (h : 0x01 ≤ b.toNat ∧ b.toNat < 0x80) :
    convertModifiedUtf8ToChars (b :: rest)
      = (convertModifiedUtf8ToChars rest).map (b.toUInt16 :: ·) := by
  rw [convertModifiedUtf8ToChars.eq_def]
  dsimp only
  rw [if_pos ((one_byte b).2 h)]

theorem convert_two (h : 0xC0 ≤ b.toNat ∧ b.toNat < 0xE0) :
    convertModifiedUtf8ToChars (b :: b1 :: rest) = (convertModifiedUtf8ToChars rest).map
      (.ofNat (b.toNat % 32 * 64 + b1.toNat % 64) :: ·) := by
  rw [convertModifiedUtf8ToChars.eq_def]
  dsimp only
  rw [if_neg (mt (one_byte b).1 (by omega)),
    if_pos ((two_byte b).2 h)]
  simp only [unit_two]

theorem convert_three (h : 0xE0 ≤ b.toNat ∧ b.toNat < 0xF0) :
    convertModifiedUtf8ToChars (b :: b1 :: b2 :: rest) = (convertModifiedUtf8ToChars rest).map
      (.ofNat (b.toNat % 16 * 4096 + b1.toNat % 64 * 64 + b2.toNat % 64) :: ·) := by
  rw [convertModifiedUtf8ToChars.eq_def]
  dsimp only
  rw [if_neg (mt (one_byte b).1 (by omega)),
    if_neg (mt (two_byte b).1 (by omega)), if_pos ((three_byte b).2 h)]
  simp only [unit_three]

theorem convert_encodeUnit (u : UInt16) (rest : List UInt8) :
    convertModifiedUtf8ToChars (encodeUnit u ++ rest)
      = (convertModifiedUtf8ToChars rest).map (u :: ·) := by
  have hu : u.toNat < 65536 := u.toNat_lt
  unfold encodeUnit
  simp only []
  split_ifs with h1 h2
  · have hunit : (UInt8.ofNat u.toNat).toUInt16 = u := by
      rw [← UInt16.toNat_inj]
      simp
      omega
    rw [List.singleton_append, convert_one (by simp; omega), hunit]
  · rw [List.cons_append, List.singleton_append, convert_two (by simp; omega)]
    simp only [UInt8.toNat_ofNat']
    rw [show (192 + u.toNat / 64) % 2 ^ 8 % 32 * 64 + (128 + u.toNat % 64) % 2 ^ 8 % 64 = u.toNat
      by omega, UInt16.ofNat_toNat]
  · rw [List.cons_append, List.cons_append, List.singleton_append, convert_three (by simp; omega)]
    simp only [UInt8.toNat_ofNat']
    rw [show (224 + u.toNat / 4096) % 2 ^ 8 % 16 * 4096
        + (128 + u.toNat / 64 % 64) % 2 ^ 8 % 64 * 64 + (128 + u.toNat % 64) % 2 ^ 8 % 64 = u.toNat
      by omega, UInt16.ofNat_toNat]

/-- The decoder undoes the encoding. -/
theorem convert_modifiedUtf8 : ∀ units : List UInt16,
    convertModifiedUtf8ToChars (modifiedUtf8 units) = some units
  | [] => rfl
  | u :: units => by
    rw [modifiedUtf8, List.flatMap_cons, convert_encodeUnit, ← modifiedUtf8,
      convert_modifiedUtf8 units, Option.map_some]

theorem convert_cutTwo (h : 0xC0 ≤ b.toNat ∧ b.toNat < 0xE0) :
    convertModifiedUtf8ToChars [b] = none := by
  rw [convertModifiedUtf8ToChars.eq_def]
  dsimp only
  rw [if_neg (mt (one_byte b).1 (by omega)), if_pos ((two_byte b).2 h)]

theorem convert_cutThree (h : 0xE0 ≤ b.toNat ∧ b.toNat < 0xF0) (hrest : rest.length < 2) :
    convertModifiedUtf8ToChars (b :: rest) = none := by
  rw [convertModifiedUtf8ToChars.eq_def]
  dsimp only
  rw [if_neg (mt (one_byte b).1 (by omega)), if_neg (mt (two_byte b).1 (by omega)),
    if_pos ((three_byte b).2 h)]
  match rest, hrest with
  | [], _ => rfl
  | [_], _ => rfl

theorem convert_other (h : (0x80 ≤ b.toNat ∧ b.toNat < 0xC0) ∨ 0xF0 ≤ b.toNat) :
    convertModifiedUtf8ToChars (b :: rest) = none := by
  rw [convertModifiedUtf8ToChars.eq_def]
  dsimp only
  rw [if_neg (mt (one_byte b).1 (by omega)), if_neg (mt (two_byte b).1 (by omega)),
    if_neg (mt (three_byte b).1 (by omega)), if_neg]
  rintro rfl
  simp at h

theorem convert_zero : convertModifiedUtf8ToChars (0 :: rest) = some [] := by
  rw [convertModifiedUtf8ToChars.eq_def]
  simp

theorem Uncuttable.convert {bytes : List UInt8} (h : Uncuttable bytes) :
    convertModifiedUtf8ToChars bytes = none := by
  induction h with
  | continuation h => exact convert_other (.inl h)
  | high h => exact convert_other (.inr h)
  | cutTwo h => exact convert_cutTwo h
  | cutThree h hrest => exact convert_cutThree h hrest
  | one h _ ih => rw [convert_one h, ih, Option.map_none]
  | two h _ ih => rw [convert_two h, ih, Option.map_none]
  | three h _ ih => rw [convert_three h, ih, Option.map_none]

/-- What the decoder rejects. -/
theorem uncuttable_of_convert : ∀ {bytes : List UInt8},
    convertModifiedUtf8ToChars bytes = none → Uncuttable bytes
  | [], h => by cases h
  | b :: rest, h => by
    have hb : b.toNat < 256 := b.toNat_lt
    rcases (by omega : b.toNat = 0 ∨ (0x01 ≤ b.toNat ∧ b.toNat < 0x80) ∨
      (0x80 ≤ b.toNat ∧ b.toNat < 0xC0) ∨ (0xC0 ≤ b.toNat ∧ b.toNat < 0xE0) ∨
      (0xE0 ≤ b.toNat ∧ b.toNat < 0xF0) ∨ 0xF0 ≤ b.toNat) with h0 | h1 | hcont | h2 | h3 | hhigh
    · have hzero : b = 0 := UInt8.toNat_inj.1 h0
      rw [hzero, convert_zero] at h
      cases h
    · rw [convert_one h1, Option.map_eq_none_iff] at h
      exact .one h1 (uncuttable_of_convert h)
    · exact .continuation hcont
    · match rest with
      | [] => exact .cutTwo h2
      | b1 :: rest =>
        rw [convert_two h2, Option.map_eq_none_iff] at h
        exact .two h2 (uncuttable_of_convert h)
    · match rest with
      | [] => exact .cutThree h3 (by simp)
      | [_] => exact .cutThree h3 (by simp)
      | b1 :: b2 :: rest =>
        rw [convert_three h3, Option.map_eq_none_iff] at h
        exact .three h3 (uncuttable_of_convert h)
    · exact .high hhigh

/-! ### The string -/

theorem doLatin1_iff {units : List UInt16} :
    doLatin1 units = true ↔ ∀ u ∈ units, u.toNat < 256 := by
  rw [doLatin1, List.all_eq_true]
  refine forall₂_congr fun u _ => ?_
  rw [decide_eq_true_iff, ← UInt16.toNat_inj, UInt16.toNat_shiftRight, Nat.shiftRight_eq_div_pow]
  simp

theorem utf16Units_charBytes : ∀ units : List UInt16, utf16Units (charBytes units) = units
  | [] => rfl
  | u :: units => by
    have hunit : u.toUInt8.toUInt16 + (u >>> 8).toUInt8.toUInt16 * 256 = u := by
      have hu : u.toNat < 65536 := u.toNat_lt
      rw [← UInt16.toNat_inj]
      simp [Nat.shiftRight_eq_div_pow]
      omega
    have htail := utf16Units_charBytes units
    rw [charBytes] at htail ⊢
    rw [List.flatMap_cons, List.cons_append, List.singleton_append, utf16Units, hunit, htail]

theorem map_toUInt8 {units : List UInt16} (h : ∀ u ∈ units, u.toNat < 256) :
    (units.map UInt16.toUInt8).map UInt8.toUInt16 = units := by
  rw [List.map_map]
  refine (List.map_congr_left fun u hu => ?_).trans (List.map_id units)
  have hlt := h u hu
  rw [← UInt16.toNat_inj]
  simp
  omega

theorem modifiedUtf8String_some {bytes : List UInt8} {units : List UInt16}
    (h : convertModifiedUtf8ToChars bytes = some units) :
    ∃ s, modifiedUtf8String bytes = some s ∧ s.units = units ∧
      (s.coder = .latin1 ↔ ∀ u ∈ units, u.toNat < 256) ∧
      (s.coder = .utf16 → s.value.length = 2 * units.length) := by
  rw [modifiedUtf8String, h, Option.map_some]
  refine ⟨_, rfl, ?_⟩
  split_ifs with hl
  · have hall := doLatin1_iff.1 hl
    exact ⟨map_toUInt8 hall, ⟨fun _ => hall, fun _ => rfl⟩, by simp⟩
  · refine ⟨utf16Units_charBytes units, ⟨fun hc => by simp at hc, fun hall => ?_⟩,
      fun _ => length_charBytes units⟩
    exact (hl (doLatin1_iff.2 hall)).elim

variable {string : Slice} {units : List UInt16}

theorem Slice.intLen_eq (h : string.chars.length < 2 ^ 31) :
    string.intLen = string.chars.length := by
  unfold Slice.intLen
  rw [Int.bmod_def]
  split_ifs <;> omega

theorem make_short (h : string.chars.length < 2 ^ 31) :
    makeJstringModifiedUtf8 string = .of (modifiedUtf8String string.chars) := by
  rw [makeJstringModifiedUtf8, Slice.intLen_eq h, Int.toNat_natCast, List.take_length]

/-- A slice that is too long becomes the empty string. -/
theorem make_long (h : 2 ^ 31 ≤ string.chars.length) :
    makeJstringModifiedUtf8 string
      = .string { value := [], coder := .latin1, even := by simp } := by
  have hneg : string.intLen.toNat = 0 := by
    have hlt := string.len_lt
    unfold Slice.intLen
    rw [Int.bmod_def]
    split_ifs <;> omega
  rw [makeJstringModifiedUtf8, hneg, List.take_zero]
  rfl

theorem make_uncuttable (h : string.chars.length < 2 ^ 31) (hcut : Uncuttable string.chars) :
    makeJstringModifiedUtf8 string = .null := by
  rw [make_short h, modifiedUtf8String, hcut.convert]
  rfl

theorem make_units (h : string.chars.length < 2 ^ 31)
    (hunits : convertModifiedUtf8ToChars string.chars = some units)
    (hsize : (∀ u ∈ units, u.toNat < 256) ∨ units.length < 2 ^ 30) :
    ∃ s, makeJstringModifiedUtf8 string = .string s ∧ s.units = units ∧
      (s.coder = .latin1 ↔ ∀ u ∈ units, u.toNat < 256) := by
  obtain ⟨s, hs, hsu, hcoder, hlen⟩ := modifiedUtf8String_some hunits
  refine ⟨s, ?_, hsu, hcoder⟩
  rw [make_short h, hs, MadeString.of, if_neg]
  rintro ⟨hutf16, hlong⟩
  rw [hlen hutf16] at hlong
  rcases hsize with hall | hshort
  · rw [hcoder.2 hall] at hutf16
    cases hutf16
  · omega

theorem make_overrun (h : string.chars.length < 2 ^ 31)
    (hunits : convertModifiedUtf8ToChars string.chars = some units)
    (hwide : ¬∀ u ∈ units, u.toNat < 256) (hlong : 2 ^ 30 ≤ units.length) :
    makeJstringModifiedUtf8 string = .overrun := by
  obtain ⟨s, hs, -, hcoder, hlen⟩ := modifiedUtf8String_some hunits
  have hutf16 : s.coder = .utf16 := by
    cases hc : s.coder with
    | utf16 => rfl
    | latin1 => exact (hwide (hcoder.1 hc)).elim
  rw [make_short h, hs, MadeString.of, if_pos ⟨hutf16, by rw [hlen hutf16]; omega⟩]

/-- A slice is decoded or rejected as it should be when its length is an `int` and it is an
encoding, of a string that an array has room for, or cannot be cut into characters. -/
theorem decodesExactly_iff (string : Slice) :
    DecodesExactly string ↔ string.chars.length < 2 ^ 31 ∧ (Uncuttable string.chars ∨
      ∃ units, string.chars = modifiedUtf8 units ∧
        ((∀ u ∈ units, u.toNat < 256) ∨ units.length < 2 ^ 30)) := by
  constructor
  · intro h
    have hint : string.chars.length < 2 ^ 31 := by
      by_contra hlong
      rw [not_lt] at hlong
      by_cases hex : ∃ units, string.chars = modifiedUtf8 units
      · obtain ⟨units, hunits⟩ := hex
        obtain ⟨s, hs, hsu, -⟩ := h.decoded units hunits
        rw [make_long hlong, MadeString.string.injEq] at hs
        rw [← hs] at hsu
        have hnil : units = [] := hsu.symm
        rw [hunits, hnil] at hlong
        simp [modifiedUtf8] at hlong
      · have hnull := h.rejected hex
        rw [make_long hlong] at hnull
        cases hnull
    refine ⟨hint, ?_⟩
    cases hconv : convertModifiedUtf8ToChars string.chars with
    | none => exact .inl (uncuttable_of_convert hconv)
    | some units =>
      right
      by_cases hex : ∃ units, string.chars = modifiedUtf8 units
      · obtain ⟨units', hunits⟩ := hex
        refine ⟨units', hunits, ?_⟩
        have hconv' : convertModifiedUtf8ToChars string.chars = some units' := by
          rw [hunits, convert_modifiedUtf8]
        by_contra hcon
        rw [not_or, not_lt] at hcon
        obtain ⟨s, hs, -⟩ := h.decoded units' hunits
        rw [make_overrun hint hconv' hcon.1 hcon.2] at hs
        cases hs
      · have hnull := h.rejected hex
        obtain ⟨s, hs, -⟩ := modifiedUtf8String_some hconv
        rw [make_short hint, hs, MadeString.of] at hnull
        split_ifs at hnull
  · rintro ⟨hint, hcut | ⟨units, hunits, hsize⟩⟩
    · refine ⟨fun units hunits => ?_, fun _ => make_uncuttable hint hcut⟩
      have hconv := hcut.convert
      rw [hunits, convert_modifiedUtf8] at hconv
      cases hconv
    · refine ⟨fun units' hunits' => ?_, fun hno => (hno ⟨units, hunits⟩).elim⟩
      have hconv : convertModifiedUtf8ToChars string.chars = some units := by
        rw [hunits, convert_modifiedUtf8]
      have hsame : units' = units := by
        have hconv' := convert_modifiedUtf8 units'
        rw [← hunits', hconv, Option.some.injEq] at hconv'
        exact hconv'.symm
      rw [hsame]
      exact make_units hint hconv hsize

/-- What is behind a zero byte is dropped. -/
theorem truncated_not_decodesExactly :
    ¬DecodesExactly { chars := [0x41, 0x00, 0x42], len_lt := by decide } := by
  rintro ⟨-, hrejected⟩
  have hnull := hrejected (by
    rintro ⟨units, hunits⟩
    have hconv := convert_modifiedUtf8 units
    rw [← hunits] at hconv
    have hsame : units = [0x41] := by
      rw [← Option.some.injEq, ← hconv]
      rfl
    rw [hsame] at hunits
    revert hunits
    decide)
  revert hnull
  decide

end BJvm.Strings
