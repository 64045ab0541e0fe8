import BJvm.Proofs.Interning
import BJvm.Proofs.ModifiedUtf8

/-!
# Reading strings as UTF-8

The array of a string is copied as it is.  An ASCII byte in it counts one and any other takes one
off: by that count, UTF-8 never comes to what UTF-16 does, unless all of it is pairs of surrogates,
and those are told apart by the second byte.
-/

namespace BJvm.Strings

/-- Twice the number of the ASCII bytes, less the number of all. -/
def score : List UInt8 → Int
  | [] => 0
  | b :: bytes => (if b.toNat < 0x80 then 1 else -1) + score bytes

theorem score_append : ∀ bytes bytes' : List UInt8,
    score (bytes ++ bytes') = score bytes + score bytes'
  | [], bytes' => by simp [score]
  | b :: bytes, bytes' => by rw [List.cons_append, score, score, score_append bytes]; omega

/-! ### The UTF-8 of one character -/

theorem toNat_ofNat {n : Nat} (h : n.isValidChar) : (Char.ofNat n).val.toNat = n := by
  rw [Char.ofNat, dif_pos h]
  rfl

theorem utf8_one {n : Nat} (h : n < 0x80) : String.utf8EncodeChar (.ofNat n) = [.ofNat n] := by
  rw [String.utf8EncodeChar, toNat_ofNat (.inl (by omega))]
  rw [if_pos (by omega)]

theorem utf8_two {n : Nat} (h : 0x80 ≤ n) (h' : n < 0x800) :
    String.utf8EncodeChar (.ofNat n) = [.ofNat (n / 64 % 32 + 0xC0), .ofNat (n % 64 + 0x80)] := by
  rw [String.utf8EncodeChar, toNat_ofNat (.inl (by omega))]
  rw [if_neg (by omega), if_pos (by omega)]

theorem utf8_three {n : Nat} (h : 0x800 ≤ n) (h' : n < 0x10000) (hn : n < 0xD800 ∨ 0xE000 ≤ n) :
    String.utf8EncodeChar (.ofNat n) =
      [.ofNat (n / 4096 % 16 + 0xE0), .ofNat (n / 64 % 64 + 0x80), .ofNat (n % 64 + 0x80)] := by
  rw [String.utf8EncodeChar, toNat_ofNat (by unfold Nat.isValidChar; omega)]
  rw [if_neg (by omega), if_neg (by omega), if_pos (by omega)]

theorem utf8_four {n : Nat} (h : 0x10000 ≤ n) (h' : n < 0x110000) :
    String.utf8EncodeChar (.ofNat n) =
      [.ofNat (n / 262144 % 8 + 0xF0), .ofNat (n / 4096 % 64 + 0x80), .ofNat (n / 64 % 64 + 0x80),
        .ofNat (n % 64 + 0x80)] := by
  rw [String.utf8EncodeChar, toNat_ofNat (by unfold Nat.isValidChar; omega)]
  rw [if_neg (by omega), if_neg (by omega), if_neg (by omega)]

/-! ### Strings in UTF-16 -/

theorem charBytes_cons (u : UInt16) (units : List UInt16) :
    charBytes (u :: units) = u.toUInt8 :: (u >>> 8).toUInt8 :: charBytes units := rfl

theorem score_unit {u : UInt16} (hh : ¬HighSurrogate u) (hl : ¬LowSurrogate u) :
    score (String.utf8EncodeChar (.ofNat u.toNat)) < score [u.toUInt8, (u >>> 8).toUInt8] := by
  have hu : u.toNat < 65536 := u.toNat_lt
  unfold HighSurrogate at hh
  unfold LowSurrogate at hl
  have hlo : u.toUInt8.toNat = u.toNat % 256 := by simp
  have hhi : (u >>> 8).toUInt8.toNat = u.toNat / 256 := by
    simp [Nat.shiftRight_eq_div_pow]
    omega
  simp only [score, hlo, hhi]
  rcases (by omega : u.toNat < 0x80 ∨ (0x80 ≤ u.toNat ∧ u.toNat < 0x800) ∨ 0x800 ≤ u.toNat)
    with h1 | h2 | h3
  · rw [utf8_one h1]
    simp only [score, UInt8.toNat_ofNat']
    split_ifs <;> omega
  · rw [utf8_two h2.1 h2.2]
    simp only [score, UInt8.toNat_ofNat']
    split_ifs <;> omega
  · rw [utf8_three h3 hu (by omega)]
    simp only [score, UInt8.toNat_ofNat']
    split_ifs <;> omega

theorem score_pair {u l : UInt16} (hh : HighSurrogate u) (hl : LowSurrogate l) :
    score (String.utf8EncodeChar
        (.ofNat (0x10000 + (u.toNat - 0xD800) * 0x400 + (l.toNat - 0xDC00))))
      ≤ score [u.toUInt8, (u >>> 8).toUInt8, l.toUInt8, (l >>> 8).toUInt8] := by
  unfold HighSurrogate at hh
  unfold LowSurrogate at hl
  rw [utf8_four (by omega) (by omega)]
  simp only [score, UInt8.toNat_ofNat']
  split_ifs <;> omega

/-- UTF-8 does not come to more than UTF-16, and to less if there is any other character than a
supplementary one in front. -/
theorem score_utf8 : ∀ {units : List UInt16} {chars : List Char}, characters units = some chars →
    score (chars.flatMap String.utf8EncodeChar) ≤ score (charBytes units) ∧
      ∀ u rest, units = u :: rest → ¬HighSurrogate u →
        score (chars.flatMap String.utf8EncodeChar) < score (charBytes units)
  | [], chars, h => by
    cases h
    exact ⟨le_rfl, fun u rest hu => by cases hu⟩
  | u :: rest, chars, h => by
    rw [characters.eq_def] at h
    dsimp only at h
    split_ifs at h with hh hl
    · match rest with
      | [] => cases h
      | l :: rest =>
        dsimp only at h
        split_ifs at h with hl
        rw [Option.map_eq_some_iff] at h
        obtain ⟨tail, htail, rfl⟩ := h
        have hpair := score_pair hh hl
        have hrest := (score_utf8 htail).1
        rw [List.flatMap_cons, score_append, charBytes_cons, charBytes_cons,
          show u.toUInt8 :: (u >>> 8).toUInt8 :: l.toUInt8 :: (l >>> 8).toUInt8 :: charBytes rest
            = [u.toUInt8, (u >>> 8).toUInt8, l.toUInt8, (l >>> 8).toUInt8] ++ charBytes rest
              from rfl,
          score_append]
        refine ⟨by omega, ?_⟩
        rintro _ _ ⟨⟩ hno
        exact (hno hh).elim
    · rw [Option.map_eq_some_iff] at h
      obtain ⟨tail, htail, rfl⟩ := h
      have hunit := score_unit hh hl
      have hrest := (score_utf8 htail).1
      rw [List.flatMap_cons, score_append, charBytes_cons,
        show u.toUInt8 :: (u >>> 8).toUInt8 :: charBytes rest
          = [u.toUInt8, (u >>> 8).toUInt8] ++ charBytes rest from rfl, score_append]
      exact ⟨by omega, fun _ _ _ _ => by omega⟩

/-- The UTF-16 of a string is not its UTF-8. -/
theorem charBytes_ne_utf8 {units : List UInt16} (hne : units ≠ []) :
    utf8 units ≠ some (charBytes units) := by
  intro h
  rw [utf8, Option.map_eq_some_iff] at h
  obtain ⟨chars, hchars, hbytes⟩ := h
  obtain ⟨u, rest, rfl⟩ := List.exists_cons_of_ne_nil hne
  by_cases hh : HighSurrogate u
  · rw [characters.eq_def] at hchars
    dsimp only at hchars
    rw [if_pos hh] at hchars
    match rest with
    | [] => cases hchars
    | l :: rest =>
      dsimp only at hchars
      split_ifs at hchars with hl
      rw [Option.map_eq_some_iff] at hchars
      obtain ⟨tail, -, rfl⟩ := hchars
      unfold HighSurrogate at hh
      unfold LowSurrogate at hl
      rw [List.flatMap_cons, utf8_four (by omega) (by omega), charBytes_cons] at hbytes
      have hsecond := congrArg (fun bytes => (bytes.getD 1 0).toNat) hbytes
      simp [Nat.shiftRight_eq_div_pow] at hsecond
      omega
  · have hlt := (score_utf8 hchars).2 u rest rfl hh
    rw [hbytes] at hlt
    exact lt_irrefl _ hlt

theorem value_utf16 {s : NativeString} (h : s.coder = .utf16) : s.value = charBytes s.units := by
  refine utf16Units_inj (s.even h) (by rw [length_charBytes]; omega) ?_
  rw [utf16Units_charBytes, units_utf16 h]

/-! ### Strings in Latin-1 -/

theorem notSurrogate_of_lt {u : UInt16} (h : u.toNat < 256) :
    ¬HighSurrogate u ∧ ¬LowSurrogate u := by
  unfold HighSurrogate LowSurrogate
  omega

theorem characters_cons {u : UInt16} {units : List UInt16} (hh : ¬HighSurrogate u)
    (hl : ¬LowSurrogate u) :
    characters (u :: units) = (characters units).map (.ofNat u.toNat :: ·) := by
  rw [characters.eq_def]
  dsimp only
  rw [if_neg hh, if_neg hl]

theorem characters_latin1 : ∀ bytes : List UInt8, ∃ chars,
    characters (bytes.map UInt8.toUInt16) = some chars ∧
      (chars.flatMap String.utf8EncodeChar = bytes ↔ ∀ b ∈ bytes, b.toNat < 0x80) ∧
      bytes.length ≤ (chars.flatMap String.utf8EncodeChar).length
  | [] => ⟨[], rfl, by simp, by simp⟩
  | b :: bytes => by
    obtain ⟨chars, hchars, hiff, hlen⟩ := characters_latin1 bytes
    have hb : b.toUInt16.toNat = b.toNat := by simp
    have hlt : b.toNat < 256 := b.toNat_lt
    obtain ⟨hh, hl⟩ := notSurrogate_of_lt (by rw [hb]; exact hlt : b.toUInt16.toNat < 256)
    refine ⟨.ofNat b.toNat :: chars, ?_, ?_, ?_⟩
    · rw [List.map_cons, characters_cons hh hl, hchars, hb, Option.map_some]
    · rw [List.flatMap_cons, List.forall_mem_cons, ← hiff]
      by_cases hascii : b.toNat < 0x80
      · rw [utf8_one hascii, UInt8.ofNat_toNat, List.singleton_append, List.cons.injEq]
        simp [hascii]
      · -- two bytes for one
        rw [utf8_two (by omega) (by omega)]
        refine ⟨fun h => ?_, fun h => (hascii h.1).elim⟩
        have hlong := congrArg List.length h
        simp only [List.length_append, List.length_cons, List.length_nil] at hlong
        omega
    · rw [List.flatMap_cons, List.length_append, List.length_cons]
      have hpos : 0 < (String.utf8EncodeChar (.ofNat b.toNat)).length :=
        List.length_pos_iff.2 String.utf8EncodeChar_ne_nil
      omega

theorem modifiedUtf8_ascii : ∀ {bytes : List UInt8}, (∀ b ∈ bytes, b.toNat < 0x80) →
    (∀ u ∈ bytes.map UInt8.toUInt16, u ≠ 0) → modifiedUtf8 (bytes.map UInt8.toUInt16) = bytes
  | [], _, _ => rfl
  | b :: bytes, hascii, hnul => by
    rw [List.forall_mem_cons] at hascii
    rw [List.map_cons, List.forall_mem_cons] at hnul
    have hb : b.toUInt16.toNat = b.toNat := by simp
    have hpos : b.toUInt16.toNat ≠ 0 := fun h0 => hnul.1 (UInt16.toNat_inj.1 h0)
    have hrest := modifiedUtf8_ascii hascii.2 hnul.2
    rw [modifiedUtf8] at hrest ⊢
    rw [List.map_cons, List.flatMap_cons, hrest, encodeUnit, hb,
      if_pos (by omega), UInt8.ofNat_toNat, List.singleton_append]

/-! ### Any string -/

theorem characters_ne_none : ∀ {units : List UInt16},
    (∀ u ∈ units, u ≠ 0 ∧ ¬HighSurrogate u ∧ ¬LowSurrogate u) → characters units ≠ none
  | [], _ => by simp [characters]
  | u :: units, h => by
    rw [List.forall_mem_cons] at h
    rw [characters_cons h.1.2.1 h.1.2.2, Ne, Option.map_eq_none_iff]
    exact characters_ne_none h.2

/-- A string comes out in UTF-8, and comes back, when it is empty or ASCII in Latin-1, or has no
UTF-8. -/
theorem readsUtf8_iff (obj : JavaString) :
    ReadsUtf8 obj ↔ utf8 obj.units = none ∨
      (obj.coder = .latin1 ∧ ∀ b ∈ obj.value, b.toNat < 0x80) ∨ obj.value = [] := by
  constructor
  · rintro ⟨hread, -⟩
    cases hutf8 : utf8 obj.units with
    | none => exact .inl rfl
    | some bytes =>
      have hvalue : obj.value = bytes := hread bytes hutf8
      right
      cases hc : obj.coder with
      | latin1 =>
        obtain ⟨chars, hchars, hiff, -⟩ := characters_latin1 obj.value
        rw [utf8, units_latin1 hc, hchars, Option.map_some, Option.some.injEq, ← hvalue] at hutf8
        exact .inl ⟨rfl, hiff.1 hutf8⟩
      | utf16 =>
        right
        by_contra hne
        refine charBytes_ne_utf8 (mt (units_eq_nil_iff _).1 hne) ?_
        rw [hutf8, ← hvalue, value_utf16 hc]
  · rintro (hnone | ⟨hc, hascii⟩ | hnil)
    · refine ⟨fun bytes hbytes => ?_, fun hplain => ?_⟩
      · rw [hnone] at hbytes
        cases hbytes
      · rw [utf8, Option.map_eq_none_iff] at hnone
        exact (characters_ne_none hplain hnone).elim
    · have hunits := units_latin1 hc
      refine ⟨fun bytes hbytes => ?_, fun hplain => ?_⟩
      · obtain ⟨chars, hchars, hiff, -⟩ := characters_latin1 obj.value
        rw [utf8, hunits, hchars, Option.map_some, Option.some.injEq, hiff.2 hascii] at hbytes
        exact hbytes
      · rw [hunits] at hplain
        have hconv : convertModifiedUtf8ToChars obj.value = some obj.units := by
          have h := convert_modifiedUtf8 (obj.value.map UInt8.toUInt16)
          rwa [modifiedUtf8_ascii hascii fun u hu => (hplain u hu).1, ← hunits] at h
        obtain ⟨s, hs, hsu, -⟩ := @make_units (readStringToUtf8 obj) _ obj.length_lt hconv
          (.inl fun u hu => by
            rw [hunits, List.mem_map] at hu
            obtain ⟨b, -, rfl⟩ := hu
            simp [b.toNat_lt])
        exact ⟨s, hs, hsu⟩
    · have hunits : obj.units = [] := (units_eq_nil_iff _).2 hnil
      refine ⟨fun bytes hbytes => ?_, fun _ => ?_⟩
      · rw [hunits] at hbytes
        cases hbytes
        exact hnil
      · obtain ⟨s, hs, hsu, -⟩ := @make_units (readStringToUtf8 obj) [] obj.length_lt
          (by rw [show (readStringToUtf8 obj).chars = [] from hnil]; rfl) (.inl (by simp))
        exact ⟨s, hs, hsu.trans hunits.symm⟩

/-- One accented letter. -/
theorem accented_not_readsUtf8 :
    ¬ReadsUtf8 { value := [0xE9], coder := .latin1, even := by simp, length_lt := by simp } := by
  rintro ⟨hread, -⟩
  have hbytes := hread [0xC3, 0xA9] (by decide)
  revert hbytes
  decide

end BJvm.Strings
