import BJvm.Natives.ClassNames

/-!
# Names that fit

None of the routines looks at the length of a name, and the parser takes names of up to 65535 bytes.
`bprintf` cuts a name that is too long, but its length is that of the whole name.
-/

namespace BJvm.ClassNames

open CBuffers StackString
open ClassFile (Chars)

variable {name : Chars} {dchecks : Bool} {incr : Option Nat}

/-! ### Copies -/

theorem bootstrapFilename_iff :
    bootstrapFilename name = some (name ++ cfEnding) ↔ name.length ≤ 1001 := by
  have hending : cfEnding.length = 6 := rfl
  have hbuffer : (List.replicate (maxCfNameLength + 6 + 1) (0 : UInt8)).length = 1007 :=
    List.length_replicate
  simp only [bootstrapFilename, initStackString, Nat.zero_add, Option.bind_eq_bind]
  constructor
  · intro h
    by_contra hlong
    rcases hfirst : write (List.replicate (maxCfNameLength + 6 + 1) 0) 0 name with _ | b₁
    · rw [hfirst] at h
      cases h
    · have hlength := length_write hfirst
      have hsecond : write b₁ name.length cfEnding = none := write_eq_none (by decide) (by omega)
      rw [hfirst, Option.bind_some, hsecond] at h
      cases h
  · intro hle
    have hfirst : name.length ≤ (List.replicate (maxCfNameLength + 6 + 1) (0 : UInt8)).length := by
      omega
    obtain ⟨b₁, h₁, hlength₁, htake₁⟩ := write_start hfirst
    have hsecond : name.length + cfEnding.length ≤ b₁.length := by omega
    obtain ⟨b₂, h₂, hlength₂, htake₂⟩ := write_fits hsecond
    have hread : name.length + cfEnding.length ≤ b₂.length := by omega
    rw [h₁, Option.bind_some, h₂, Option.bind_some, Slice.chars, read_zero hread, htake₂, htake₁]

theorem length_exchangeSlashesAndDots (name : Chars) :
    (exchangeSlashesAndDots name).length = name.length :=
  List.length_map ..

theorem exchangeInto_fits {buffer : Chars} {len : Nat} (hbuffer : name.length ≤ buffer.length)
    (hdchecks : ¬(dchecks ∧ len < name.length)) :
    ∃ buffer', exchangeInto dchecks buffer ⟨0, len⟩ name = some (buffer', ⟨0, name.length⟩) ∧
      buffer'.length = buffer.length ∧ buffer'.take name.length = exchangeSlashesAndDots name := by
  obtain ⟨b₁, h₁, hlength₁, htake₁⟩ := write_start hbuffer
  have hread : name.length ≤ b₁.length := by omega
  have hsecond : (exchangeSlashesAndDots name).length ≤ b₁.length := by
    rwa [length_exchangeSlashesAndDots]
  obtain ⟨b₂, h₂, hlength₂, htake₂⟩ := write_start hsecond
  rw [length_exchangeSlashesAndDots] at htake₂
  refine ⟨b₂, ?_, by omega, htake₂⟩
  simp only [exchangeInto, hdchecks, if_false, h₁, Option.bind_eq_bind, Option.bind_some,
    read_zero hread, htake₁, h₂]
  rfl

theorem exchangeInto_eq_none {buffer : Chars} {len : Nat}
    (h : (dchecks ∧ len < name.length) ∨ buffer.length < name.length) :
    exchangeInto dchecks buffer ⟨0, len⟩ name = none := by
  rw [exchangeInto]
  split_ifs with hdchecks
  · rfl
  · rw [write_start_eq_none (h.resolve_left hdchecks)]
    rfl

theorem loadClassName_iff : loadClassName dchecks name = some (exchangeSlashesAndDots name) ↔
    name.length ≤ if dchecks then 1024 else 1025 := by
  have hbuffer : (initStackString 1024).1.length = 1025 := List.length_replicate
  have hrun : loadClassName dchecks name =
      (exchangeInto dchecks (initStackString 1024).1 ⟨0, 1024⟩ name).bind fun p => p.2.chars p.1 :=
    rfl
  have hfits : name.length ≤ (if dchecks then 1024 else 1025) ↔
      name.length ≤ 1025 ∧ ¬(dchecks ∧ 1024 < name.length) := by
    cases dchecks
    · simp
    · simp
      omega
  rw [hrun, hfits]
  by_cases h : name.length ≤ 1025 ∧ ¬(dchecks ∧ 1024 < name.length)
  · obtain ⟨b, hb, hlength, htake⟩ := exchangeInto_fits (hbuffer ▸ h.1) h.2
    have hread : name.length ≤ b.length := by omega
    rw [hb, Option.bind_some, Slice.chars, read_zero hread, htake]
    exact iff_of_true rfl h
  · have hnone : (dchecks ∧ 1024 < name.length) ∨ (initStackString 1024).1.length < name.length := by
      rw [hbuffer]
      by_cases hlong : name.length ≤ 1025
      · exact .inl (not_and_not_right.mp h hlong)
      · exact .inr (not_le.mp hlong)
    rw [exchangeInto_eq_none hnone]
    exact iff_of_false (Option.some_ne_none _).symm h

/-! ### Printed names -/

theorem zero_notMem_decimal (n : Nat) : 0 ∉ decimal n := fun h => by
  obtain ⟨c, hc, hzero⟩ := List.mem_map.mp h
  have hdigit := Nat.isDigit_of_mem_toDigits (by decide) (by decide) hc
  simp only [Char.isDigit, Bool.and_eq_true, decide_eq_true_eq, ge_iff_le,
    UInt32.le_iff_toNat_le] at hdigit
  have hnat := congrArg UInt8.toNat hzero
  simp only [Char.toUInt8, UInt32.toNat_toUInt8] at hnat
  simp at hnat hdigit
  omega

theorem zero_notMem_hiddenSuffix (incr : Option Nat) : 0 ∉ hiddenSuffix incr := by
  cases incr with
  | none => exact List.not_mem_nil
  | some incr =>
    exact List.not_mem_cons_of_ne_of_not_mem (by decide) (zero_notMem_decimal incr)

theorem replace_eq_zero_iff {a b c : UInt8} (ha : a ≠ 0) (hb : b ≠ 0) :
    (if c = a then b else c) = 0 ↔ c = 0 := by
  split_ifs with h
  · exact iff_of_false hb (h ▸ ha)
  · rfl

theorem replaceDots_zero_iff : 0 ∈ replaceDots name ↔ 0 ∈ name := by
  rw [replaceDots, List.mem_map]
  simp only [replace_eq_zero_iff (show '.'.toUInt8 ≠ 0 by decide) (show '/'.toUInt8 ≠ 0 by decide),
    exists_eq_right]

theorem defineClassName_iff : defineClassName incr name = some (replaceDots name ++ hiddenSuffix incr) ↔
    (name ++ hiddenSuffix incr).length ≤ 1000 ∧ 0 ∉ name := by
  have hlength : (replaceDots name).length = name.length := List.length_map ..
  have hcut := length_cstr_le (replaceDots name)
  have hrun : defineClassName incr name = (bprintf (initStackString 1000).1 (initStackString 1000).2
      (cstr (replaceDots name) ++ hiddenSuffix incr)).bind fun p => p.2.chars p.1 := rfl
  rw [hrun, bprintf_new_chars_iff (by decide)]
  · rw [List.append_left_inj, cstr_eq_self_iff, replaceDots_zero_iff]
    refine and_congr_left fun hzero => ?_
    rw [← replaceDots_zero_iff, ← cstr_eq_self_iff] at hzero
    rw [hzero, List.length_append, hlength, List.length_append]
  · simp only [List.length_append]
    omega
  · simp only [List.length_append]
    intro heq
    have hzero := cstr_eq_self_iff.mp (cstr_eq_self_of_length (show (replaceDots name).length ≤
      (cstr (replaceDots name)).length by omega))
    exact fun h => (List.mem_append.mp h).elim hzero (zero_notMem_hiddenSuffix incr)

/-- The replacement does not hide where zeros are in place of the name. -/
theorem replaceSlashes_append_eq_iff {front rest : Chars} :
    replaceSlashes (front ++ List.replicate rest.length 0) = replaceSlashes (front ++ rest) ↔
      ∀ b ∈ rest, b = 0 := by
  rw [replaceSlashes, replaceSlashes, List.map_append, List.map_append, List.append_right_inj,
    List.map_replicate, eq_comm, List.eq_replicate_iff, List.length_map, and_iff_right rfl,
    List.forall_mem_map, if_neg (by decide)]
  simp only [replace_eq_zero_iff (show '/'.toUInt8 ≠ 0 by decide) (show '.'.toUInt8 ≠ 0 by decide)]

theorem initClassName_eq (name : Chars) : initClassName name =
    if name.length ≤ 1001 then
      some (replaceSlashes (((cstr name).take 1000 ++
        List.replicate (1001 - ((cstr name).take 1000).length) 0).take name.length))
    else none := by
  have hnew : bprintf (initStackString 1000).1 (initStackString 1000).2 (cstr name) = _ :=
    bprintf_new (by decide) _
  simp only [initClassName, hnew, Option.bind_eq_bind, Option.bind_some]
  generalize hprinted : (cstr name).take 1000 ++
    List.replicate (1000 + 1 - ((cstr name).take 1000).length) (0 : UInt8) = buffer
  have hbuffer : buffer.length = 1001 := by
    rw [← hprinted]
    simp only [List.length_append, List.length_take, List.length_replicate]
    omega
  have hoffset : (initStackString 1000).2.offset = 0 := rfl
  rw [hoffset]
  split_ifs with hle
  · have hlength : (replaceSlashes (buffer.take name.length)).length = name.length := by
      rw [replaceSlashes, List.length_map, List.length_take]
      omega
    have hfits : (replaceSlashes (buffer.take name.length)).length ≤ buffer.length := by omega
    obtain ⟨b, hb, hblength, htake⟩ := write_start hfits
    rw [hlength] at htake
    have hread : name.length ≤ b.length := by omega
    rw [read_zero (by omega), Option.bind_some, hb, Option.bind_some, Slice.chars, read_zero hread,
      htake]
  · rw [CBuffers.read, if_neg (by omega)]
    rfl

/-- Nothing but zeros may be behind what has been printed. -/
theorem initClassName_iff : initClassName name = some (replaceSlashes name) ↔
    name.length ≤ 1001 ∧ (cstr name).length ≤ 1000 ∧ ∀ b ∈ name.drop (cstr name).length, b = 0 := by
  rw [initClassName_eq]
  split_ifs with hle
  · rw [and_iff_right hle, Option.some.injEq]
    have hcut : ((cstr name).take 1000).length ≤ 1000 := by
      rw [List.length_take]
      exact Nat.min_le_left _ _
    have hfront : (cstr name).take 1000 <+: name := (List.take_prefix _ _).trans (cstr_isPrefix name)
    generalize hprinted : (cstr name).take 1000 = front at *
    obtain ⟨rest, rfl⟩ := hfront
    have hprint : (front ++ List.replicate (1001 - front.length) (0 : UInt8)).take
        (front ++ rest).length = front ++ List.replicate rest.length 0 := by
      rw [List.length_append] at hle ⊢
      rw [List.take_length_add_append, List.take_replicate, Nat.min_eq_left (by omega)]
    rw [hprint, replaceSlashes_append_eq_iff]
    by_cases hcstr : (cstr (front ++ rest)).length ≤ 1000
    · rw [List.take_of_length_le hcstr] at hprinted
      rw [and_iff_right hcstr, hprinted, List.drop_left]
    · refine iff_of_false (fun hzeros => ?_) fun h => hcstr h.1
      -- a byte that is not zero has been cut off
      obtain ⟨tail, htail⟩ := cstr_isPrefix (front ++ rest)
      have hwhole := List.take_append_drop 1000 (cstr (front ++ rest))
      rw [hprinted] at hwhole
      obtain ⟨b, hb⟩ := List.exists_mem_of_length_pos
        (show 0 < ((cstr (front ++ rest)).drop 1000).length by rw [List.length_drop]; omega)
      have hrest : rest = (cstr (front ++ rest)).drop 1000 ++ tail := by
        refine (List.append_right_inj front).mp ?_
        rw [← List.append_assoc, hwhole, htail]
      have hmem : b ∈ rest := by
        rw [hrest]
        exact List.mem_append_left _ hb
      exact zero_notMem_cstr _ (hzeros b hmem ▸ List.mem_of_mem_drop hb)
  · exact iff_of_false (fun h => nomatch h) fun h => hle h.1

/-- A routine goes on with the complete name just when it fits. -/
theorem names_fit_iff (dchecks : Bool) (routine : NameRoutine) (name : Chars) :
    routine.run dchecks name = some (routine.complete name) ↔ routine.Fits dchecks name := by
  cases routine with
  | bootstrapLoadClassFromFs => exact bootstrapFilename_iff
  | lookupClass => exact loadClassName_iff
  | initClassName => exact initClassName_iff
  | defineClassSharedImpl incr => exact defineClassName_iff

/-- A name that the parser takes. -/
def longName : Chars := List.replicate 1100 'a'.toUInt8

/-- The loop of `Class.initClassName` leaves the buffer, and so does the name of a class that is defined. -/
theorem longName_overruns : longName.length ≤ 65535 ∧
    NameRoutine.initClassName.run false longName = none ∧
    (NameRoutine.defineClassSharedImpl none).run false longName ≠
      some ((NameRoutine.defineClassSharedImpl none).complete longName) := by
  have hlength : longName.length = 1100 := List.length_replicate
  refine ⟨by omega, ?_, fun h => ?_⟩
  · show initClassName longName = none
    rw [initClassName_eq, if_neg (by omega)]
  · have hfits := (defineClassName_iff.mp h).1
    rw [hiddenSuffix, Option.elim_none, List.append_nil] at hfits
    omega

end BJvm.ClassNames
