import BJvm.Natives.MethodTypes
import BJvm.Proofs.Descriptors
import BJvm.Proofs.Vtable

/-!
# What method types unparse to

The pieces of the descriptor are printed one behind the other as long as they fit.  The one that does
not takes the cursor behind the buffer, where nothing can be printed any more.
-/

namespace BJvm.MethodTypes

open CBuffers StackString ClassFile
open ClassNames (maxCfNameLength)

variable {dchecks : Bool} {text complete J : Chars} {ts : List Chars} {s s' : Chars × Slice}
  {n : Nat}

/-! ### Pieces -/

/-- Prints the pieces one behind the other. -/
def printAll (dchecks : Bool) : List Chars → Chars × Slice → Option (Chars × Slice)
  | [], s => some s
  | t :: ts, s => (advance dchecks s.2 (bprintf s.1 s.2 t)).bind (printAll dchecks ts)

/-- The buffer begins with what has been printed, and the slice is the rest of it. -/
structure Printed (J : Chars) (s : Chars × Slice) : Prop where
  length : s.1.length = 10001
  fits : J.length ≤ 10000
  slice : s.2 = ⟨J.length, 10000 - J.length⟩
  front : s.1.take J.length = J

theorem Printed.next (dchecks : Bool) (h : Printed J s) (hfits : J.length + text.length ≤ 10000) :
    ∃ s', advance dchecks s.2 (bprintf s.1 s.2 text) = some s' ∧ Printed (J ++ text) s' := by
  obtain ⟨buffer, str⟩ := s
  obtain ⟨hlength, hJ, rfl, hfront⟩ := h
  dsimp only at hlength hfront ⊢
  have hbuffer : buffer.length = J.length + (10000 - J.length + 1) := by omega
  obtain ⟨buffer', hprint, hlength', htake⟩ :=
    vsnprintf_fits hbuffer (show text.length < 10000 - J.length + 1 by omega)
  refine ⟨(buffer', ⟨J.length + text.length, 10000 - (J.length + text.length)⟩), ?_, ?_⟩
  · have hsize : (10000 - J.length + 1) % 2 ^ 32 = 10000 - J.length + 1 := by omega
    have htext : text.length % 2 ^ 32 = text.length := by omega
    have hlen : (10000 - J.length + (2 ^ 32 - text.length)) % 2 ^ 32 =
        10000 - (J.length + text.length) := by omega
    have hdchecks : ¬(dchecks = true ∧ 10000 - J.length < text.length) := by omega
    simp only [advance, bprintf, subslice, hsize, hprint, Option.map_some, htext,
      Option.bind_eq_bind, Option.bind_some, hlen, hdchecks, if_false]
    rfl
  · refine ⟨hlength'.trans hlength, by rwa [List.length_append], by rw [List.length_append], ?_⟩
    rw [List.length_append, htake, hfront]

/-- The cursor is behind the buffer, or at its end, where the zero is. -/
structure Behind (s : Chars × Slice) : Prop where
  length : s.1.length = 10001
  offset : 10001 < s.2.offset ∨ (s.2.offset = 10001 ∧ s.1.getLast? = some 0)

theorem Printed.overflow (h : Printed J s) (htext : text.length < 2 ^ 31)
    (hlong : 10000 < J.length + text.length)
    (hs : advance dchecks s.2 (bprintf s.1 s.2 text) = some s') : Behind s' := by
  obtain ⟨buffer, str⟩ := s
  obtain ⟨hlength, hJ, rfl, hfront⟩ := h
  dsimp only at hlength hs
  have hbuffer : buffer.length = J.length + (10000 - J.length + 1) := by omega
  obtain ⟨buffer', hprint, hlength', hbytes⟩ :=
    vsnprintf_cut hbuffer (Nat.succ_ne_zero _) (show 10000 - J.length + 1 ≤ text.length by omega)
  have hsize : (10000 - J.length + 1) % 2 ^ 32 = 10000 - J.length + 1 := by omega
  have hmod : text.length % 2 ^ 32 = text.length := by omega
  simp only [advance, bprintf, hsize, hprint, Option.map_some, hmod, Option.bind_eq_bind,
    Option.bind_some, subslice] at hs
  split_ifs at hs
  · cases hs
  · cases hs
    refine ⟨hlength'.trans hlength, ?_⟩
    rcases Nat.lt_or_ge 10001 (J.length + text.length) with hlt | hle
    · exact .inl hlt
    · refine .inr ⟨by show J.length + text.length = 10001; omega, ?_⟩
      rw [hbytes, ← List.append_assoc, List.getLast?_concat]

/-- Behind the buffer there is no way back. -/
theorem Behind.next (h : Behind s) (hne : text ≠ []) (htext : text.length < 2 ^ 31)
    (hs : advance dchecks s.2 (bprintf s.1 s.2 text) = some s') : Behind s' := by
  obtain ⟨buffer, str⟩ := s
  obtain ⟨hlength, hoffset⟩ := h
  dsimp only at hlength hoffset hs
  have hpos : 0 < text.length := List.length_pos_iff.mpr hne
  have hmod : text.length % 2 ^ 32 = text.length := by omega
  have hbehind : buffer.length ≤ str.offset := by omega
  rw [bprintf, vsnprintf_behind hbehind, hmod] at hs
  split_ifs at hs
  · simp only [advance, subslice, Option.map_some, Option.bind_eq_bind, Option.bind_some] at hs
    split_ifs at hs
    · cases hs
    · cases hs
      exact ⟨hlength, .inl (by show 10001 < str.offset + text.length; omega)⟩
  · cases hs

theorem Behind.run : ∀ {ts : List Chars} {s s' : Chars × Slice}, Behind s →
    (∀ t ∈ ts, t ≠ [] ∧ t.length < 2 ^ 31) → printAll dchecks ts s = some s' → Behind s'
  | [], s, s', h, _, hrun => Option.some.inj hrun ▸ h
  | t :: ts, s, s', h, hts, hrun => by
    rw [List.forall_mem_cons] at hts
    obtain ⟨s₁, hnext, hrun⟩ := Option.bind_eq_some_iff.mp hrun
    exact (h.next hts.1.1 hts.1.2 hnext).run hts.2 hrun

theorem Printed.run_fits (dchecks : Bool) : ∀ {ts : List Chars} {J : Chars} {s : Chars × Slice}, Printed J s →
    J.length + ts.flatten.length ≤ 10000 →
    ∃ s', printAll dchecks ts s = some s' ∧ Printed (J ++ ts.flatten) s'
  | [], J, s, h, _ => ⟨s, rfl, by rwa [List.flatten_nil, List.append_nil]⟩
  | t :: ts, J, s, h, hfits => by
    rw [List.flatten_cons, List.length_append] at hfits
    have hone : J.length + t.length ≤ 10000 := by omega
    obtain ⟨s₁, hnext, h₁⟩ := h.next dchecks hone
    have hrest : (J ++ t).length + ts.flatten.length ≤ 10000 := by
      rw [List.length_append]
      omega
    obtain ⟨s', hrun, h'⟩ := h₁.run_fits dchecks hrest
    refine ⟨s', by rw [printAll, hnext, Option.bind_some, hrun], ?_⟩
    rwa [List.flatten_cons, ← List.append_assoc]

theorem Printed.run_long : ∀ {ts : List Chars} {J : Chars} {s s' : Chars × Slice}, Printed J s →
    (∀ t ∈ ts, t ≠ [] ∧ t.length < 2 ^ 31) → 10000 < J.length + ts.flatten.length →
    printAll dchecks ts s = some s' → Behind s'
  | [], J, s, s', h, _, hlong, _ => by
    have hfits := h.fits
    rw [List.flatten_nil, List.length_nil] at hlong
    omega
  | t :: ts, J, s, s', h, hts, hlong, hrun => by
    rw [List.forall_mem_cons] at hts
    rw [List.flatten_cons, List.length_append] at hlong
    obtain ⟨s₁, hnext, hrun⟩ := Option.bind_eq_some_iff.mp hrun
    rcases Nat.lt_or_ge 10000 (J.length + t.length) with hover | hfits
    · exact (h.overflow hts.1.2 hover hnext).run hts.2 hrun
    · obtain ⟨s₂, hnext', h₂⟩ := h.next dchecks hfits
      obtain rfl : s₂ = s₁ := Option.some.inj (hnext'.symm.trans hnext)
      refine h₂.run_long hts.2 ?_ hrun
      rw [List.length_append]
      omega

/-- The whole buffer, up to the cursor. -/
def finish (s : Chars × Slice) : Option Chars := ({ offset := 0, len := s.2.offset } : Slice).chars s.1

theorem printed_start : Printed [] (initStackString 10000) :=
  ⟨List.length_replicate, Nat.zero_le _, rfl, rfl⟩

/-- The pieces make up a text that does not end in a zero just when they do and there is room. -/
theorem printAll_iff (hts : ∀ t ∈ ts, t ≠ [] ∧ t.length < 2 ^ 31)
    (hlast : complete.getLast? ≠ some 0) :
    (printAll dchecks ts (initStackString 10000)).bind finish = some complete ↔
      ts.flatten.length ≤ 10000 ∧ ts.flatten = complete := by
  rcases Nat.lt_or_ge 10000 ts.flatten.length with hlong | hfits
  · refine iff_of_false (fun h => ?_) fun h => absurd h.1 (Nat.not_le.mpr hlong)
    obtain ⟨s, hrun, h⟩ := Option.bind_eq_some_iff.mp h
    obtain ⟨hlength, hoffset⟩ := printed_start.run_long hts (by simpa using hlong) hrun
    obtain ⟨hle, rfl⟩ := read_zero_eq_some h
    rcases hoffset with hlt | ⟨heq, hzero⟩
    · exact absurd hle (by rw [hlength]; exact Nat.not_le.mpr hlt)
    · rw [heq, List.take_of_length_le (Nat.le_of_eq hlength)] at hlast
      exact hlast hzero
  · obtain ⟨s, hrun, hprinted⟩ := printed_start.run_fits dchecks (by simpa using hfits)
    rw [List.nil_append] at hprinted
    have hfinish : finish s = some ts.flatten := by
      have hle : s.2.offset ≤ s.1.length := by
        rw [hprinted.slice, hprinted.length]
        exact hfits.trans (by decide)
      rw [finish, Slice.chars, read_zero hle, hprinted.slice, hprinted.front]
    rw [hrun, Option.bind_some, hfinish, and_iff_right hfits, Option.some.injEq]

/-! ### Names of classes -/

theorem typeKindToChar_ne_zero (kind : TypeKind) : typeKindToChar kind ≠ 0 := by
  cases kind <;> decide

/-- The name has what fits of the text, as C sees it. -/
theorem nameOfArray_some (hzero : 0 ∉ text) (hsize : text.length < 2 ^ 32)
    (h : nameOfArray text = some complete) :
    cstr complete = text.take 1256 ∧ (text.length ≤ 1256 → complete = text) := by
  have hrun : nameOfArray text = (bprintf (initStackString 1256).1 (initStackString 1256).2 text).bind
      fun p => p.2.chars p.1 := rfl
  rw [hrun] at h
  rcases Nat.lt_or_ge 1256 text.length with hlong | hfits
  · refine ⟨?_, fun hle => absurd hlong (Nat.not_lt.mpr hle)⟩
    have htake : (text.take 1256).length = 1256 := by
      rw [List.length_take, Nat.min_eq_left hlong.le]
    have hbuffer : (text.take 1256 ++ [(0 : UInt8)]).length = 1257 := by
      rw [List.length_append, htake, List.length_singleton]
    rw [bprintf_new (by decide), htake, Option.bind_some, Nat.mod_eq_of_lt hsize] at h
    obtain ⟨-, rfl⟩ := read_zero_eq_some h
    have hwhole : (text.take 1256 ++ [(0 : UInt8)]).take text.length = text.take 1256 ++ [0] :=
      List.take_of_length_le (by omega)
    exact (congrArg cstr hwhole).trans (cstr_append_zero (fun hmem => hzero (List.mem_of_mem_take hmem)) [])
  · rw [bprintf_new_chars (by decide) hfits, Option.some.injEq] at h
    subst h
    exact ⟨by rw [List.take_of_length_le hfits, cstr_eq_self_iff.mpr hzero], fun _ => rfl⟩

theorem nameOfArray_fits (hfits : text.length ≤ 1256) : nameOfArray text = some text :=
  bprintf_new_chars (by decide) hfits

namespace ClassDesc

variable {cls component : ClassDesc} {name : Chars}

theorem print_array (component : ClassDesc) :
    (array component).descriptor.print = '['.toUInt8 :: component.descriptor.print := by
  rw [ParsedDescriptor.print, ParsedDescriptor.print, descriptor, List.replicate_succ]
  rfl

theorem print_ordinary (name : Chars) (h : name.length < 2 ^ 16) :
    (ordinary name h).descriptor.print = 'L'.toUInt8 :: (name ++ [';'.toUInt8]) := rfl

theorem print_primitive (kind : TypeKind) (h : kind ≠ .reference) :
    (primitive kind h).descriptor.print = [typeKindToChar kind] := by
  rw [ParsedDescriptor.print, ParsedDescriptor.printBase, descriptor, if_neg h]
  rfl

theorem Printable.zero_notMem : ∀ {cls : ClassDesc}, cls.Printable → 0 ∉ cls.descriptor.print
  | ordinary name h, hprintable => by
    have hname : 0 ∉ name := hprintable
    rw [print_ordinary, List.mem_cons, List.mem_append, List.mem_singleton]
    rintro (hzero | hzero | hzero)
    · exact absurd hzero (by decide)
    · exact hname hzero
    · exact absurd hzero (by decide)
  | primitive kind h, _ => by
    rw [print_primitive, List.mem_singleton]
    exact (typeKindToChar_ne_zero kind).symm
  | array component, ⟨hcomponent, _⟩ => by
    rw [print_array]
    exact List.not_mem_cons_of_ne_of_not_mem (by decide) hcomponent.zero_notMem

/-- A name is no longer than the descriptor, and as long only if it is the descriptor. -/
structure NamedBy (descriptor name : Chars) : Prop where
  nonempty : cstr name ≠ []
  short : (cstr name).length ≤ 1256
  length : (cstr name).length ≤ descriptor.length
  whole : (cstr name).length = descriptor.length → name = descriptor ∧ descriptor.length ≤ 1256

theorem NamedBy.of_text {descriptor : Chars} (hzero : 0 ∉ text) (hsize : text.length < 2 ^ 32)
    (hne : text ≠ []) (hlength : text.length ≤ descriptor.length)
    (hwhole : text.length = descriptor.length → text = descriptor)
    (h : nameOfArray text = some name) : NamedBy descriptor name := by
  obtain ⟨hcstr, hname⟩ := nameOfArray_some hzero hsize h
  have htake : (cstr name).length = min 1256 text.length := by
    rw [hcstr, List.length_take]
  have hpos : 0 < text.length := List.length_pos_iff.mpr hne
  refine ⟨List.ne_nil_of_length_pos (by omega), by omega, by omega, fun heq => ?_⟩
  exact ⟨(hname (by omega)).trans (hwhole (by omega)), by omega⟩

theorem arrayName_primitive (kind : TypeKind) (h : kind ≠ .reference) :
    arrayName (primitive kind h) = some ['['.toUInt8, typeKindToChar kind] := by
  have hrun : arrayName (primitive kind h) = (bprintf (initStackString 3).1 (initStackString 3).2
      ['['.toUInt8, typeKindToChar kind]).bind fun p => p.2.chars p.1 := rfl
  rw [hrun, bprintf_new_chars (by decide) (by simp)]

theorem namedBy_primitive (kind : TypeKind) (h : kind ≠ .reference) :
    NamedBy (array (primitive kind h)).descriptor.print ['['.toUInt8, typeKindToChar kind] := by
  have hcstr : cstr ['['.toUInt8, typeKindToChar kind] = ['['.toUInt8, typeKindToChar kind] := by
    rw [cstr_eq_self_iff, List.mem_cons, List.mem_singleton, not_or]
    exact ⟨by decide, (typeKindToChar_ne_zero kind).symm⟩
  rw [print_array, print_primitive]
  exact ⟨by simp [hcstr], by simp [hcstr], by simp [hcstr], fun _ => ⟨rfl, by simp⟩⟩

theorem namedBy_ordinary {own : Chars} {hown : own.length < 2 ^ 16}
    (h : arrayName (ordinary own hown) = some name) :
    NamedBy (array (ordinary own hown)).descriptor.print name := by
  have hle := length_cstr_le own
  have hzero : 0 ∉ '['.toUInt8 :: 'L'.toUInt8 :: (cstr own ++ [';'.toUInt8]) := by
    rw [List.mem_cons, List.mem_cons, List.mem_append, List.mem_singleton]
    rintro (hz | hz | hz | hz)
    · exact absurd hz (by decide)
    · exact absurd hz (by decide)
    · exact zero_notMem_cstr own hz
    · exact absurd hz (by decide)
  have htext : ('['.toUInt8 :: 'L'.toUInt8 :: (cstr own ++ [';'.toUInt8])).length =
      (cstr own).length + 3 := by simp
  have hdescriptor : ('['.toUInt8 :: 'L'.toUInt8 :: (own ++ [';'.toUInt8])).length =
      own.length + 3 := by simp
  rw [print_array, print_ordinary]
  refine .of_text hzero (by omega) (List.cons_ne_nil _ _) (by omega) (fun heq => ?_) h
  rw [cstr_eq_self_of_length (by omega)]

theorem namedBy_array {component : ClassDesc} {inner : Chars}
    (hinner : NamedBy (array component).descriptor.print inner)
    (h : nameOfArray ('['.toUInt8 :: cstr inner) = some name) :
    NamedBy (array (array component)).descriptor.print name := by
  have hshort := hinner.short
  have hlength := hinner.length
  rw [print_array (array component)]
  refine .of_text ?_ (by rw [List.length_cons]; omega) (List.cons_ne_nil _ _)
    (by rw [List.length_cons, List.length_cons]; omega) (fun heq => ?_) h
  · exact List.not_mem_cons_of_ne_of_not_mem (by decide) (zero_notMem_cstr inner)
  · rw [List.length_cons, List.length_cons, Nat.succ_inj] at heq
    obtain ⟨rfl, -⟩ := hinner.whole heq
    rw [cstr_eq_self_of_length (Nat.le_of_eq heq.symm)]

theorem arrayName_some (h : arrayName component = some name) :
    NamedBy (array component).descriptor.print name := by
  induction component generalizing name with
  | primitive kind hkind =>
    rw [arrayName_primitive, Option.some.injEq] at h
    exact h ▸ namedBy_primitive kind hkind
  | ordinary own hown => exact namedBy_ordinary h
  | array component ih =>
    obtain ⟨inner, hinner, h⟩ := Option.bind_eq_some_iff.mp h
    exact namedBy_array (ih hinner) h

theorem arrayName_of_printable (h : (array component).Printable) :
    arrayName component = some (array component).descriptor.print := by
  induction component with
  | primitive kind hkind => rw [arrayName_primitive, print_array, print_primitive]
  | ordinary own hown =>
    obtain ⟨hzero, hlength⟩ := h
    rw [print_array, print_ordinary] at hlength ⊢
    rw [arrayName, cstr_eq_self_iff.mpr hzero]
    exact nameOfArray_fits hlength
  | array component ih =>
    obtain ⟨hcomponent, hlength⟩ := h
    have hcstr := cstr_eq_self_iff.mpr hcomponent.zero_notMem
    rw [print_array (array component)] at hlength ⊢
    rw [arrayName, ih hcomponent, Option.bind_eq_bind, Option.bind_some, hcstr]
    exact nameOfArray_fits hlength

/-- A short descriptor without zero bytes is that of a class that can be printed. -/
theorem printable_of_print (hzero : 0 ∉ cls.descriptor.print)
    (hlength : cls.descriptor.print.length ≤ 1256) : cls.Printable := by
  induction cls with
  | primitive kind hkind => exact trivial
  | ordinary own hown =>
    rw [print_ordinary, List.mem_cons, List.mem_append, not_or, not_or] at hzero
    exact hzero.2.1
  | array component ih =>
    have hle := hlength
    rw [print_array, List.length_cons] at hlength
    rw [print_array, List.mem_cons, not_or] at hzero
    exact ⟨ih hzero.2 (by omega), hle⟩

/-! ### Texts of classes -/

/-- What is printed for a class. -/
def printed : ClassDesc → Option Chars
  | ordinary name _ => some ('L'.toUInt8 :: (cstr name ++ [';'.toUInt8]))
  | array component => component.arrayName.map cstr
  | primitive kind _ => some [typeKindToChar kind]

theorem unparse_eq (buffer : Chars) (str : Slice) (cls : ClassDesc) :
    cls.unparseToFieldDescriptor buffer str = cls.printed.bind (bprintf buffer str) := by
  cases cls with
  | array component =>
    rw [printed, unparseToFieldDescriptor]
    cases component.arrayName <;> rfl
  | _ => rfl

theorem printed_of_printable (h : cls.Printable) : cls.printed = some cls.descriptor.print := by
  cases cls with
  | ordinary name hname =>
    have hzero : 0 ∉ name := h
    rw [printed, cstr_eq_self_iff.mpr hzero, print_ordinary]
  | primitive kind hkind => rw [printed, print_primitive]
  | array component =>
    rw [printed, arrayName_of_printable h, Option.map_some, cstr_eq_self_iff.mpr h.zero_notMem]

/-- A text is no longer than the descriptor, and as long only for a class that can be printed. -/
structure TextOf (cls : ClassDesc) (t : Chars) : Prop where
  nonempty : t ≠ []
  short : t.length < 2 ^ 31
  length : t.length ≤ cls.descriptor.print.length
  printable : t.length = cls.descriptor.print.length → cls.Printable

theorem printed_some {t : Chars} (h : cls.printed = some t) : TextOf cls t := by
  cases cls with
  | ordinary name hname =>
    obtain rfl := Option.some.inj h
    have hle := length_cstr_le name
    have htext : ('L'.toUInt8 :: (cstr name ++ [';'.toUInt8])).length = (cstr name).length + 2 := by
      simp
    have hdescriptor : (ordinary name hname).descriptor.print.length = name.length + 2 := by
      rw [print_ordinary]
      simp
    refine ⟨List.cons_ne_nil _ _, by omega, by omega, fun heq => ?_⟩
    exact cstr_eq_self_iff.mp (cstr_eq_self_of_length (by omega))
  | primitive kind hkind =>
    obtain rfl := Option.some.inj h
    exact ⟨List.cons_ne_nil _ _, by simp, by rw [print_primitive], fun _ => trivial⟩
  | array component =>
    obtain ⟨name, hname, rfl⟩ := Option.map_eq_some_iff.mp h
    have hnamed := arrayName_some hname
    refine ⟨hnamed.nonempty, hnamed.short.trans_lt (by decide), hnamed.length, fun heq => ?_⟩
    obtain ⟨rfl, hlength⟩ := hnamed.whole heq
    refine printable_of_print ?_ hlength
    exact cstr_eq_self_iff.mp (cstr_eq_self_of_length (Nat.le_of_eq heq.symm))

end ClassDesc

/-! ### The whole descriptor -/

theorem printAll_append : ∀ (ts us : List Chars) (s : Chars × Slice),
    printAll dchecks (ts ++ us) s = (printAll dchecks ts s).bind (printAll dchecks us)
  | [], us, s => rfl
  | t :: ts, us, s => by
    rw [List.cons_append, printAll, printAll, Option.bind_assoc]
    exact congrArg _ (funext (printAll_append ts us))

/-- The texts of the parameters can be made before they are printed. -/
theorem foldlM_printed (k : Chars × Slice → Option Chars) : ∀ (cs : List ClassDesc) (s : Chars × Slice),
    (cs.foldlM (fun s cls => advance dchecks s.2 (cls.unparseToFieldDescriptor s.1 s.2)) s).bind k =
      (cs.mapM ClassDesc.printed).bind fun ts => (printAll dchecks ts s).bind k
  | [], s => rfl
  | cls :: cs, s => by
    rw [List.foldlM_cons, List.mapM_cons, cls.unparse_eq]
    simp only [Option.bind_eq_bind, Option.pure_def, Option.bind_assoc, Option.bind_some]
    rcases cls.printed with _ | t
    · rfl
    simp only [Option.bind_some, printAll, Option.bind_assoc]
    rcases advance dchecks s.2 (bprintf s.1 s.2 t) with _ | s₁
    · simp
    · exact foldlM_printed k cs s₁

namespace MethodType

variable {mt : MethodType} {ps : List Chars} {r : Chars}

/-- The pieces of the descriptor. -/
def pieces (ps : List Chars) (r : Chars) : List Chars :=
  ['('.toUInt8] :: (ps ++ [[')'.toUInt8], r])

theorem unparse_eq (mt : MethodType) (dchecks : Bool) : mt.unparse dchecks =
    (mt.ptypes.mapM ClassDesc.printed).bind fun ps => mt.rtype.printed.bind fun r =>
      (printAll dchecks (pieces ps r) (initStackString 10000)).bind finish := by
  have hrun : mt.unparse dchecks =
      (advance dchecks (initStackString 10000).2 (bprintf (initStackString 10000).1
        (initStackString 10000).2 ['('.toUInt8])).bind fun s =>
      (mt.ptypes.foldlM (fun s cls =>
        advance dchecks s.2 (cls.unparseToFieldDescriptor s.1 s.2)) s).bind fun s =>
      (advance dchecks s.2 (bprintf s.1 s.2 [')'.toUInt8])).bind fun s =>
      (advance dchecks s.2 (mt.rtype.unparseToFieldDescriptor s.1 s.2)).bind finish := rfl
  rw [hrun]
  simp only [foldlM_printed, mt.rtype.unparse_eq]
  rcases mt.ptypes.mapM ClassDesc.printed with _ | ps
  · simp
  rcases mt.rtype.printed with _ | r
  · simp [advance]
  · simp only [pieces, printAll, printAll_append, Option.bind_some, Option.bind_assoc,
      Option.bind_fun_some]

theorem printed_all : ∀ {cs : List ClassDesc} {ts : List Chars},
    cs.mapM ClassDesc.printed = some ts → List.Forall₂ ClassDesc.TextOf cs ts
  | [], ts, h => by
    obtain rfl := Option.some.inj h
    exact .nil
  | cls :: cs, ts, h => by
    rw [List.mapM_cons] at h
    obtain ⟨t, ht, h⟩ := Option.bind_eq_some_iff.mp h
    obtain ⟨ts, hts, h⟩ := Option.bind_eq_some_iff.mp h
    obtain rfl := Option.some.inj h
    exact .cons (ClassDesc.printed_some ht) (printed_all hts)

theorem printed_all_of_printable : ∀ {cs : List ClassDesc}, (∀ cls ∈ cs, cls.Printable) →
    cs.mapM ClassDesc.printed = some (cs.map fun cls => cls.descriptor.print)
  | [], _ => rfl
  | cls :: cs, h => by
    rw [List.forall_mem_cons] at h
    rw [List.mapM_cons, ClassDesc.printed_of_printable h.1, printed_all_of_printable h.2]
    rfl

/-- Together the texts are no longer than the descriptors, and as long only if all are right. -/
theorem length_texts {cs : List ClassDesc} {ts : List Chars}
    (h : List.Forall₂ ClassDesc.TextOf cs ts) :
    ts.flatten.length ≤ (cs.flatMap fun cls => cls.descriptor.print).length ∧
      ((cs.flatMap fun cls => cls.descriptor.print).length ≤ ts.flatten.length →
        ∀ cls ∈ cs, cls.Printable) := by
  induction h with
  | nil => exact ⟨le_rfl, fun _ => nofun⟩
  | cons hone _ ih =>
    have hlength := hone.length
    rw [List.flatten_cons, List.flatMap_cons, List.length_append, List.length_append,
      List.forall_mem_cons]
    exact ⟨by omega, fun hle => ⟨hone.printable (by omega), ih.2 (by omega)⟩⟩

theorem print_signature (mt : MethodType) : mt.signature.print = (pieces
    (mt.ptypes.map fun cls => cls.descriptor.print) mt.rtype.descriptor.print).flatten := by
  rw [ParsedMethodDescriptor.print, signature, pieces, List.flatMap_map]
  simp [List.flatMap]

theorem length_pieces (ps : List Chars) (r : Chars) :
    (pieces ps r).flatten.length = ps.flatten.length + r.length + 2 := by
  simp [pieces]
  omega

theorem getLast_print : ∀ cls : ClassDesc, cls.descriptor.print.getLast? ≠ some 0
  | .ordinary name h => by
    rw [ClassDesc.print_ordinary, ← List.cons_append, List.getLast?_concat]
    decide
  | .primitive kind h => by
    rw [ClassDesc.print_primitive, List.getLast?_singleton, Ne, Option.some.injEq]
    exact typeKindToChar_ne_zero kind
  | .array component => by
    rw [ClassDesc.print_array, List.getLast?_cons_of_ne_nil (print_ne_nil _)]
    exact getLast_print component

theorem getLast_signature (mt : MethodType) : mt.signature.print.getLast? ≠ some 0 := by
  have hprint : mt.signature.print = ('('.toUInt8 :: (mt.signature.args.flatMap (·.print) ++
      [')'.toUInt8])) ++ mt.rtype.descriptor.print := by
    rw [ParsedMethodDescriptor.print, List.cons_append, List.append_assoc]
    rfl
  rw [hprint, List.getLast?_append_of_ne_nil _ (print_ne_nil _)]
  exact getLast_print mt.rtype

theorem texts_bounds {cs : List ClassDesc} {ts : List Chars}
    (h : List.Forall₂ ClassDesc.TextOf cs ts) : ∀ t ∈ ts, t ≠ [] ∧ t.length < 2 ^ 31 := by
  induction h with
  | nil => exact nofun
  | cons hone _ ih => exact List.forall_mem_cons.mpr ⟨⟨hone.nonempty, hone.short⟩, ih⟩

theorem pieces_bounds {cs : List ClassDesc} {cls : ClassDesc}
    (hps : List.Forall₂ ClassDesc.TextOf cs ps) (hr : cls.TextOf r) :
    ∀ t ∈ pieces ps r, t ≠ [] ∧ t.length < 2 ^ 31 := by
  intro t ht
  rw [pieces, List.mem_cons, List.mem_append, List.mem_cons, List.mem_singleton] at ht
  rcases ht with rfl | ht | rfl | rfl
  · exact ⟨List.cons_ne_nil _ _, by simp⟩
  · exact texts_bounds hps t ht
  · exact ⟨List.cons_ne_nil _ _, by simp⟩
  · exact ⟨hr.nonempty, hr.short⟩

theorem unparse_iff : mt.unparse dchecks = some mt.signature.print ↔
    mt.signature.print.length ≤ 10000 ∧ ∀ cls ∈ mt.rtype :: mt.ptypes, cls.Printable := by
  rw [unparse_eq]
  constructor
  · intro h
    obtain ⟨ps, hps, h⟩ := Option.bind_eq_some_iff.mp h
    obtain ⟨r, hr, h⟩ := Option.bind_eq_some_iff.mp h
    have hall := printed_all hps
    have hret := ClassDesc.printed_some hr
    obtain ⟨hfits, hflatten⟩ := (printAll_iff (pieces_bounds hall hret) (getLast_signature mt)).mp h
    refine ⟨hflatten ▸ hfits, List.forall_mem_cons.mpr ?_⟩
    -- no text is shorter than its descriptor, since together they are as long
    have hlength := congrArg List.length hflatten
    rw [print_signature, length_pieces, length_pieces, ← List.flatMap_def] at hlength
    obtain ⟨hle, hprintable⟩ := length_texts hall
    have hretLength := hret.length
    exact ⟨hret.printable (by omega), hprintable (by omega)⟩
  · rintro ⟨hlength, hprintable⟩
    rw [List.forall_mem_cons] at hprintable
    have hps := printed_all_of_printable hprintable.2
    have hr := ClassDesc.printed_of_printable hprintable.1
    have hbounds := pieces_bounds (printed_all hps) (ClassDesc.printed_some hr)
    rw [print_signature] at hlength
    rw [hps, hr, Option.bind_some, Option.bind_some, printAll_iff hbounds (getLast_signature mt)]
    exact ⟨hlength, (print_signature mt).symm⟩

/-- The types are read from the text just when the parser takes them. -/
theorem parses_iff : parseMethodTypes mt.signature.print = .ok mt.signature ↔ mt.signature.IsLoose := by
  rw [parseMethodTypes_iff]
  exact and_iff_left ⟨[], (List.append_nil _).symm⟩

theorem resolves_of_unparse (h : mt.unparse dchecks = some mt.signature.print)
    {classes : Nat → Linkage.Classdesc} {c : Nat} {name : List Char}
    (hm : ∃ m ∈ (classes c).methods, m.name = name ∧
      m.unparsedDescriptor = mt.signature.print.map charOf) (fuel : Nat) :
    ∃ p, mt.resolveMn dchecks classes (fuel + 1) c name = some p ∧
      Linkage.methodCandidateMatches (Linkage.methodAt classes p) name
        (mt.signature.print.map charOf) = true := by
  obtain ⟨m, hmem, rfl, hdescriptor⟩ := hm
  obtain ⟨i, hi, rfl⟩ := List.getElem_of_mem hmem
  have hmatches : Linkage.methodCandidateMatches (Linkage.methodAt classes ⟨c, i⟩)
      (classes c).methods[i].name (mt.signature.print.map charOf) = true := by
    rw [Linkage.methodAt, List.getD, List.getElem?_eq_getElem hi, Option.getD_some,
      Linkage.methodCandidateMatches, hdescriptor]
    simp
  have hdeclared : Linkage.Declared classes ⟨c, i⟩ := hi
  obtain ⟨p, hp⟩ := Linkage.lookupOwn_isSome _ _ rfl hdeclared hmatches
  refine ⟨p, ?_, (Linkage.lookupOwn_some hp).2.2⟩
  rw [resolveMn, h, Option.bind_some, Linkage.lookupMethod, Linkage.searchClasses, hp, Option.some_or,
    Option.some_or]

/-- The descriptor of a method type is right just where it fits, and its classes have names that the
parser of descriptors takes. -/
theorem unparsesRight_iff (mt : MethodType) (dchecks : Bool) :
    mt.UnparsesRight dchecks ↔ mt.Fits := by
  constructor
  · intro h
    obtain ⟨hlength, hprintable⟩ := unparse_iff.mp h.descriptor
    have hparses := h.parses
    rw [h.descriptor, Option.map_some, Option.some.injEq, parses_iff] at hparses
    exact ⟨hlength, hprintable, hparses.args, hparses.returnType⟩
  · intro h
    have hunparse : mt.unparse dchecks = some mt.signature.print :=
      unparse_iff.mpr ⟨h.length, h.printable⟩
    refine ⟨hunparse, ?_, fun classes fuel c name hm => resolves_of_unparse hunparse hm fuel⟩
    rw [hunparse, Option.map_some, parses_iff.mpr ⟨h.args, h.returnType⟩]

/-- A method without parameters that returns a class with a name of 10000 bytes. -/
def longReturn : MethodType where
  ptypes := []
  rtype := .ordinary (List.replicate 10000 'a'.toUInt8) (by rw [List.length_replicate]; decide)

/-- It has a descriptor, which the parser takes, but it does not unparse to it. -/
theorem longReturn_cut : parseMethodTypes longReturn.signature.print = .ok longReturn.signature ∧
    ¬ longReturn.UnparsesRight false ∧ ¬ longReturn.UnparsesRight true := by
  have hlong : 10000 < longReturn.signature.print.length := by
    rw [print_signature, length_pieces, longReturn, ClassDesc.print_ordinary, List.length_cons,
      List.length_append, List.length_replicate]
    omega
  have hcut : ∀ dchecks, ¬ longReturn.UnparsesRight dchecks := fun dchecks h =>
    absurd (unparse_iff.mp h.descriptor).1 (Nat.not_le.mpr hlong)
  refine ⟨parses_iff.mpr ⟨nofun, ?_⟩, hcut false, hcut true⟩
  refine ⟨nofun, Nat.zero_le _, ⟨?_, fun h => ?_⟩⟩
  · have hname : (List.replicate 10000 'a'.toUInt8).length = 10000 := List.length_replicate
    exact List.ne_nil_of_length_pos (hname ▸ (by decide))
  · exact absurd (List.eq_of_mem_replicate h) (by decide)

end MethodType

end BJvm.MethodTypes
