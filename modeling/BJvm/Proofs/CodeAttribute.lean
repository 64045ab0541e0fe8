import BJvm.Proofs.CodeLayout

/-!
# Code attributes

What the parser accepts has every offset as the index of an instruction there, except that the end of
the code stays an offset where the exception table names it, and that the length of the code is not
bounded.
-/

namespace BJvm.ClassFile

open Parsing Parser

variable {m : ByteMemory} {s s' : Slice} {pool : ConstantPool} {start codeLength : Nat} {α : Type}
  {code : ParsedCode α} {nested : Parser α} {l : List Nat} {t : PcToInsn}

/-- The offsets of the exception table are indices, where an end at the end of the code is `n`. -/
structure ExceptionConverted (m : ByteMemory) (a codeLength n : Nat) (l : List Nat)
    (e : ParsedException) : Prop where
  startInsn : l[e.startInsn]? = some (beNat m a 2)
  endInsn : if beNat m (a + 2) 2 = codeLength then e.endInsn = n
    else l[e.endInsn]? = some (beNat m (a + 2) 2)
  handlerInsn : l[e.handlerInsn]? = some (beNat m (a + 4) 2)

theorem parseException_converted {e : ParsedException} (ht : Indexes l 0 (fun _ => none) t)
    (h : (parseException pool codeLength t).Yields m s e s') :
    (8 ≤ s.len ∧ s' = s.drop 8) ∧ ExceptionConverted m s.bytes codeLength codeLength l e := by
  unfold parseException readerNextU16 at h
  simp only [yields_bind, yields_nextNat] at h
  obtain ⟨_, _, ⟨h₁, rfl, rfl⟩, _, _, ⟨h₂, rfl, rfl⟩, _, _, ⟨h₃, rfl, rfl⟩, _, _, ⟨h₄, rfl, rfl⟩, h⟩ := h
  simp only [Slice.bytes_drop, Slice.drop_drop, Nat.reduceAdd, Slice.len_drop] at h h₂ h₃ h₄
  split at h
  · exact absurd h yields_fail
  split at h
  · exact absurd h yields_fail
  simp only [yields_bind, yields_lift] at h
  obtain ⟨startInsn, _, ⟨hstart, rfl⟩, endInsn, _, ⟨hend, rfl⟩, handlerInsn, _, ⟨hhandler, rfl⟩, h⟩ := h
  have hend' : if beNat m (s.bytes + 2) 2 = codeLength then endInsn = codeLength
      else l[endInsn]? = some (beNat m (s.bytes + 2) 2) := by
    unfold convertEndPc at hend
    split_ifs at hend ⊢
    · cases hend
      rfl
    · exact ht.convert hend
  split_ifs at h
  · obtain ⟨rfl, rfl⟩ := yields_pure.mp h
    exact ⟨⟨by omega, rfl⟩, ht.convert hstart, hend', ht.convert hhandler⟩
  · simp only [yields_bind, yields_lift, yields_pure] at h
    obtain ⟨_, _, ⟨-, rfl⟩, rfl, rfl⟩ := h
    exact ⟨⟨by omega, rfl⟩, ht.convert hstart, hend', ht.convert hhandler⟩

/-- `code_length` of the attribute in a slice. -/
def codeLengthOf (m : ByteMemory) (s : Slice) : Nat := beNat m (s.bytes + 4) 4

/-- The offsets of the instructions of the attribute. -/
def startsOf (m : ByteMemory) (s : Slice) : List Nat :=
  codeStarts m (s.bytes + 8) (codeLengthOf m s)

/-- `exception_table_length`, behind the code. -/
def exceptionCountOf (m : ByteMemory) (s : Slice) : Nat :=
  beNat m (s.bytes + 8 + codeLengthOf m s) 2

/-- The address of an entry of the exception table. -/
def exceptionAt (m : ByteMemory) (s : Slice) (j : Nat) : Nat :=
  s.bytes + 8 + codeLengthOf m s + 2 + 8 * j

/-- What holds of every code that is accepted. -/
structure CodeConverted (m : ByteMemory) (s : Slice) (code : ParsedCode α) : Prop where
  length : code.code.length = (startsOf m s).length
  insns : ∀ {i : Nat} {insn p}, code.code[i]? = some insn → (startsOf m s)[i]? = some p →
    Converted m (s.bytes + 8) (startsOf m s) p insn
  exceptionCount : code.exceptionTable.length = exceptionCountOf m s
  exceptions : ∀ {j : Nat} {e}, code.exceptionTable[j]? = some e →
    ExceptionConverted m (exceptionAt m s j) (codeLengthOf m s) (codeLengthOf m s) (startsOf m s) e

theorem parseCodeAttribute_converted (h : (parseCodeAttribute pool nested).Yields m s code s') :
    CodeConverted m s code := by
  unfold parseCodeAttribute readerNextU16 readerNextU32 at h
  simp only [yields_bind, yields_nextNat, yields_position, yields_withSlice, yields_lift,
    yields_pure] at h
  obtain ⟨_, _, ⟨h₁, -, rfl⟩, _, _, ⟨h₂, -, rfl⟩, _, _, ⟨h₃, rfl, rfl⟩, _, _, ⟨rfl, rfl⟩, h⟩ := h
  obtain ⟨⟨insns, t⟩, _, ⟨h₄, rfl, _, hinsns⟩, code', _, ⟨hconvert, rfl⟩, h⟩ := h
  obtain ⟨_, _, ⟨h₅, rfl, rfl⟩, table, _, htable, _, _, -, _, _, -, rfl, -⟩ := h
  simp only [Slice.bytes_drop, Slice.drop_drop, Nat.reduceAdd] at hinsns htable
  obtain ⟨hlength, hat, hindexes⟩ :=
    parseInsns_starts (s := (s.drop 8).take (beNat m (s.bytes + 4) 4)) hinsns
  obtain ⟨hcount, -, -, hentries⟩ := yields_times (k := 8)
    (fun h => (parseException_converted hindexes h).1) htable
  refine ⟨(length_of_mapM hconvert).trans hlength, fun {i insn p} hi hp => ?_, ?_, fun {j e} hj => ?_⟩
  · have hboth := mapM_eq_ok hconvert i
    rw [hi] at hboth
    cases hraw : insns[i]? with
    | none => simp [hraw] at hboth
    | some raw =>
      rw [hraw] at hboth
      exact convertInsn_converted hindexes (hat i raw p hraw hp) (Option.some.inj hboth)
  · rw [hcount, exceptionCountOf, Nat.add_assoc]
    rfl
  · obtain ⟨_, he⟩ := hentries j e hj
    have hconverted := (parseException_converted hindexes he).2
    have haddress : (((s.drop (8 + beNat m (s.bytes + 4) 4 + 2)).drop (8 * j)).bytes) =
        exceptionAt m s j := by
      simp only [Slice.bytes_drop, exceptionAt, codeLengthOf]
      omega
    rw [haddress] at hconverted
    exact hconverted

/-! ### The records and the bytes -/

/-- What a reader of a parsed code relies on. -/
structure CodeRight (m : ByteMemory) (s : Slice) (code : ParsedCode α) : Prop where
  bounds : 1 ≤ codeLengthOf m s ∧ codeLengthOf m s ≤ 65535
  length : code.code.length = (startsOf m s).length
  originalPc : ∀ {i : Nat} {insn}, code.code[i]? = some insn →
    (startsOf m s)[i]? = some insn.originalPc
  increasing : code.code.Pairwise (·.originalPc < ·.originalPc)
  targets : ∀ insn ∈ code.code,
    (insn.targets.map fun i => (startsOf m s)[i]?.map fun p : Nat => (p : Int)) =
      (byteTargets m (s.bytes + 8) insn.originalPc).map some
  exceptionCount : code.exceptionTable.length = exceptionCountOf m s
  exceptions : ∀ {j : Nat} {e}, code.exceptionTable[j]? = some e →
    ExceptionConverted m (exceptionAt m s j) (codeLengthOf m s) code.code.length (startsOf m s) e

/-- The length of the code is in the bounds, and no range of the exception table ends at the end of
the code unless there are as many instructions as bytes. -/
def CodeOrdinary (m : ByteMemory) (s : Slice) : Prop :=
  (1 ≤ codeLengthOf m s ∧ codeLengthOf m s ≤ 65535) ∧
    ∀ j < exceptionCountOf m s, beNat m (exceptionAt m s j + 2) 2 = codeLengthOf m s →
      (startsOf m s).length = codeLengthOf m s

instance decidableCodeOrdinary (m : ByteMemory) (s : Slice) : Decidable (CodeOrdinary m s) := by
  unfold CodeOrdinary
  infer_instance

theorem CodeConverted.ordinary (h : CodeConverted m s code) (hright : CodeRight m s code) :
    CodeOrdinary m s := by
  refine ⟨hright.bounds, fun j hj hend => ?_⟩
  rw [← hright.exceptionCount] at hj
  have he := List.getElem?_eq_getElem hj
  have hcount := (hright.exceptions he).endInsn
  have hoffset := (h.exceptions he).endInsn
  rw [if_pos hend] at hcount hoffset
  rw [← h.length, ← hcount, hoffset]

theorem CodeConverted.originalPc {i : Nat} {insn : ParsedInsn} (h : CodeConverted m s code)
    (hlength : codeLengthOf m s ≤ 65535) (hi : code.code[i]? = some insn) :
    (startsOf m s)[i]? = some insn.originalPc := by
  obtain ⟨hlt, -⟩ := List.getElem?_eq_some_iff.mp hi
  rw [h.length] at hlt
  have hp := List.getElem?_eq_getElem hlt
  have hmem : (startsOf m s)[i] < codeLengthOf m s := (le_insnStarts (List.getElem_mem hlt)).2
  rw [hp, (h.insns hi hp).originalPc, Nat.mod_eq_of_lt (by omega)]

/-- The records of an accepted code say what its bytes do if and only if the code is ordinary. -/
theorem codeRight_iff (h : (parseCodeAttribute pool nested).Yields m s code s') :
    CodeRight m s code ↔ CodeOrdinary m s := by
  have hcode := parseCodeAttribute_converted h
  refine ⟨hcode.ordinary, ?_⟩
  rintro ⟨hbounds, hends⟩
  have hpc {i : Nat} {insn} (hi : code.code[i]? = some insn) := hcode.originalPc hbounds.2 hi
  refine ⟨hbounds, hcode.length, hpc, ?_, fun insn hinsn => ?_, hcode.exceptionCount,
    fun {j e} hj => ?_⟩
  · rw [List.pairwise_iff_getElem]
    intro i j hi hj hij
    obtain ⟨hi', heqi⟩ := List.getElem?_eq_some_iff.mp (hpc (List.getElem?_eq_getElem hi))
    obtain ⟨hj', heqj⟩ := List.getElem?_eq_some_iff.mp (hpc (List.getElem?_eq_getElem hj))
    rw [← heqi, ← heqj]
    exact List.pairwise_iff_getElem.mp insnStarts_sorted i j hi' hj' hij
  · obtain ⟨i, hi⟩ := List.getElem?_of_mem hinsn
    exact (hcode.insns hi (hpc hi)).targets
  · obtain ⟨hstart, hend, hhandler⟩ := hcode.exceptions hj
    refine ⟨hstart, ?_, hhandler⟩
    split_ifs at hend ⊢ with hlast
    · obtain ⟨hj', -⟩ := List.getElem?_eq_some_iff.mp hj
      rw [hend, hcode.length, hends j (hcode.exceptionCount ▸ hj') hlast]
    · exact hend

/-! ### A range up to the end of the code -/

/-- A `Code` attribute with the instructions `nop`, `return`, and one handler for the first one. -/
def shortCode : List UInt8 :=
  [0, 1, 0, 1, 0, 0, 0, 2, 0x00, 0xb1, 0, 1, 0, 0, 0, 1, 0, 1, 0, 0, 0, 0]

/-- A `Code` attribute with the instructions `bipush 5`, `pop`, `return`, and one handler for all. -/
def bipushCode : List UInt8 :=
  [0, 1, 0, 1, 0, 0, 0, 4, 0x10, 5, 0x57, 0xb1, 0, 1, 0, 0, 0, 4, 0, 3, 0, 0, 0, 0]

/-- What the attributes of both are parsed with. -/
def shortParser : Parser (ParsedCode Attribute) := parseCodeAttribute [] (parseAttribute [] 0)

theorem codeRight_short : ∃ code s',
    shortParser.Yields (memoryOf shortCode) (sliceOf shortCode) code s' ∧
      CodeRight (memoryOf shortCode) (sliceOf shortCode) code := by
  have hok : (shortParser.run (memoryOf shortCode) (sliceOf shortCode)).2.isOk := by decide
  obtain ⟨code, s', h⟩ := exists_yields hok
  exact ⟨code, s', h, (codeRight_iff h).mpr (by decide)⟩

/-- The range that ends at the offset 4 has 4 as its end, but there are only three instructions. -/
theorem end_stays_offset : ∃ code s',
    shortParser.Yields (memoryOf bipushCode) (sliceOf bipushCode) code s' ∧
      ¬ CodeRight (memoryOf bipushCode) (sliceOf bipushCode) code := by
  have hok : (shortParser.run (memoryOf bipushCode) (sliceOf bipushCode)).2.isOk := by decide
  obtain ⟨code, s', h⟩ := exists_yields hok
  have hordinary : ¬ CodeOrdinary (memoryOf bipushCode) (sliceOf bipushCode) := by decide
  exact ⟨code, s', h, fun hright => hordinary ((parseCodeAttribute_converted h).ordinary hright)⟩

end BJvm.ClassFile
