import BJvm.Interpreter.Division

/-!
# Division

C defines every division but the two that the handlers keep from it, and rounds as Java does
(`cDiv_eq`).  A `long` of 64 bits makes the comparison with `LONG_MIN` the right one
(`divide_handler`); one of 32 bits does not, for three pairs of operands (`divide_iff`).
-/

namespace BJvm.Interpreter

open StackValue

/-! ### Division in C -/

theorem sdiv_eq_quotient {w : Nat} (a b : BitVec w) : a.sdiv b = quotient a b := by
  refine BitVec.eq_of_toInt_eq ?_
  rw [BitVec.toInt_sdiv, quotient, BitVec.toInt_ofInt]

theorem srem_eq_remainder {w : Nat} (a b : BitVec w) : a.srem b = remainder a b := by
  rw [remainder, ← BitVec.toInt_srem, BitVec.ofInt_toInt]

theorem cDiv_eq {w : Nat} {a b : BitVec w} (h : ¬ Undefined a b) : cDiv a b = some (quotient a b) := by
  rw [cDiv, if_neg h, sdiv_eq_quotient]

theorem cRem_eq {w : Nat} {a b : BitVec w} (h : ¬ Undefined a b) : cRem a b = some (remainder a b) := by
  rw [cRem, if_neg h, srem_eq_remainder]

theorem not_undefined {w : Nat} {a b : BitVec w} (hb : b ≠ 0)
    (h : ¬ (a = BitVec.intMin w ∧ b = -1#w)) : ¬ Undefined a b := not_or.2 ⟨hb, h⟩

/-! ### Java's division -/

theorem javaIdiv_eq {a b : BitVec 32} (hb : b ≠ 0) : javaIdiv a b = some (quotient a b) := by
  rw [javaIdiv]
  split_ifs with h
  · obtain ⟨rfl, rfl⟩ := h
    decide
  · exact cDiv_eq (not_undefined hb h)

theorem javaIrem_eq {a b : BitVec 32} (hb : b ≠ 0) : javaIrem a b = some (remainder a b) := by
  rw [javaIrem]
  split_ifs with h
  · obtain ⟨rfl, rfl⟩ := h
    decide
  · exact cRem_eq (not_undefined hb h)

theorem javaLdiv_iff {t : Target} {a b : BitVec 64} (hb : b ≠ 0) :
    javaLdiv t a b = some (quotient a b) ↔ ¬ (t = .wasm32 ∧ MissesLongMin .ldiv a b) := by
  by_cases hmin : a = BitVec.intMin 64 ∧ b = -1#64
  · obtain ⟨rfl, rfl⟩ := hmin
    cases t
    · exact iff_of_false (by decide) (by simp [MissesLongMin])
    · exact iff_of_true (by decide) (by simp)
  · rw [javaLdiv]
    split_ifs with hlong
    · obtain ⟨rfl, rfl⟩ := hlong
      cases t
      · exact iff_of_false (by decide) (by simp [MissesLongMin])
      · exact absurd ⟨rfl, rfl⟩ hmin
    · refine iff_of_true (cDiv_eq (not_undefined hb hmin)) ?_
      rintro ⟨rfl, rfl, rfl | rfl⟩
      · exact hmin ⟨rfl, rfl⟩
      · exact hlong ⟨rfl, rfl⟩

theorem javaLrem_iff {t : Target} {a b : BitVec 64} (hb : b ≠ 0) :
    javaLrem t a b = some (remainder a b) ↔ ¬ (t = .wasm32 ∧ MissesLongMin .lrem a b) := by
  by_cases hmin : a = BitVec.intMin 64 ∧ b = -1#64
  · obtain ⟨rfl, rfl⟩ := hmin
    cases t
    · exact iff_of_false (by decide) (by simp [MissesLongMin])
    · exact iff_of_true (by decide) (by simp)
  · refine iff_of_true ?_ (by rintro ⟨rfl, rfl, rfl⟩; exact hmin ⟨rfl, rfl⟩)
    rw [javaLrem]
    split_ifs with hlong
    · obtain ⟨rfl, rfl⟩ := hlong
      cases t <;> decide
    · exact cRem_eq (not_undefined hb hmin)

/-! ### The handlers -/

theorem Divided.of_eq_result {v : Option (BitVec 64)} {tos : BitVec 64} :
    Divided.of v = .result tos ↔ v = some tos := by
  cases v <;> simp [Divided.of]

theorem divideInts_eq {eval : BitVec 32 → BitVec 32 → Option (BitVec 32)}
    {spec : BitVec 32 → BitVec 32 → BitVec 32} (h : ∀ {a b}, b ≠ 0 → eval a b = some (spec a b))
    (a tos : BitVec 64) : divideInts eval a tos =
      if low tos = 0 then .throws else .result ((spec (low a) (low tos)).signExtend 64) := by
  rw [divideInts]
  split_ifs with hb
  · rfl
  · rw [h hb]
    rfl

theorem divideLongs_eq_iff {eval : BitVec 64 → BitVec 64 → Option (BitVec 64)}
    {spec : BitVec 64 → BitVec 64 → BitVec 64} {p : Prop} {a tos : BitVec 64}
    (h : tos ≠ 0 → (eval a tos = some (spec a tos) ↔ ¬ p)) (hp : p → tos ≠ 0) :
    divideLongs eval a tos = (if tos = 0 then .throws else .result (spec a tos)) ↔ ¬ p := by
  rw [divideLongs]
  split_ifs with hb
  · exact iff_of_true rfl fun hp' => hp hp' hb
  · rw [Divided.of_eq_result, h hb]

theorem MissesLongMin.ne_zero {insn : DivisionInsn} {a b : BitVec 64} (h : MissesLongMin insn a b) :
    b ≠ 0 := by
  cases insn with
  | idiv | irem => exact h.elim
  | ldiv | lrem =>
    rw [h.1]
    decide

/-- A handler is right if and only if a `long` has 64 bits or it does not miss the least long. -/
theorem divide_iff (t : Target) (insn : DivisionInsn) (a b : BitVec 64) :
    divide t insn a b = specifiedDivision insn a b ↔ ¬ (t = .wasm32 ∧ MissesLongMin insn a b) := by
  cases insn with
  | idiv => exact iff_of_true (divideInts_eq javaIdiv_eq a b) fun h => h.2
  | irem => exact iff_of_true (divideInts_eq javaIrem_eq a b) fun h => h.2
  | ldiv => exact divideLongs_eq_iff javaLdiv_iff fun h => h.2.ne_zero
  | lrem => exact divideLongs_eq_iff javaLrem_iff fun h => h.2.ne_zero

/-- -2147483648 / -1, with a `long` of 32 bits. -/
theorem divide_wrong : divide .wasm32 .ldiv (BitVec.ofInt 64 (-2 ^ 31)) (-1) ≠
    specifiedDivision .ldiv (BitVec.ofInt 64 (-2 ^ 31)) (-1) := by decide

section

variable {W : Type} (vm : Vm W)

theorem javaDiv_eq {w : Nat} {a b : BitVec w} (hw : quotient (BitVec.intMin w) (-1#w) = BitVec.intMin w) :
    javaDiv a b = quotient a b := by
  rw [javaDiv]
  split_ifs with h
  · obtain ⟨rfl, rfl⟩ := h
    exact hw.symm
  · exact sdiv_eq_quotient a b

theorem javaRem_eq {w : Nat} {a b : BitVec w} (hw : remainder (BitVec.intMin w) (-1#w) = 0#w) :
    javaRem a b = remainder a b := by
  rw [javaRem]
  split_ifs with h
  · obtain ⟨rfl, rfl⟩ := h
    exact hw.symm
  · exact srem_eq_remainder a b

/-- With a `long` of 64 bits, the handlers of the machine do what the specification says. -/
theorem divide_handler (insn : DivisionInsn) (m : Machine W) (tos : BitVec 64) :
    (specifiedDivision insn (m.stack (m.sp - 2)) tos).next vm m tos = some (insn.handler vm m tos) := by
  cases insn with
  | idiv =>
    rw [DivisionInsn.handler, idivImplInt, intDivision, specifiedDivision, javaDiv_eq (by decide)]
    split_ifs <;> rfl
  | irem =>
    rw [DivisionInsn.handler, iremImplInt, intDivision, specifiedDivision, javaRem_eq (by decide)]
    split_ifs <;> rfl
  | ldiv =>
    rw [DivisionInsn.handler, ldivImplInt, longDivision, specifiedDivision, javaDiv_eq (by decide)]
    split_ifs <;> rfl
  | lrem =>
    rw [DivisionInsn.handler, lremImplInt, longDivision, specifiedDivision, javaRem_eq (by decide)]
    split_ifs <;> rfl

end

end BJvm.Interpreter
