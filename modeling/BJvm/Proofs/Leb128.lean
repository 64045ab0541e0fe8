import BJvm.Proofs.WasmExpression

/-!
# The shortest LEB128

A number takes at least as many bytes as it has groups of seven bits, the sign bit with the last of
them, and the writers write no more.
-/

namespace BJvm.WasmUtils

open Decoding Decoding.Decoder

theorem wasmWriteuint_le : ∀ {bs : List UInt8} {N v : Nat} {rest : List UInt8},
    uN N bs = some (v, rest) → (wasmWriteuint v).length + rest.length ≤ bs.length
  | [], N, v, rest, h => by
    rw [uN] at h
    cases h
  | b :: bs, N, v, rest, h => by
    rw [uN] at h
    rw [wasmWriteuint, Nat.shiftRight_eq_div_pow, List.length_cons]
    split_ifs at h with hlast hfits hN
    · obtain ⟨rfl, rfl⟩ := Prod.mk.inj (Option.some.inj h)
      rw [if_pos (by omega), length_writeByte]
      omega
    · obtain ⟨⟨high, rest'⟩, hhigh, heq⟩ := Option.map_eq_some_iff.1 h
      obtain ⟨rfl, rfl⟩ := Prod.mk.inj heq
      have ih := wasmWriteuint_le hhigh
      dsimp only
      split_ifs with hsmall
      · rw [length_writeByte]
        have hread : 0 < (wasmWriteuint high).length := length_wasmWriteuint_pos high
        omega
      · have hdiv : (128 * high + (b.toNat - 128)) / 2 ^ 7 = high := by
          have := b.toNat_lt
          omega
        rw [List.length_append, length_writeByte, hdiv]
        omega

theorem length_wasmWriteint_pos (v : Int) : 0 < (wasmWriteint v).length := by
  rw [wasmWriteint_eq]
  split_ifs <;> simp

theorem wasmWriteint_le : ∀ {bs : List UInt8} {N : Nat} {v : Int} {rest : List UInt8},
    sN N bs = some (v, rest) → (wasmWriteint v).length + rest.length ≤ bs.length
  | [], N, v, rest, h => by
    rw [sN] at h
    cases h
  | b :: bs, N, v, rest, h => by
    rw [sN] at h
    rw [wasmWriteint_eq, List.length_cons]
    split_ifs at h with hpos hfits hneg hfits hN
    · obtain ⟨rfl, rfl⟩ := Prod.mk.inj (Option.some.inj h)
      rw [if_pos (by omega), List.length_singleton]
      omega
    · obtain ⟨rfl, rfl⟩ := Prod.mk.inj (Option.some.inj h)
      rw [if_pos (by omega), List.length_singleton]
      omega
    · obtain ⟨⟨high, rest'⟩, hhigh, heq⟩ := Option.map_eq_some_iff.1 h
      obtain ⟨rfl, rfl⟩ := Prod.mk.inj heq
      have ih := wasmWriteint_le hhigh
      dsimp only
      split_ifs with hsmall
      · rw [List.length_singleton]
        have hread : 0 < (wasmWriteint high).length := length_wasmWriteint_pos high
        omega
      · have hdiv : (128 * high + ((b.toNat : Int) - 128)) / 128 = high := by
          have := b.toNat_lt
          omega
        rw [List.length_cons, hdiv]
        omega

/-- The bytes are read as the value, whatever is behind them, and so are no fewer bytes. -/
structure Shortest {α : Type} (d : Decoder α) (bs : List UInt8) (a : α) : Prop where
  decodes : Decodes d bs a
  le : ∀ bs', Decodes d bs' a → bs.length ≤ bs'.length

theorem shortest_wasmWriteuint (v : BitVec 64) :
    Shortest (uN 64) (wasmWriteuint v.toNat) v.toNat where
  decodes := decodes_wasmWriteuint v.isLt
  le bs h := by simpa using wasmWriteuint_le h.eq_of_exact

theorem shortest_wasmWriteint (v : BitVec 64) :
    Shortest (sN 64) (wasmWriteint v.toInt) v.toInt where
  decodes := decodes_wasmWriteint v.toInt (by decide) v.le_toInt v.toInt_lt
  le bs h := by simpa using wasmWriteint_le h.eq_of_exact

/-- Both writers write the shortest LEB128 of every number of 64 bits. -/
theorem writesShortest (v : BitVec 64) :
    Shortest (uN 64) (wasmWriteuint v.toNat) v.toNat ∧
      Shortest (sN 64) (wasmWriteint v.toInt) v.toInt :=
  ⟨shortest_wasmWriteuint v, shortest_wasmWriteint v⟩

end BJvm.WasmUtils
