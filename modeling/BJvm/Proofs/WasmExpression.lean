import BJvm.Wasm.WasmUtils
import Mathlib.Data.List.Forall2
import Mathlib.Tactic.Linarith
import Mathlib.Algebra.Order.Ring.Int

/-!
# What is written for an expression

The numbers are read back by the LEB128 of the binary format.  What instructions an expression
means is `Reads`: a branch has the depth at which its block stands among the enclosing ones, a call
the index of its function.
-/

namespace BJvm.WasmUtils

open Decoding Decoding.Decoder WasmBinary

theorem toNat_ofNat_of_lt {n : Nat} (h : n < 256) : (UInt8.ofNat n).toNat = n := by
  rw [UInt8.toNat_ofNat']
  omega

theorem and_low (n : Nat) : n &&& 0x7F = n % 128 := Nat.and_two_pow_sub_one_eq_mod n 7

theorem or_high {n : Nat} (h : n < 128) : n ||| 0x80 = 128 + n := by
  rw [Nat.or_comm]
  exact (Nat.two_pow_add_eq_or_of_lt (i := 7) h 1).symm

theorem decodes_wasmWriteuint {v N : Nat} (h : v < 2 ^ N) :
    Decodes (uN N) (wasmWriteuint v) v := by
  induction v using Nat.strong_induction_on generalizing N with
  | _ v ih =>
    rw [wasmWriteuint, and_low, Nat.shiftRight_eq_div_pow]
    have hlow : v % 128 < 128 := Nat.mod_lt _ (by decide)
    split
    · have hv : v % 128 = v := by omega
      have hbyte : (UInt8.ofNat (v % 128)).toNat = v := by rw [toNat_ofNat_of_lt (by omega), hv]
      have := decodes_uN_last (b := UInt8.ofNat (v % 128)) (N := N) (by omega) (by omega)
      rwa [hbyte] at this
    · have hN : 7 < N := by
        by_contra hN
        have : 2 ^ N ≤ 2 ^ 7 := Nat.pow_le_pow_right (by decide) (by omega)
        omega
      have hhigh : v / 2 ^ 7 < 2 ^ (N - 7) := by
        rw [Nat.div_lt_iff_lt_mul (by decide), ← Nat.pow_add]
        rwa [Nat.sub_add_cancel hN.le]
      have hbyte : (UInt8.ofNat (v % 128 ||| 0x80)).toNat = 128 + v % 128 := by
        rw [or_high hlow, toNat_ofNat_of_lt (by omega)]
      have := (ih _ (by omega) hhigh).uN_cons (b := UInt8.ofNat (v % 128 ||| 0x80))
        (by omega) hN
      rw [hbyte] at this
      have hv : 128 * (v / 2 ^ 7) + (128 + v % 128 - 128) = v := by omega
      rwa [hv] at this

theorem and_sign {n : Nat} (h : n < 128) : n &&& 0x40 = 0 ↔ n < 64 := by
  have key : ∀ m < 128, m &&& 0x40 = 0 ↔ m < 64 := by decide
  exact key n h

/-- The last byte is the one that has the sign of the number. -/
theorem wasmWriteint_eq (v : Int) : wasmWriteint v =
    if -64 ≤ v ∧ v < 64 then [UInt8.ofNat (v % 128).toNat]
    else UInt8.ofNat (128 + (v % 128).toNat) :: wasmWriteint (v / 128) := by
  have hlt : (v % 128).toNat < 128 := by omega
  have hlast : ((v / 128 = 0 ∧ (v % 128).toNat &&& 0x40 = 0) ∨
      (v / 128 = -1 ∧ (v % 128).toNat &&& 0x40 ≠ 0)) ↔ -64 ≤ v ∧ v < 64 := by
    rw [ne_eq, and_sign hlt]
    omega
  rw [wasmWriteint]
  simp only [Int.shiftRight_eq_div_pow]
  change (if (v / 128 = 0 ∧ _) ∨ (v / 128 = -1 ∧ _) then _ else _) = _
  simp only [hlast]
  split
  · rfl
  · rw [or_high hlt]
    rfl

theorem decodes_wasmWriteint {N : Nat} (v : Int) (hN : 0 < N) (hlow : -2 ^ (N - 1) ≤ v)
    (hhigh : v < 2 ^ (N - 1)) : Decodes (sN N) (wasmWriteint v) v := by
  induction hv : v.natAbs using Nat.strong_induction_on generalizing N v with
  | _ n ih =>
    subst hv
    have hmod := Int.toNat_of_nonneg (Int.emod_nonneg v (b := 128) (by decide))
    have hlt : (v % 128).toNat < 128 := by omega
    rw [wasmWriteint_eq]
    split
    · have hbyte : (UInt8.ofNat (v % 128).toNat).toNat = (v % 128).toNat :=
        toNat_ofNat_of_lt (by omega)
      rcases lt_or_ge v 0 with hneg | hnonneg
      · have := decodes_sN_last_neg (b := UInt8.ofNat (v % 128).toNat) (N := N)
          (by omega) (by omega) (by
            zify
            omega)
        rwa [hbyte, hmod, show v % 128 - 128 = v by omega] at this
      · have := decodes_sN_last (b := UInt8.ofNat (v % 128).toNat) (N := N) (by omega) (by
          zify
          omega)
        have hv : ((UInt8.ofNat (v % 128).toNat).toNat : Int) = v := by
          rw [hbyte, hmod]
          omega
        rwa [hv] at this
    · have hN7 : 7 < N := by
        by_contra hN7
        have h64 : (2 : Int) ^ (N - 1) ≤ 2 ^ 6 := by
          exact_mod_cast Nat.pow_le_pow_right (by decide : 0 < 2) (by omega)
        omega
      have hpow : (2 : Int) ^ (N - 1) = 128 * 2 ^ (N - 7 - 1) := by
        rw [show (128 : Int) = 2 ^ 7 by decide, ← pow_add]
        congr 1
        omega
      have hbyte : (UInt8.ofNat (128 + (v % 128).toNat)).toNat = 128 + (v % 128).toNat :=
        toNat_ofNat_of_lt (by omega)
      have := (ih _ (by omega) (v / 128) (by omega) (by omega) (by omega) rfl).sN_cons
        (b := UInt8.ofNat (128 + (v % 128).toNat)) (by omega) hN7
      rw [hbyte] at this
      push_cast at this
      rwa [hmod, show 128 * (v / 128) + (128 + v % 128 - 128) = v by omega] at this

theorem decodes_writeLittleEndian : ∀ (n : Nat) {v : Nat}, v < 256 ^ n →
    Decodes (leNat n) (writeLittleEndian n v) v
  | 0, v, h => by
    have hv : v = 0 := by simpa using h
    rw [hv]
    exact decodes_pure 0
  | n + 1, v, h => by
    have hhigh : v >>> 8 < 256 ^ n := by
      rw [Nat.shiftRight_eq_div_pow, Nat.div_lt_iff_lt_mul (by decide), ← Nat.pow_succ]
      exact h
    have hv : (UInt8.ofNat v).toNat + 256 * (v >>> 8) = v := by
      rw [UInt8.toNat_ofNat', Nat.shiftRight_eq_div_pow]
      omega
    refine Decodes.byte_bind _ ((decodes_writeLittleEndian n hhigh).bind_nil ?_)
    rw [hv]
    exact decodes_pure v

/-- An `int` that is not negative is written as itself. -/
theorem decodes_writeInt32 {v : BitVec 32} (h : 0 ≤ v.toInt) :
    Decodes (uN 32) (writeInt32 v) v.toNat := by
  have hv : (v.signExtend 64).toNat = v.toNat := by
    rw [BitVec.toNat_signExtend, BitVec.msb_eq_false_iff_two_mul_lt.mpr (by
      rw [BitVec.toInt_eq_toNat_cond] at h
      split at h <;> omega)]
    have hlt : v.toNat < 2 ^ 64 := v.isLt.trans (by decide)
    simpa using hlt
  rw [writeInt32, hv]
  exact decodes_wasmWriteuint v.isLt

/-- The functions that a pointer in the module leads to. -/
def Module.Knows (module : Module) : FnRef → Prop
  | .imported i => i < module.imports.length
  | .defined i => i < module.functions.length

mutual

/-- What the callers see to: branches go to enclosing blocks, calls to functions of the module,
offsets and table indices are not negative, and an alignment is written in a byte. -/
def Expr.Valid (module : Module) (ctx : List Label) : Expr → Prop
  | .drop | .unreachable | .const _ | .getLocal _ => True
  | .ret value => OptionValid module ctx value
  | .call toCall args => module.Knows toCall ∧ ListValid module ctx args
  | .callIndirect tableIndex index args _ _ =>
    0 ≤ tableIndex.toInt ∧ ListValid module ctx args ∧ index.Valid module ctx
  | .load _ addr align offset => align.toNat < 128 ∧ 0 ≤ offset.toInt ∧ addr.Valid module ctx
  | .store _ addr value align offset =>
    align.toNat < 128 ∧ 0 ≤ offset.toInt ∧ addr.Valid module ctx ∧ value.Valid module ctx
  | .select condition trueExpr falseExpr =>
    trueExpr.Valid module ctx ∧ falseExpr.Valid module ctx ∧ condition.Valid module ctx
  | .setLocal _ value => value.Valid module ctx
  | .unaryOp _ arg => arg.Valid module ctx
  | .binaryOp _ left right => left.Valid module ctx ∧ right.Valid module ctx
  | .block self _ _ exprs => ListValid module (some self :: ctx) exprs
  | .ifElse self _ condition trueExpr falseExpr =>
    condition.Valid module ctx ∧ trueExpr.Valid module (some self :: ctx) ∧
      OptionValid module (some self :: ctx) falseExpr
  | .br condition breakTo => OptionValid module ctx condition ∧ breakTo ∈ ctx
  | .brTable condition exprs dflt =>
    condition.Valid module ctx ∧ (∀ breakTo ∈ exprs, breakTo ∈ ctx) ∧ dflt ∈ ctx

def ListValid (module : Module) (ctx : List Label) : List Expr → Prop
  | [] => True
  | expr :: exprs => expr.Valid module ctx ∧ ListValid module ctx exprs

def OptionValid (module : Module) (ctx : List Label) : Option Expr → Prop
  | none => True
  | some expr => expr.Valid module ctx

end

def Literal.instr : Literal → Instr
  | .i32 value => .i32Const value.toInt
  | .i64 value => .i64Const value.toInt
  | .f32 bits => .f32Const bits.toNat
  | .f64 bits => .f64Const bits.toNat

def UnaryOp.instr (op : UnaryOp) : Instr :=
  if 0xFF < op.code then .truncSat (op.code &&& 0xFF) else .numeric op.code

section

variable (funcIndex : FnRef → Nat) (blocks : WasmType → BlockType → Prop)

mutual

/-- What instructions an expression means.  The enclosing blocks say what a depth denotes,
`funcIndex` what a function is called by, and `blocks` what may stand for the type of a block. -/
inductive Reads : List Label → Expr → List Instr → Prop
  | drop {ctx} : Reads ctx .drop [.drop]
  | unreachable {ctx} : Reads ctx .unreachable [.unreachable]
  | ret {ctx value is} (hvalue : OptionReads ctx value is) : Reads ctx (.ret value) (is ++ [.ret])
  | call {ctx toCall args is} (hargs : ListReads ctx args is) :
      Reads ctx (.call toCall args) (is ++ [.call (funcIndex toCall)])
  | callIndirect {ctx args is index js} {tableIndex functionType : BitVec 32} {tailCall : Bool}
      (hargs : ListReads ctx args is) (hindex : Reads ctx index js) :
      Reads ctx (.callIndirect tableIndex index args functionType tailCall)
        (is ++ js ++ [if tailCall then .returnCallIndirect functionType.toNat tableIndex.toNat
          else .callIndirect functionType.toNat tableIndex.toNat])
  | const {ctx} (literal : Literal) : Reads ctx (.const literal) [literal.instr]
  | load {ctx addr is} (op : LoadOp) {align offset : BitVec 32} (haddr : Reads ctx addr is) :
      Reads ctx (.load op addr align offset)
        (is ++ [.load op.code ⟨align.toNat, offset.toNat⟩])
  | store {ctx addr is value js} (op : StoreOp) {align offset : BitVec 32}
      (haddr : Reads ctx addr is) (hvalue : Reads ctx value js) :
      Reads ctx (.store op addr value align offset)
        (is ++ js ++ [.store op.code ⟨align.toNat, offset.toNat⟩])
  | select {ctx condition trueExpr falseExpr is js ks} (htrue : Reads ctx trueExpr is)
      (hfalse : Reads ctx falseExpr js) (hcondition : Reads ctx condition ks) :
      Reads ctx (.select condition trueExpr falseExpr) (is ++ js ++ ks ++ [.select])
  | getLocal {ctx} (index : BitVec 32) : Reads ctx (.getLocal index) [.localGet index.toNat]
  | setLocal {ctx value is} (index : BitVec 32) (hvalue : Reads ctx value is) :
      Reads ctx (.setLocal index value) (is ++ [.localSet index.toNat])
  | unaryOp {ctx arg is} (op : UnaryOp) (harg : Reads ctx arg is) :
      Reads ctx (.unaryOp op arg) (is ++ [UnaryOp.instr op])
  | binaryOp {ctx left is right js} (op : BinaryOp) (hleft : Reads ctx left is)
      (hright : Reads ctx right js) :
      Reads ctx (.binaryOp op left right) (is ++ js ++ [.numeric op.code])
  | block {ctx self type bt exprs is} (htype : blocks type bt)
      (hexprs : ListReads (some self :: ctx) exprs is) :
      Reads ctx (.block self type false exprs) [.block bt is]
  | loop {ctx self type bt exprs is} (htype : blocks type bt)
      (hexprs : ListReads (some self :: ctx) exprs is) :
      Reads ctx (.block self type true exprs) [.loop bt is]
  | ifElse {ctx self type bt condition trueExpr falseExpr is js ks} (htype : blocks type bt)
      (hcondition : Reads ctx condition is) (htrue : Reads (some self :: ctx) trueExpr js)
      (hfalse : OptionReads (some self :: ctx) falseExpr ks) :
      Reads ctx (.ifElse self type condition trueExpr falseExpr) (is ++ [.ifElse bt js ks])
  | br {ctx breakTo label} (hlabel : ctx[label]? = some breakTo) :
      Reads ctx (.br none breakTo) [.br label]
  | brIf {ctx condition is breakTo label} (hcondition : Reads ctx condition is)
      (hlabel : ctx[label]? = some breakTo) :
      Reads ctx (.br (some condition) breakTo) (is ++ [.brIf label])
  | brTable {ctx condition is exprs labels dflt label} (hcondition : Reads ctx condition is)
      (hlabels : List.Forall₂ (fun breakTo label => ctx[label]? = some breakTo) exprs labels)
      (hlabel : ctx[label]? = some dflt) :
      Reads ctx (.brTable condition exprs dflt) (is ++ [.brTable labels label])

inductive ListReads : List Label → List Expr → List Instr → Prop
  | nil {ctx} : ListReads ctx [] []
  | cons {ctx expr is exprs js} (hexpr : Reads ctx expr is) (hexprs : ListReads ctx exprs js) :
      ListReads ctx (expr :: exprs) (is ++ js)

inductive OptionReads : List Label → Option Expr → List Instr → Prop
  | none {ctx} : OptionReads ctx none []
  | some {ctx expr is} (hexpr : Reads ctx expr is) : OptionReads ctx (some expr) is

end

end

variable {bs : List UInt8} {i : Instr}

theorem emits_writeByte {op : Nat} (hlt : op < 256) (hop : op < 2 ∨ 5 < op ∧ op ≠ 0x0B)
    (h : Decodes (plainInstr op) bs i) : Emits (writeByte op ++ bs) [i] := by
  have hbyte : (UInt8.ofNat op).toNat = op := toNat_ofNat_of_lt hlt
  refine emits_of_plain ?_ ?_
  · rwa [hbyte]
  · rwa [hbyte]

/-- An instruction that is its opcode. -/
theorem emits_opcode {op : Nat} (hlt : op < 256) (hop : op < 2 ∨ 5 < op ∧ op ≠ 0x0B)
    (h : Decodes (plainInstr op) [] i) : Emits (writeByte op) [i] := by
  simpa using emits_writeByte hlt hop h

theorem plainInstr_numeric {op : Nat} (h : 0x45 ≤ op ∧ op ≤ 0xC4) :
    plainInstr op = pure (.numeric op) := by
  unfold plainInstr
  exact if_pos h

theorem emits_binaryOp (op : BinaryOp) : Emits (writeByte op.code) [.numeric op.code] := by
  have hrange : ∀ c ∈ binaryOpKinds, 0x45 ≤ c ∧ c ≤ 0xC4 := by decide
  obtain ⟨hlow, hhigh⟩ := hrange _ op.listed
  refine emits_opcode (by omega) (by omega) ?_
  rw [plainInstr_numeric ⟨hlow, hhigh⟩]
  exact decodes_pure _

theorem emits_unaryOp (op : UnaryOp) :
    Emits ((if 0xFF < op.code then writeByte 0xFC else []) ++ writeByte (op.code &&& 0xFF))
      [UnaryOp.instr op] := by
  have hrange : ∀ c ∈ unaryOpKinds,
      (0x45 ≤ c ∧ c ≤ 0xC4 ∧ c &&& 0xFF = c) ∨ (0xFF < c ∧ c &&& 0xFF ≤ 7) := by decide
  rcases hrange _ op.listed with ⟨hlow, hhigh, hbyte⟩ | ⟨hext, hop⟩
  · rw [UnaryOp.instr, if_neg (by omega), if_neg (by omega), hbyte, List.nil_append]
    refine emits_opcode (by omega) (by omega) ?_
    rw [plainInstr_numeric ⟨hlow, hhigh⟩]
    exact decodes_pure _
  · rw [UnaryOp.instr, if_pos hext, if_pos hext]
    refine emits_writeByte (by decide) (by decide) ?_
    have hbyte : (UInt8.ofNat (op.code &&& 0xFF)).toNat = op.code &&& 0xFF :=
      toNat_ofNat_of_lt (by omega)
    have := decodes_uN_last (b := UInt8.ofNat (op.code &&& 0xFF)) (N := 32) (by omega) (by omega)
    rw [hbyte] at this
    exact this.bind_nil (Decodes.ensure_bind hop (decodes_pure _))

theorem emits_const (literal : Literal) :
    Emits (writeByte literal.kind ++ writeLiteral literal) [literal.instr] := by
  refine emits_writeByte ?_ ?_ ?_
  · cases literal <;> simp [Literal.kind]
  · cases literal <;> simp [Literal.kind]
  · cases literal with
    | i32 value =>
      exact (decodes_wasmWriteint _ (by decide) (BitVec.le_toInt value)
        BitVec.toInt_lt).map Instr.i32Const
    | i64 value =>
      exact (decodes_wasmWriteint _ (by decide) (BitVec.le_toInt value)
        BitVec.toInt_lt).map Instr.i64Const
    | f32 bits => exact (decodes_writeLittleEndian 4 bits.isLt).map Instr.f32Const
    | f64 bits => exact (decodes_writeLittleEndian 8 bits.isLt).map Instr.f64Const

theorem decodes_memArg {align offset : BitVec 32} (halign : align.toNat < 128)
    (hoffset : 0 ≤ offset.toInt) :
    Decodes memArg (writeByte align.toNat ++ writeInt32 offset) ⟨align.toNat, offset.toNat⟩ := by
  have hbyte : (UInt8.ofNat align.toNat).toNat = align.toNat := toNat_ofNat_of_lt (by omega)
  have := decodes_uN_last (b := UInt8.ofNat align.toNat) (N := 32) (by omega) (by omega)
  rw [hbyte] at this
  exact this.bind ((decodes_writeInt32 hoffset).bind_nil (decodes_pure _))

theorem emits_load (op : LoadOp) {align offset : BitVec 32} (halign : align.toNat < 128)
    (hoffset : 0 ≤ offset.toInt) :
    Emits (writeByte op.code ++ (writeByte align.toNat ++ writeInt32 offset))
      [.load op.code ⟨align.toNat, offset.toNat⟩] := by
  have hrange : ∀ c ∈ loadOpKinds, 0x28 ≤ c ∧ c ≤ 0x35 := by decide
  have hop := hrange _ op.listed
  refine emits_writeByte (by omega) (by omega) ?_
  unfold plainInstr
  rw [if_neg (by omega), if_pos hop]
  exact (decodes_memArg halign hoffset).map _

theorem emits_store (op : StoreOp) {align offset : BitVec 32} (halign : align.toNat < 128)
    (hoffset : 0 ≤ offset.toInt) :
    Emits (writeByte op.code ++ (writeByte align.toNat ++ writeInt32 offset))
      [.store op.code ⟨align.toNat, offset.toNat⟩] := by
  have hrange : ∀ c ∈ storeOpKinds, 0x36 ≤ c ∧ c ≤ 0x3E := by decide
  have hop := hrange _ op.listed
  refine emits_writeByte (by omega) (by omega) ?_
  unfold plainInstr
  rw [if_neg (by omega), if_neg (by omega), if_pos hop]
  exact (decodes_memArg halign hoffset).map _

theorem walkToFindLabel_spec {breakTo : Label} : ∀ {ctx : List Label}, breakTo ∈ ctx →
    walkToFindLabel ctx breakTo < ctx.length ∧
      ctx[walkToFindLabel ctx breakTo]? = some breakTo
  | block :: ctx, h => by
    rw [walkToFindLabel]
    split
    · rename_i heq
      exact ⟨Nat.succ_pos _, by simpa using heq⟩
    · rename_i hne
      have hmem := (List.mem_cons.mp h).resolve_left (Ne.symm hne)
      obtain ⟨hlt, hget⟩ := walkToFindLabel_spec hmem
      exact ⟨Nat.succ_lt_succ hlt, by simpa using hget⟩

theorem length_wasmWriteuint_pos (v : Nat) : 0 < (wasmWriteuint v).length := by
  rw [wasmWriteuint]
  split <;> simp [writeByte]

/-- What is written in at least a byte each is no more than the bytes. -/
theorem length_le_flatMap {α : Type} {w : α → List UInt8} :
    ∀ {l : List α}, (∀ x ∈ l, 0 < (w x).length) → l.length ≤ (l.flatMap w).length
  | [], _ => Nat.le_refl 0
  | x :: l, h => by
    have hx := h x List.mem_cons_self
    have hl := length_le_flatMap fun y hy => h y (List.mem_cons_of_mem _ hy)
    rw [List.flatMap_cons, List.length_append, List.length_cons]
    omega

theorem decodes_label {breakTo : Label} {ctx : List Label} (h : breakTo ∈ ctx)
    (hctx : ctx.length < 2 ^ 32) :
    Decodes (uN 32) (wasmWriteuint (walkToFindLabel ctx breakTo))
      (walkToFindLabel ctx breakTo) :=
  decodes_wasmWriteuint ((walkToFindLabel_spec h).1.trans hctx)

theorem emits_brTable {ctx : List Label} {exprs : List Label} {dflt : Label}
    (hexprs : ∀ breakTo ∈ exprs, breakTo ∈ ctx) (hdflt : dflt ∈ ctx) (hctx : ctx.length < 2 ^ 32)
    (hlen : exprs.length < 2 ^ 32) :
    Emits (writeByte 0x0E ++ (wasmWriteuint exprs.length ++
        exprs.flatMap (fun breakTo => wasmWriteuint (walkToFindLabel ctx breakTo)) ++
        wasmWriteuint (walkToFindLabel ctx dflt)))
      [.brTable (exprs.map (walkToFindLabel ctx)) (walkToFindLabel ctx dflt)] := by
  refine emits_writeByte (by decide) (by decide) ?_
  have hlabels := Decodes.vec (decodes_wasmWriteuint hlen)
    fun breakTo h => decodes_label (hexprs breakTo h) hctx
  exact hlabels.bind ((decodes_label hdflt hctx).bind_nil (decodes_pure _))

theorem emits_callIndirect {tableIndex : BitVec 32} (functionType : BitVec 32) (tailCall : Bool)
    (htable : 0 ≤ tableIndex.toInt) :
    Emits (writeByte (if tailCall then 0x13 else 0x11) ++
        (wasmWriteuint functionType.toNat ++ writeInt32 tableIndex))
      [if tailCall then .returnCallIndirect functionType.toNat tableIndex.toNat
        else .callIndirect functionType.toNat tableIndex.toNat] := by
  have hargs {f : Nat → Nat → Instr} : Decodes
      (uN 32 >>= fun type => uN 32 >>= fun table => pure (f type table))
      (wasmWriteuint functionType.toNat ++ writeInt32 tableIndex)
      (f functionType.toNat tableIndex.toNat) :=
    (decodes_wasmWriteuint functionType.isLt).bind
      ((decodes_writeInt32 htable).bind_nil (decodes_pure _))
  cases tailCall
  · exact emits_writeByte (by decide) (by decide) hargs
  · exact emits_writeByte (by decide) (by decide) hargs

/-- Once the functions are numbered, a pointer leads to the index. -/
def Indexed (m m' : Module) (funcIndex : FnRef → Nat) : Prop :=
  ∀ fn, m.Knows fn → m'.indexOf fn = funcIndex fn ∧ funcIndex fn < 2 ^ 32

variable {m m' : Module} {funcIndex : FnRef → Nat} {blocks : WasmType → BlockType → Prop}

mutual

/-- The bytes of an expression are instructions that mean it.  The depth of a branch fits in its
number because every enclosing block has bytes of its own. -/
theorem emits_expression (hidx : Indexed m m' funcIndex) (hblocks : ∀ type, blocks type .empty) :
    ∀ {ctx : List Label} (expr : Expr), expr.Valid m ctx →
    ctx.length + (serializeExpression m' ctx expr).length < 2 ^ 32 →
      ∃ is, Reads funcIndex blocks ctx expr is ∧ Emits (serializeExpression m' ctx expr) is
  | ctx, .drop, _, _ =>
    ⟨_, .drop, emits_opcode (by decide) (by decide) (decodes_pure Instr.drop)⟩
  | ctx, .unreachable, _, _ =>
    ⟨_, .unreachable, emits_opcode (by decide) (by decide) (decodes_pure Instr.unreachable)⟩
  | ctx, .ret value, hvalid, hlen => by
    simp only [Expr.Valid] at hvalid
    simp only [serializeExpression, List.length_append] at hlen
    obtain ⟨is, hreads, hemits⟩ := emits_option hidx hblocks value hvalid (by omega)
    refine ⟨_, .ret hreads, ?_⟩
    rw [serializeExpression]
    exact hemits.append (emits_opcode (by decide) (by decide) (decodes_pure Instr.ret))
  | ctx, .call toCall args, hvalid, hlen => by
    simp only [Expr.Valid] at hvalid
    simp only [serializeExpression, List.length_append] at hlen
    obtain ⟨is, hreads, hemits⟩ := emits_expressions hidx hblocks args hvalid.2 (by omega)
    obtain ⟨hindex, hlt⟩ := hidx toCall hvalid.1
    refine ⟨_, .call hreads, ?_⟩
    rw [serializeExpression, List.append_assoc, hindex]
    exact hemits.append
      (emits_writeByte (by decide) (by decide) ((decodes_wasmWriteuint hlt).map Instr.call))
  | ctx, .callIndirect tableIndex index args functionType tailCall, hvalid, hlen => by
    simp only [Expr.Valid] at hvalid
    simp only [serializeExpression, List.length_append] at hlen
    obtain ⟨htable, hargs, hindex⟩ := hvalid
    obtain ⟨is, hreads, hemits⟩ := emits_expressions hidx hblocks args hargs (by omega)
    obtain ⟨js, hreads', hemits'⟩ := emits_expression hidx hblocks index hindex (by omega)
    refine ⟨_, .callIndirect hreads hreads', ?_⟩
    simpa only [serializeExpression, List.append_assoc] using
      (hemits.append hemits').append (emits_callIndirect functionType tailCall htable)
  | ctx, .const literal, _, _ => by
    rw [serializeExpression]
    exact ⟨_, .const literal, emits_const literal⟩
  | ctx, .load op addr align offset, hvalid, hlen => by
    simp only [Expr.Valid] at hvalid
    simp only [serializeExpression, List.length_append] at hlen
    obtain ⟨halign, hoffset, haddr⟩ := hvalid
    obtain ⟨is, hreads, hemits⟩ := emits_expression hidx hblocks addr haddr (by omega)
    refine ⟨_, .load op hreads, ?_⟩
    simpa only [serializeExpression, List.append_assoc] using
      hemits.append (emits_load op halign hoffset)
  | ctx, .store op addr value align offset, hvalid, hlen => by
    simp only [Expr.Valid] at hvalid
    simp only [serializeExpression, List.length_append] at hlen
    obtain ⟨halign, hoffset, haddr, hvalue⟩ := hvalid
    obtain ⟨is, hreads, hemits⟩ := emits_expression hidx hblocks addr haddr (by omega)
    obtain ⟨js, hreads', hemits'⟩ := emits_expression hidx hblocks value hvalue (by omega)
    refine ⟨_, .store op hreads hreads', ?_⟩
    simpa only [serializeExpression, List.append_assoc] using
      (hemits.append hemits').append (emits_store op halign hoffset)
  | ctx, .select condition trueExpr falseExpr, hvalid, hlen => by
    simp only [Expr.Valid] at hvalid
    simp only [serializeExpression, List.length_append] at hlen
    obtain ⟨htrue, hfalse, hcondition⟩ := hvalid
    obtain ⟨is, hreads, hemits⟩ := emits_expression hidx hblocks trueExpr htrue (by omega)
    obtain ⟨js, hreads', hemits'⟩ := emits_expression hidx hblocks falseExpr hfalse (by omega)
    obtain ⟨ks, hreads'', hemits''⟩ := emits_expression hidx hblocks condition hcondition (by omega)
    refine ⟨_, .select hreads hreads' hreads'', ?_⟩
    rw [serializeExpression]
    exact ((hemits.append hemits').append hemits'').append
      (emits_opcode (by decide) (by decide) (decodes_pure Instr.select))
  | ctx, .getLocal index, _, _ => by
    rw [serializeExpression]
    exact ⟨_, .getLocal index, emits_writeByte (by decide) (by decide)
      ((decodes_wasmWriteuint index.isLt).map Instr.localGet)⟩
  | ctx, .setLocal index value, hvalid, hlen => by
    simp only [Expr.Valid] at hvalid
    simp only [serializeExpression, List.length_append] at hlen
    obtain ⟨is, hreads, hemits⟩ := emits_expression hidx hblocks value hvalid (by omega)
    refine ⟨_, .setLocal index hreads, ?_⟩
    rw [serializeExpression, List.append_assoc]
    exact hemits.append (emits_writeByte (by decide) (by decide)
      ((decodes_wasmWriteuint index.isLt).map Instr.localSet))
  | ctx, .unaryOp op arg, hvalid, hlen => by
    simp only [Expr.Valid] at hvalid
    simp only [serializeExpression, List.length_append] at hlen
    obtain ⟨is, hreads, hemits⟩ := emits_expression hidx hblocks arg hvalid (by omega)
    refine ⟨_, .unaryOp op hreads, ?_⟩
    rw [serializeExpression, List.append_assoc]
    exact hemits.append (emits_unaryOp op)
  | ctx, .binaryOp op left right, hvalid, hlen => by
    simp only [Expr.Valid] at hvalid
    simp only [serializeExpression, List.length_append] at hlen
    obtain ⟨is, hreads, hemits⟩ := emits_expression hidx hblocks left hvalid.1 (by omega)
    obtain ⟨js, hreads', hemits'⟩ := emits_expression hidx hblocks right hvalid.2 (by omega)
    refine ⟨_, .binaryOp op hreads hreads', ?_⟩
    rw [serializeExpression]
    exact (hemits.append hemits').append (emits_binaryOp op)
  | ctx, .block self type isLoop exprs, hvalid, hlen => by
    simp only [Expr.Valid] at hvalid
    simp only [serializeExpression, List.length_append, writeByte, List.length_singleton] at hlen
    obtain ⟨is, hreads, hemits⟩ := emits_expressions hidx hblocks exprs hvalid (by
      rw [List.length_cons]
      omega)
    rw [serializeExpression]
    cases isLoop
    · exact ⟨_, .block (hblocks type) hreads, emits_block hemits⟩
    · exact ⟨_, .loop (hblocks type) hreads, emits_loop hemits⟩
  | ctx, .ifElse self type condition trueExpr none, hvalid, hlen => by
    simp only [Expr.Valid] at hvalid
    simp only [serializeExpression, List.length_append, writeByte, List.length_singleton] at hlen
    obtain ⟨hcondition, htrue, -⟩ := hvalid
    obtain ⟨is, hreads, hemits⟩ := emits_expression hidx hblocks condition hcondition (by omega)
    obtain ⟨js, hreads', hemits'⟩ := emits_expression hidx hblocks trueExpr htrue (by
      rw [List.length_cons]
      omega)
    refine ⟨_, .ifElse (hblocks type) hreads hreads' .none, ?_⟩
    simpa [serializeExpression, serializeElse, writeByte] using hemits.append (emits_if hemits')
  | ctx, .ifElse self type condition trueExpr (some falseExpr), hvalid, hlen => by
    simp only [Expr.Valid, OptionValid] at hvalid
    simp only [serializeExpression, serializeElse, List.length_append, writeByte,
      List.length_singleton] at hlen
    obtain ⟨hcondition, htrue, hfalse⟩ := hvalid
    obtain ⟨is, hreads, hemits⟩ := emits_expression hidx hblocks condition hcondition (by omega)
    obtain ⟨js, hreads', hemits'⟩ := emits_expression hidx hblocks trueExpr htrue (by
      rw [List.length_cons]
      omega)
    obtain ⟨ks, hreads'', hemits''⟩ := emits_expression hidx hblocks falseExpr hfalse (by
      rw [List.length_cons]
      omega)
    refine ⟨_, .ifElse (hblocks type) hreads hreads' (.some hreads''), ?_⟩
    simpa [serializeExpression, serializeElse, writeByte] using
      hemits.append (emits_ifElse hemits' hemits'')
  | ctx, .br none breakTo, hvalid, hlen => by
    simp only [Expr.Valid] at hvalid
    refine ⟨_, .br (walkToFindLabel_spec hvalid.2).2, ?_⟩
    rw [serializeExpression]
    exact emits_writeByte (by decide) (by decide)
      ((decodes_label hvalid.2 (by omega)).map Instr.br)
  | ctx, .br (some condition) breakTo, hvalid, hlen => by
    simp only [Expr.Valid, OptionValid] at hvalid
    simp only [serializeExpression, serializeOption, List.length_append] at hlen
    obtain ⟨is, hreads, hemits⟩ := emits_expression hidx hblocks condition hvalid.1 (by omega)
    refine ⟨_, .brIf hreads (walkToFindLabel_spec hvalid.2).2, ?_⟩
    rw [serializeExpression, serializeOption, List.append_assoc]
    have hbrIf : Emits (writeByte 0x0D ++ wasmWriteuint (walkToFindLabel ctx breakTo)) _ :=
      emits_writeByte (by decide) (by decide)
        ((decodes_label hvalid.2 (by omega)).map Instr.brIf)
    exact hemits.append hbrIf
  | ctx, .brTable condition exprs dflt, hvalid, hlen => by
    simp only [Expr.Valid] at hvalid
    simp only [serializeExpression, List.length_append] at hlen
    obtain ⟨hcondition, hexprs, hdflt⟩ := hvalid
    obtain ⟨is, hreads, hemits⟩ := emits_expression hidx hblocks condition hcondition (by omega)
    have hlabels : List.Forall₂ (fun breakTo label => ctx[label]? = some breakTo) exprs
        (exprs.map (walkToFindLabel ctx)) :=
      List.forall₂_map_right_iff.mpr
        (List.forall₂_same.mpr fun breakTo h => (walkToFindLabel_spec (hexprs breakTo h)).2)
    have hcount : exprs.length
        ≤ (exprs.flatMap fun breakTo => wasmWriteuint (walkToFindLabel ctx breakTo)).length :=
      length_le_flatMap fun _ _ => length_wasmWriteuint_pos _
    refine ⟨_, .brTable hreads hlabels (walkToFindLabel_spec hdflt).2, ?_⟩
    simpa only [serializeExpression, List.append_assoc] using
      hemits.append (emits_brTable hexprs hdflt (by omega) (by omega))

theorem emits_expressions (hidx : Indexed m m' funcIndex) (hblocks : ∀ type, blocks type .empty) :
    ∀ {ctx : List Label} (exprs : List Expr), ListValid m ctx exprs →
    ctx.length + (serializeExpressions m' ctx exprs).length < 2 ^ 32 →
      ∃ is, ListReads funcIndex blocks ctx exprs is ∧ Emits (serializeExpressions m' ctx exprs) is
  | _, [], _, _ => ⟨_, .nil, emits_nil⟩
  | ctx, expr :: exprs, hvalid, hlen => by
    simp only [ListValid] at hvalid
    simp only [serializeExpressions, List.length_append] at hlen
    obtain ⟨is, hreads, hemits⟩ := emits_expression hidx hblocks expr hvalid.1 (by omega)
    obtain ⟨js, hreads', hemits'⟩ := emits_expressions hidx hblocks exprs hvalid.2 (by omega)
    exact ⟨_, .cons hreads hreads', hemits.append hemits'⟩

theorem emits_option (hidx : Indexed m m' funcIndex) (hblocks : ∀ type, blocks type .empty) :
    ∀ {ctx : List Label} (expr : Option Expr), OptionValid m ctx expr →
    ctx.length + (serializeOption m' ctx expr).length < 2 ^ 32 →
      ∃ is, OptionReads funcIndex blocks ctx expr is ∧ Emits (serializeOption m' ctx expr) is
  | _, none, _, _ => ⟨_, .none, emits_nil⟩
  | ctx, some expr, hvalid, hlen => by
    simp only [OptionValid] at hvalid
    simp only [serializeOption] at hlen
    obtain ⟨is, hreads, hemits⟩ := emits_expression hidx hblocks expr hvalid hlen
    exact ⟨_, .some hreads, hemits⟩

end

end BJvm.WasmUtils
