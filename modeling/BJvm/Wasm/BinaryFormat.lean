import BJvm.Parsing.Decoder

/-!
# The binary format of WebAssembly

Modules as the binary grammar reads them: the types, imports, functions, exports and code, in this
order, with the instructions on numbers, locals, memory and control.  A section or a body is read
only from as many bytes as its size says.  The sections and instructions that are left out (tables
and globals of the module, vectors, references, bulk memory) are not decoded, so what is decoded
here is what the whole grammar decodes.

`Emits` says of bytes that they are instructions, wherever they stand in a sequence of them.
-/

namespace WasmBinary

open Decoding Decoding.Decoder

inductive ValType
  | i32 | i64 | f32 | f64 | v128 | funcref | externref
deriving DecidableEq, Repr

structure FuncType where
  params : List ValType
  results : List ValType
deriving DecidableEq, Repr

inductive BlockType
  | empty
  | value (type : ValType)
  | index (type : Nat)
deriving DecidableEq, Repr

/-- The type of a block as that of a function, given the types of the module. -/
def BlockType.funcType (types : List FuncType) : BlockType → Option FuncType
  | .empty => some ⟨[], []⟩
  | .value type => some ⟨[], [type]⟩
  | .index type => types[type]?

structure MemArg where
  align : Nat
  offset : Nat
deriving DecidableEq, Repr

/-- Instructions.  Loads, stores and operations on numbers are told apart by their opcodes. -/
inductive Instr
  | unreachable
  | nop
  | block (type : BlockType) (body : List Instr)
  | loop (type : BlockType) (body : List Instr)
  | ifElse (type : BlockType) (body : List Instr) (orElse : List Instr)
  | br (label : Nat)
  | brIf (label : Nat)
  | brTable (labels : List Nat) (default : Nat)
  | ret
  | call (func : Nat)
  | callIndirect (type table : Nat)
  | returnCall (func : Nat)
  | returnCallIndirect (type table : Nat)
  | drop
  | select
  | localGet (index : Nat)
  | localSet (index : Nat)
  | localTee (index : Nat)
  | globalGet (index : Nat)
  | globalSet (index : Nat)
  | load (op : Nat) (arg : MemArg)
  | store (op : Nat) (arg : MemArg)
  | i32Const (value : Int)
  | i64Const (value : Int)
  | f32Const (bits : Nat)
  | f64Const (bits : Nat)
  | numeric (op : Nat)
  | truncSat (op : Nat)
deriving Repr

structure Limits where
  min : Nat
  max : Option Nat
deriving DecidableEq, Repr

inductive ImportDesc
  | func (type : Nat)
  | table (elem : ValType) (limits : Limits)
  | mem (limits : Limits)
deriving DecidableEq, Repr

def ImportDesc.isFunc : ImportDesc → Bool
  | .func _ => true
  | _ => false

structure Import where
  moduleName : String
  name : String
  desc : ImportDesc
deriving DecidableEq, Repr

inductive ExportDesc
  | func (index : Nat)
  | table (index : Nat)
  | mem (index : Nat)
  | global (index : Nat)
deriving DecidableEq, Repr

structure Export where
  name : String
  desc : ExportDesc
deriving DecidableEq, Repr

/-- A function: the index of its type, its locals behind the parameters, and its body. -/
structure Func where
  type : Nat
  locals : List ValType
  body : List Instr
deriving Repr

structure Module where
  types : List FuncType
  imports : List Import
  funcs : List Func
  exports : List Export
deriving Repr

namespace Module

variable (m : Module)

/-- The imported functions, which are the first in the index space. -/
def funcImports : List Import := m.imports.filter fun i => i.desc.isFunc

/-- What the local of an index is: a parameter or one of the declared locals. -/
def localType (f : Func) (index : Nat) : Option ValType :=
  ((m.types[f.type]?.elim [] FuncType.params) ++ f.locals)[index]?

end Module

def valType : Decoder ValType := do
  match (← byte).toNat with
  | 0x7F => pure .i32
  | 0x7E => pure .i64
  | 0x7D => pure .f32
  | 0x7C => pure .f64
  | 0x7B => pure .v128
  | 0x70 => pure .funcref
  | 0x6F => pure .externref
  | _ => fail

def funcType : Decoder FuncType := do
  ensure ((← byte) = 0x60)
  let params ← vec valType
  let results ← vec valType
  pure ⟨params, results⟩

/-- A name is a string in UTF-8. -/
def name : Decoder String := do
  let bytes ← vec byte
  match String.fromUTF8? bytes.toByteArray with
  | some s => pure s
  | none => fail

def limits : Decoder Limits := do
  match (← byte).toNat with
  | 0x00 => do
    let min ← uN 32
    pure ⟨min, none⟩
  | 0x01 => do
    let min ← uN 32
    let max ← uN 32
    pure ⟨min, some max⟩
  | _ => fail

def importDesc : Decoder ImportDesc := do
  match (← byte).toNat with
  | 0x00 => do
    let type ← uN 32
    pure (.func type)
  | 0x01 => do
    let elem ← valType
    ensure (elem = .funcref ∨ elem = .externref)
    let limits ← limits
    pure (.table elem limits)
  | 0x02 => do
    let limits ← limits
    pure (.mem limits)
  | _ => fail

def importDecl : Decoder Import := do
  let moduleName ← name
  let name ← name
  let desc ← importDesc
  pure ⟨moduleName, name, desc⟩

def exportDesc : Decoder ExportDesc := do
  match (← byte).toNat with
  | 0x00 => do
    let index ← uN 32
    pure (.func index)
  | 0x01 => do
    let index ← uN 32
    pure (.table index)
  | 0x02 => do
    let index ← uN 32
    pure (.mem index)
  | 0x03 => do
    let index ← uN 32
    pure (.global index)
  | _ => fail

def exportDecl : Decoder Export := do
  let name ← name
  let desc ← exportDesc
  pure ⟨name, desc⟩

def blockType : Decoder BlockType := fun bs =>
  match bs with
  | [] => none
  | b :: rest =>
    if b = 0x40 then some (.empty, rest)
    else match valType bs with
      | some (t, rest) => some (.value t, rest)
      | none => match sN 33 bs with
        | some (i, rest) => if 0 ≤ i then some (.index i.toNat, rest) else none
        | none => none

def memArg : Decoder MemArg := do
  let align ← uN 32
  let offset ← uN 32
  pure ⟨align, offset⟩

/-- The little-endian number in the next `n` bytes. -/
def leNat : Nat → Decoder Nat
  | 0 => pure 0
  | n + 1 => do
    let b ← byte
    let high ← leNat n
    pure (b.toNat + 256 * high)

/-- What is behind the opcode of an instruction without a body. -/
def plainInstr (op : Nat) : Decoder Instr :=
  if 0x45 ≤ op ∧ op ≤ 0xC4 then pure (.numeric op)
  else if 0x28 ≤ op ∧ op ≤ 0x35 then .load op <$> memArg
  else if 0x36 ≤ op ∧ op ≤ 0x3E then .store op <$> memArg
  else match op with
    | 0x00 => pure .unreachable
    | 0x01 => pure .nop
    | 0x0C => .br <$> uN 32
    | 0x0D => .brIf <$> uN 32
    | 0x0E => do
      let labels ← vec (uN 32)
      let default ← uN 32
      pure (.brTable labels default)
    | 0x0F => pure .ret
    | 0x10 => .call <$> uN 32
    | 0x11 => do
      let type ← uN 32
      let table ← uN 32
      pure (.callIndirect type table)
    | 0x12 => .returnCall <$> uN 32
    | 0x13 => do
      let type ← uN 32
      let table ← uN 32
      pure (.returnCallIndirect type table)
    | 0x1A => pure .drop
    | 0x1B => pure .select
    | 0x20 => .localGet <$> uN 32
    | 0x21 => .localSet <$> uN 32
    | 0x22 => .localTee <$> uN 32
    | 0x23 => .globalGet <$> uN 32
    | 0x24 => .globalSet <$> uN 32
    | 0x41 => .i32Const <$> sN 32
    | 0x42 => .i64Const <$> sN 64
    | 0x43 => .f32Const <$> leNat 4
    | 0x44 => .f64Const <$> leNat 8
    | 0xFC => do
      let op ← uN 32
      ensure (op ≤ 7)
      pure (.truncSat op)
    | _ => fail

/-- The byte that ends a sequence of instructions. -/
inductive Terminator
  | finish
  | orElse
deriving DecidableEq, Repr

/-- An instruction behind its opcode, given how the bodies in it are read. -/
def instr (body : Decoder (List Instr × Terminator)) (op : Nat) : Decoder Instr :=
  match op with
  | 0x02 => do
    let type ← blockType
    let is ← body
    ensure (is.2 = .finish)
    pure (.block type is.1)
  | 0x03 => do
    let type ← blockType
    let is ← body
    ensure (is.2 = .finish)
    pure (.loop type is.1)
  | 0x04 => do
    let type ← blockType
    let is ← body
    match is.2 with
    | .finish => pure (.ifElse type is.1 [])
    | .orElse => do
      let orElse ← body
      ensure (orElse.2 = .finish)
      pure (.ifElse type is.1 orElse.1)
  | op => plainInstr op

/-- Instructions and the byte that ends them, with a bound on how many are read. -/
def instrs : Nat → Decoder (List Instr × Terminator)
  | 0 => fail
  | fuel + 1 => do
    let op ← byte
    if op = 0x0B then pure ([], .finish)
    else if op = 0x05 then pure ([], .orElse)
    else do
      let i ← instr (instrs fuel) op.toNat
      let is ← instrs fuel
      pure (i :: is.1, is.2)

/-- There are no more instructions than bytes. -/
def expr : Decoder (List Instr) := fun bs =>
  match instrs bs.length bs with
  | some ((is, .finish), rest) => some (is, rest)
  | _ => none

/-- A run of locals of one type. -/
def locals : Decoder (List ValType) := do
  let n ← uN 32
  let type ← valType
  pure (List.replicate n type)

def code : Decoder (List ValType × List Instr) :=
  sized do
    let runs ← vec locals
    ensure (runs.flatten.length < 2 ^ 32)
    let body ← expr
    pure (runs.flatten, body)

/-- A section, which may be absent. -/
def sectionOf {α : Type} (id : UInt8) (d : Decoder α) (absent : α) : Decoder α
  | [] => some (absent, [])
  | b :: bs => if b = id then sized d bs else some (absent, b :: bs)

def header : List UInt8 := [0x00, 0x61, 0x73, 0x6D, 0x01, 0x00, 0x00, 0x00]

def wasmModule : Decoder Module := do
  ensure ((← times byte 8) = header)
  let types ← sectionOf 1 (vec funcType) []
  let imports ← sectionOf 2 (vec importDecl) []
  let funcs ← sectionOf 3 (vec (uN 32)) []
  let exports ← sectionOf 7 (vec exportDecl) []
  let codes ← sectionOf 10 (vec code) []
  ensure (funcs.length = codes.length)
  pure ⟨types, imports, funcs.zipWith (fun type c => ⟨type, c.1, c.2⟩) codes, exports⟩

theorem instrs_finish (k : Nat) (rest : List UInt8) :
    instrs (k + 1) (0x0B :: rest) = some (([], .finish), rest) := rfl

theorem instrs_orElse (k : Nat) (rest : List UInt8) :
    instrs (k + 1) (0x05 :: rest) = some (([], .orElse), rest) := rfl

theorem instrs_cons {k : Nat} {op : UInt8} {bs rest rest' : List UInt8} {i : Instr}
    {is : List Instr} {t : Terminator} (hfinish : op ≠ 0x0B) (helse : op ≠ 0x05)
    (hi : instr (instrs k) op.toNat bs = some (i, rest))
    (his : instrs k rest = some ((is, t), rest')) :
    instrs (k + 1) (op :: bs) = some ((i :: is, t), rest') := by
  have hop : instrs (k + 1) (op :: bs)
      = (instr (instrs k) op.toNat >>= fun i => instrs k >>= fun is =>
          pure (i :: is.1, is.2) : Decoder _) bs := by
    change (ite (op = 0x0B) _ (ite (op = 0x05) _ _) : Decoder _) bs = _
    rw [if_neg hfinish, if_neg helse]
  rw [hop]
  change (instr (instrs k) op.toNat bs).bind _ = _
  rw [hi]
  change (instrs k rest).bind _ = _
  rw [his]
  rfl

/-- From `fuel` on, the bytes are read so. -/
def Ends (fuel : Nat) (bs : List UInt8) (out : (List Instr × Terminator) × List UInt8) : Prop :=
  ∀ k, fuel ≤ k → instrs k bs = some out

/-- The bytes are the instructions, in front of any others. -/
def Emits (bs : List UInt8) (is : List Instr) : Prop :=
  ∀ ⦃fuel rest l t rest'⦄, Ends fuel rest ((l, t), rest') →
    Ends (fuel + bs.length) (bs ++ rest) ((is ++ l, t), rest')

theorem ends_finish (rest : List UInt8) : Ends 1 (0x0B :: rest) (([], .finish), rest)
  | _ + 1, _ => instrs_finish _ rest

theorem ends_orElse (rest : List UInt8) : Ends 1 (0x05 :: rest) (([], .orElse), rest)
  | _ + 1, _ => instrs_orElse _ rest

variable {bs bs' : List UInt8} {is is' : List Instr} {i : Instr}

theorem emits_nil : Emits [] [] := fun _ _ _ _ _ h => h

theorem Emits.append (h : Emits bs is) (h' : Emits bs' is') : Emits (bs ++ bs') (is ++ is') := by
  intro fuel rest l t rest' hrest
  have := h (h' hrest)
  rwa [List.length_append, List.append_assoc, List.append_assoc, Nat.add_comm bs.length,
    ← Nat.add_assoc]

/-- The body of a block is read up to its end. -/
theorem Emits.finish (h : Emits bs is) {k : Nat} (hk : bs.length < k) (rest : List UInt8) :
    instrs k (bs ++ 0x0B :: rest) = some ((is, .finish), rest) := by
  simpa using h (ends_finish rest) k (by omega)

theorem Emits.orElse (h : Emits bs is) {k : Nat} (hk : bs.length < k) (rest : List UInt8) :
    instrs k (bs ++ 0x05 :: rest) = some ((is, .orElse), rest) := by
  simpa using h (ends_orElse rest) k (by omega)

/-- The bytes of a body and its end are the expression of a function. -/
theorem Emits.expr (h : Emits bs is) : Decodes expr (bs ++ [0x0B]) is := by
  intro rest
  have hlen : bs.length < (bs ++ [0x0B] ++ rest).length := by
    simp only [List.length_append, List.length_singleton]
    omega
  unfold WasmBinary.expr
  rw [List.append_assoc, List.singleton_append] at hlen ⊢
  rw [h.finish hlen]

/-- An instruction whose parts are read in enough fuel is read in front of others. -/
theorem emits_of_instr (op : UInt8) (bs : List UInt8) (hfinish : op ≠ 0x0B) (helse : op ≠ 0x05)
    (h : ∀ k, bs.length ≤ k → Decodes (instr (instrs k) op.toNat) bs i) :
    Emits (op :: bs) [i] := by
  intro fuel rest l t rest' hrest k hk
  rw [List.length_cons] at hk
  obtain ⟨k, rfl⟩ : ∃ j, k = j + 1 := ⟨k - 1, by omega⟩
  exact instrs_cons hfinish helse (h k (by omega) rest) (hrest k (by omega))

theorem instr_eq_plainInstr {body : Decoder (List Instr × Terminator)} {op : Nat}
    (h : op < 2 ∨ 4 < op) : instr body op = plainInstr op := by
  unfold instr
  split
  · omega
  · omega
  · omega
  · rfl

theorem emits_of_plain {op : UInt8} (hop : op.toNat < 2 ∨ 5 < op.toNat ∧ op.toNat ≠ 0x0B)
    (h : Decodes (plainInstr op.toNat) bs i) : Emits (op :: bs) [i] := by
  have hfinish : op ≠ 0x0B := by
    rintro rfl
    simp at hop
  have helse : op ≠ 0x05 := by
    rintro rfl
    simp at hop
  refine emits_of_instr op bs hfinish helse fun k _ => ?_
  rwa [instr_eq_plainInstr (by omega)]

theorem decodes_blockType_empty : Decodes blockType [0x40] .empty := fun _ => rfl

/-- A body up to its end is read like anything else. -/
theorem Emits.decodes_body (h : Emits bs is) {k : Nat} (hk : bs.length < k) :
    Decodes (instrs k) (bs ++ [0x0B]) (is, .finish) := by
  intro rest
  rw [List.append_assoc, List.singleton_append]
  exact h.finish hk rest

theorem emits_block (h : Emits bs is) :
    Emits (0x02 :: 0x40 :: bs ++ [0x0B]) [.block .empty is] := by
  refine emits_of_instr 0x02 (0x40 :: (bs ++ [0x0B])) (by decide) (by decide) fun k hk => ?_
  simp only [List.length_cons, List.length_append] at hk
  refine decodes_blockType_empty.bind ?_
  refine (h.decodes_body (by omega)).bind_nil ?_
  exact Decodes.ensure_bind rfl (decodes_pure _)

theorem emits_loop (h : Emits bs is) :
    Emits (0x03 :: 0x40 :: bs ++ [0x0B]) [.loop .empty is] := by
  refine emits_of_instr 0x03 (0x40 :: (bs ++ [0x0B])) (by decide) (by decide) fun k hk => ?_
  simp only [List.length_cons, List.length_append] at hk
  refine decodes_blockType_empty.bind ?_
  refine (h.decodes_body (by omega)).bind_nil ?_
  exact Decodes.ensure_bind rfl (decodes_pure _)

theorem emits_if (h : Emits bs is) :
    Emits (0x04 :: 0x40 :: bs ++ [0x0B]) [.ifElse .empty is []] := by
  refine emits_of_instr 0x04 (0x40 :: (bs ++ [0x0B])) (by decide) (by decide) fun k hk => ?_
  simp only [List.length_cons, List.length_append] at hk
  refine decodes_blockType_empty.bind ?_
  exact (h.decodes_body (by omega)).bind_nil (decodes_pure _)

theorem emits_ifElse (h : Emits bs is) (h' : Emits bs' is') :
    Emits (0x04 :: 0x40 :: bs ++ 0x05 :: bs' ++ [0x0B]) [.ifElse .empty is is'] := by
  have heq : (0x04 :: 0x40 :: bs ++ 0x05 :: bs' ++ [0x0B] : List UInt8)
      = 0x04 :: ([0x40] ++ ((bs ++ [0x05]) ++ (bs' ++ [0x0B]))) := by simp
  rw [heq]
  refine emits_of_instr 0x04 _ (by decide) (by decide) fun k hk => ?_
  simp only [List.length_cons, List.length_append, List.length_nil] at hk
  have hbody : Decodes (instrs k) (bs ++ [0x05]) (is, .orElse) := fun rest => by
    rw [List.append_assoc, List.singleton_append]
    exact h.orElse (by omega) rest
  refine decodes_blockType_empty.bind (hbody.bind ?_)
  refine (h'.decodes_body (by omega)).bind_nil ?_
  exact Decodes.ensure_bind rfl (decodes_pure _)

end WasmBinary
