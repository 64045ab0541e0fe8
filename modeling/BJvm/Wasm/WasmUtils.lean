import BJvm.Wasm.BinaryFormat
import Mathlib.Logic.Relation

/-!
# Building and writing WebAssembly modules

The module builder of the compiler: types, imported and own functions, and expressions, which are
trees when the module is written.  A pointer to a tuple type is its place among the interned ones,
a pointer to a function its place among the imports or the functions of the module, and a pointer
to a block is the identity the block carries, so `wasm_update_block` fills a block in and leaves
the branches to it as they are.

Writing a module gives every function its index, so the module comes back with the bytes.
-/

namespace BJvm.WasmUtils

inductive ValueType
  | void
  | float64
  | float32
  | int64
  | int32
deriving DecidableEq, Repr

def ValueType.code : ValueType → Nat
  | .void => 0x00
  | .float64 => 0x7C
  | .float32 => 0x7D
  | .int64 => 0x7E
  | .int32 => 0x7F

/-- A basic type, or a pointer to a tuple type. -/
inductive WasmType
  | basic (kind : ValueType)
  | tuple (pointer : Nat)
deriving DecidableEq, Repr

def wasmVoid : WasmType := .basic .void
def wasmFloat32 : WasmType := .basic .float32
def wasmFloat64 : WasmType := .basic .float64
def wasmInt64 : WasmType := .basic .int64

/-- An enumerator of operations, which is its opcode. -/
structure Op (codes : List Nat) where
  code : Nat
  listed : code ∈ codes
deriving DecidableEq, Repr

/-- The opcodes of `wasm_unary_op_kind`. -/
def unaryOpKinds : List Nat :=
  -- on i32 and i64
  [0x45, 0x67, 0x68, 0x69, 0x50, 0x79, 0x7A, 0x7B,
  -- on f32 and f64
    0x8B, 0x8C, 0x8D, 0x8E, 0x8F, 0x90, 0x91, 0x99, 0x9A, 0x9B, 0x9C, 0x9D, 0x9E, 0x9F,
  -- conversions
    0xA7, 0xA8, 0xAA, 0xAC, 0xAD, 0xAE, 0xB0, 0xB2, 0xB4, 0xB6, 0xB7, 0xB9, 0xBB,
    0xBC, 0xBD, 0xBE, 0xBF, 0xC0, 0xC1,
  -- conversions with an extended opcode
    0xFC00, 0xFC02, 0xFC03, 0xFC05]

/-- The opcodes of `wasm_binary_op_kind`. -/
def binaryOpKinds : List Nat :=
  -- comparisons
  [0x46, 0x47, 0x48, 0x49, 0x4A, 0x4B, 0x4C, 0x4D, 0x4E, 0x4F,
    0x51, 0x52, 0x53, 0x54, 0x55, 0x56, 0x57, 0x58, 0x59, 0x5A,
    0x5B, 0x5C, 0x5D, 0x5E, 0x5F, 0x60, 0x61, 0x62, 0x63, 0x64, 0x65, 0x66,
  -- on i32 and i64
    0x6A, 0x6B, 0x6C, 0x6D, 0x6E, 0x6F, 0x70, 0x71, 0x72, 0x73, 0x74, 0x75, 0x76, 0x77, 0x78,
    0x7C, 0x7D, 0x7E, 0x7F, 0x80, 0x81, 0x82, 0x83, 0x84, 0x85, 0x86, 0x87, 0x88, 0x89, 0x8A,
  -- on f32 and f64
    0x92, 0x93, 0x94, 0x95, 0x96, 0x97, 0x98, 0xA0, 0xA1, 0xA2, 0xA3, 0xA4, 0xA5, 0xA6]

/-- The opcodes of `wasm_load_op_kind`. -/
def loadOpKinds : List Nat :=
  [0x28, 0x29, 0x2A, 0x2B, 0x2C, 0x2D, 0x2E, 0x2F, 0x30, 0x31, 0x32, 0x33, 0x34, 0x35]

/-- The opcodes of `wasm_store_op_kind`. -/
def storeOpKinds : List Nat := [0x36, 0x37, 0x38, 0x39, 0x3A, 0x3B, 0x3C, 0x3D, 0x3E]

abbrev UnaryOp := Op unaryOpKinds
abbrev BinaryOp := Op binaryOpKinds
abbrev LoadOp := Op loadOpKinds
abbrev StoreOp := Op storeOpKinds

/-- A literal.  Of a floating-point number there are the bits. -/
inductive Literal
  | i32 (value : BitVec 32)
  | i64 (value : BitVec 64)
  | f32 (bits : BitVec 32)
  | f64 (bits : BitVec 64)
deriving DecidableEq, Repr

/-- The `kind` of a literal is the opcode of the instruction. -/
def Literal.kind : Literal → Nat
  | .i32 _ => 0x41
  | .i64 _ => 0x42
  | .f32 _ => 0x43
  | .f64 _ => 0x44

/-- A pointer to a function. -/
inductive FnRef
  | imported (index : Nat)
  | defined (index : Nat)
deriving DecidableEq, Repr

abbrev BlockId := Nat

/-- What a branch goes to: a block, or with a null pointer the whole body. -/
abbrev Label := Option BlockId

/-- Expressions.  Of the type of an expression there is what the caller gives to a block or an
if. -/
inductive Expr
  | drop
  | unreachable
  | ret (value : Option Expr)
  | call (toCall : FnRef) (args : List Expr)
  | callIndirect (tableIndex : BitVec 32) (index : Expr) (args : List Expr)
      (functionType : BitVec 32) (tailCall : Bool)
  | const (literal : Literal)
  | load (op : LoadOp) (addr : Expr) (align offset : BitVec 32)
  | store (op : StoreOp) (addr value : Expr) (align offset : BitVec 32)
  | select (condition trueExpr falseExpr : Expr)
  | getLocal (index : BitVec 32)
  | setLocal (index : BitVec 32) (value : Expr)
  | unaryOp (op : UnaryOp) (arg : Expr)
  | binaryOp (op : BinaryOp) (left right : Expr)
  | block (self : BlockId) (type : WasmType) (isLoop : Bool) (exprs : List Expr)
  | ifElse (self : BlockId) (type : WasmType) (condition trueExpr : Expr)
      (falseExpr : Option Expr)
  | br (condition : Option Expr) (breakTo : Label)
  | brTable (condition : Expr) (exprs : List Label) (dflt : Label)

/-- A function.  An imported one has no body. -/
structure WasmFunction where
  name : String
  params : WasmType
  results : WasmType
  locals : WasmType
  body : Option Expr := none
  myIndex : Nat := 0
  exported : Bool := false

structure FunctionType where
  params : WasmType
  results : WasmType
deriving DecidableEq, Repr

/-- An imported function, with the index of its type. -/
structure Import where
  moduleName : String
  name : String
  type : Nat
  associated : WasmFunction

structure Module where
  internedResultTypes : List (List ValueType) := []
  imports : List Import := []
  functions : List WasmFunction := []
  fnTypes : List FunctionType := []
  fnIndex : Nat := 0

def wasmModuleCreate : Module := {}

/-- The index of a function type, which is added if it is not there. -/
def registerFunctionType (fnTypes : List FunctionType) (search : FunctionType) :
    Nat × List FunctionType :=
  match fnTypes.findIdx? (· = search) with
  | some i => (i, fnTypes)
  | none => (fnTypes.length, fnTypes ++ [search])

def wasmMakeTuple (module : Module) (components : List ValueType) : WasmType × Module :=
  match module.internedResultTypes.findIdx? (· = components) with
  | some i => (.tuple i, module)
  | none => (.tuple module.internedResultTypes.length,
      { module with internedResultTypes := module.internedResultTypes ++ [components] })

def wasmAddFunction (module : Module) (params results locals : WasmType) (body : Expr)
    (name : String) : FnRef × Module :=
  (.defined module.functions.length,
    { module with functions := module.functions ++ [{ name, params, results, locals, body }] })

def wasmExportFunction (module : Module) : FnRef → Module
  | .imported i => { module with imports := module.imports.modify i fun fn =>
      { fn with associated := { fn.associated with exported := true } } }
  | .defined i => { module with functions := module.functions.modify i fun fn =>
      { fn with exported := true } }

def charToBasicType : Char → Option ValueType
  | 'd' => some .float64
  | 'i' => some .int32
  | 'j' => some .int64
  | 'f' => some .float32
  | 'v' => some .void
  | _ => none

/-- Fails where an assertion does. -/
def wasmStringToTuple (module : Module) (str : List Char) : Option (WasmType × Module) :=
  if str.length < 256 then (str.mapM charToBasicType).map (wasmMakeTuple module) else none

/-- Imports a function from `env`, unless there is one of its name. -/
def wasmImportRuntimeFunctionImpl (module : Module) (cName : String) (sig : List Char) :
    Option (FnRef × Module) :=
  match sig with
  | result :: params@(_ :: _) =>
    match module.imports.findIdx? fun i => i.name = cName with
    | some i => some (.imported i, module)
    | none => do
      let (params, module) ← wasmStringToTuple module params
      let result ← charToBasicType result
      let (type, fnTypes) := registerFunctionType module.fnTypes ⟨params, .basic result⟩
      let fn : WasmFunction :=
        { name := cName, params, results := .basic result, locals := wasmVoid }
      pure (.imported module.imports.length,
        { module with fnTypes, imports := module.imports ++ [⟨"env", cName, type, fn⟩] })
  | _ => none

/-- A call of the builder. -/
inductive Step : Module → Module → Prop
  | makeTuple {m : Module} (components : List ValueType) (fits : components.length < 2 ^ 31) :
      Step m (wasmMakeTuple m components).2
  | registerFunctionType {m : Module} (search : FunctionType) :
      Step m { m with fnTypes := (registerFunctionType m.fnTypes search).2 }
  | importRuntimeFunction {m m' : Module} {fn : FnRef} (cName : String) (sig : List Char)
      (h : wasmImportRuntimeFunctionImpl m cName sig = some (fn, m')) : Step m m'
  | addFunction {m : Module} (params results locals : WasmType) (body : Expr) (name : String) :
      Step m (wasmAddFunction m params results locals body name).2
  | exportFunction {m : Module} (fn : FnRef) : Step m (wasmExportFunction m fn)

/-- The modules that can be built. -/
def Built (module : Module) : Prop := Relation.ReflTransGen Step wasmModuleCreate module

def writeByte (byte : Nat) : List UInt8 := [UInt8.ofNat byte]

@[simp] theorem length_writeByte (byte : Nat) : (writeByte byte).length = 1 := rfl

/-- The lowest `n` bytes of a number, the lowest first. -/
def writeLittleEndian : Nat → Nat → List UInt8
  | 0, _ => []
  | n + 1, value => UInt8.ofNat value :: writeLittleEndian n (value >>> 8)

def writeF32 (bits : BitVec 32) : List UInt8 := writeLittleEndian 4 bits.toNat
def writeF64 (bits : BitVec 64) : List UInt8 := writeLittleEndian 8 bits.toNat

def wasmWriteuint (value : Nat) : List UInt8 :=
  if value >>> 7 = 0 then writeByte (value &&& 0x7F)
  else writeByte (value &&& 0x7F ||| 0x80) ++ wasmWriteuint (value >>> 7)
termination_by value
decreasing_by
  rw [Nat.shiftRight_eq_div_pow] at *
  omega

/-- The low bits of the two's complement are the remainder. -/
def wasmWriteint (value : Int) : List UInt8 :=
  let byte := (value % 128).toNat
  let value' := value >>> (7 : Nat)
  if (value' = 0 ∧ byte &&& 0x40 = 0) ∨ (value' = -1 ∧ byte &&& 0x40 ≠ 0) then writeByte byte
  else writeByte (byte ||| 0x80) ++ wasmWriteint value'
termination_by value.natAbs
decreasing_by
  rename_i h
  rw [not_or] at h
  simp only [Int.shiftRight_eq_div_pow] at *
  rcases eq_or_ne value 0 with rfl | h0
  · exact absurd ⟨by decide, by decide⟩ h.1
  · rcases eq_or_ne value (-1) with rfl | h1
    · exact absurd ⟨by decide, by decide⟩ h.2
    · omega

/-- What the pointer of a function leads to. -/
def Module.deref (module : Module) : FnRef → Option WasmFunction
  | .imported i => module.imports[i]?.map Import.associated
  | .defined i => module.functions[i]?

def Module.indexOf (module : Module) (fn : FnRef) : Nat := (module.deref fn).elim 0 (·.myIndex)

/-- How many contexts out the block is; the outermost is that of the body. -/
def walkToFindLabel : List Label → Label → Nat
  | [], _ => 0
  | block :: ctx, breakTo => if block = breakTo then 0 else walkToFindLabel ctx breakTo + 1

/-- An offset or an index is an `int`, written as an unsigned number of 64 bits. -/
def writeInt32 (value : BitVec 32) : List UInt8 := wasmWriteuint (value.signExtend 64).toNat

def writeLiteral : Literal → List UInt8
  | .i32 value => wasmWriteint value.toInt
  | .i64 value => wasmWriteint value.toInt
  | .f32 bits => writeF32 bits
  | .f64 bits => writeF64 bits

mutual

def serializeExpression (module : Module) (ctx : List Label) : Expr → List UInt8
  | .drop => writeByte 0x1A
  | .unreachable => writeByte 0x00
  | .ret value => serializeOption module ctx value ++ writeByte 0x0F
  | .call toCall args =>
    serializeExpressions module ctx args ++ writeByte 0x10 ++
      wasmWriteuint (module.indexOf toCall)
  | .callIndirect tableIndex index args functionType tailCall =>
    serializeExpressions module ctx args ++ serializeExpression module ctx index ++
      writeByte (if tailCall then 0x13 else 0x11) ++ wasmWriteuint functionType.toNat ++
      writeInt32 tableIndex
  | .const literal => writeByte literal.kind ++ writeLiteral literal
  | .load op addr align offset =>
    serializeExpression module ctx addr ++ writeByte op.code ++ writeByte align.toNat ++
      writeInt32 offset
  | .store op addr value align offset =>
    serializeExpression module ctx addr ++ serializeExpression module ctx value ++
      writeByte op.code ++ writeByte align.toNat ++ writeInt32 offset
  | .select condition trueExpr falseExpr =>
    serializeExpression module ctx trueExpr ++ serializeExpression module ctx falseExpr ++
      serializeExpression module ctx condition ++ writeByte 0x1B
  | .getLocal index => writeByte 0x20 ++ wasmWriteuint index.toNat
  | .setLocal index value =>
    serializeExpression module ctx value ++ writeByte 0x21 ++ wasmWriteuint index.toNat
  | .unaryOp op arg =>
    serializeExpression module ctx arg ++
      (if 0xFF < op.code then writeByte 0xFC else []) ++ writeByte (op.code &&& 0xFF)
  | .binaryOp op left right =>
    serializeExpression module ctx left ++ serializeExpression module ctx right ++
      writeByte op.code
  | .block self _ isLoop exprs =>
    writeByte (if isLoop then 0x03 else 0x02) ++ writeByte 0x40 ++
      serializeExpressions module (some self :: ctx) exprs ++ writeByte 0x0B
  | .ifElse self _ condition trueExpr falseExpr =>
    serializeExpression module ctx condition ++ writeByte 0x04 ++ writeByte 0x40 ++
      serializeExpression module (some self :: ctx) trueExpr ++
      serializeElse module (some self :: ctx) falseExpr ++ writeByte 0x0B
  | .br condition breakTo =>
    serializeOption module ctx condition ++
      writeByte (if condition.isSome then 0x0D else 0x0C) ++
      wasmWriteuint (walkToFindLabel ctx breakTo)
  | .brTable condition exprs dflt =>
    serializeExpression module ctx condition ++ writeByte 0x0E ++
      wasmWriteuint exprs.length ++
      exprs.flatMap (fun breakTo => wasmWriteuint (walkToFindLabel ctx breakTo)) ++
      wasmWriteuint (walkToFindLabel ctx dflt)

def serializeExpressions (module : Module) (ctx : List Label) : List Expr → List UInt8
  | [] => []
  | expr :: exprs => serializeExpression module ctx expr ++ serializeExpressions module ctx exprs

/-- An expression that may be a null pointer. -/
def serializeOption (module : Module) (ctx : List Label) : Option Expr → List UInt8
  | none => []
  | some expr => serializeExpression module ctx expr

def serializeElse (module : Module) (ctx : List Label) : Option Expr → List UInt8
  | none => []
  | some expr => writeByte 0x05 ++ serializeExpression module ctx expr

end

end BJvm.WasmUtils
