import BJvm.Analysis.ValueOrigins
import BJvm.ClassFile.Attributes

/-!
# Messages about null pointers

`extended_npe_message.c`, on a method that has been analyzed: its instructions and the indices of its
`LocalVariableTable` are renumbered.  The names in the messages are those of the class file, and
`NpeVariable` says which of them belongs to a variable.
-/

namespace BJvm

open ClassFile

/-- What a message takes from the constant pool entry of an instruction, or from its constant. -/
structure InsnText where
  className : Chars := []
  name : Chars := []
  args : List ParsedDescriptor := []
  integerImm : Int := 0
  deriving DecidableEq, Repr, Inhabited

/-- What `extended_npe_phase2` reads of a method. -/
structure NpeContext where
  isStatic : Bool
  code : List BytecodeInsn
  sources : List StackVariableSources
  localVariableTable : Option (List LvtEntry)
  texts : List InsnText
  deriving DecidableEq, Repr, Inhabited

/-- `local_variable_table_lookup`. -/
def localVariableTableLookup (index originalPc : Nat) (table : List LvtEntry) : Option Chars :=
  (table.find? fun entry =>
    entry.index = index ∧ entry.startPc ≤ originalPc ∧ originalPc < entry.endPc).map (·.name)

/-- `replace_slashes`. -/
def replaceSlashes (name : Chars) : Chars :=
  name.map fun c => if c = '/'.toUInt8 then '.'.toUInt8 else c

/-- `exchange_slashes_and_dots`. -/
def exchangeSlashesAndDots (name : Chars) : Chars :=
  name.map fun c =>
    if c = '/'.toUInt8 then '.'.toUInt8 else if c = '.'.toUInt8 then '/'.toUInt8 else c

/-- `type_kind_to_string`. -/
def typeKindToString : TypeKind → String
  | .boolean => "boolean"
  | .byte => "byte"
  | .char => "char"
  | .short => "short"
  | .int => "int"
  | .long => "long"
  | .float => "float"
  | .double => "double"
  | .void => "void"
  | .reference => "reference"

/-- `npe_stringify_type`. -/
def npeStringifyType (d : ParsedDescriptor) : String :=
  (if d.baseKind = .reference then fmtSlice (replaceSlashes d.className)
    else typeKindToString d.baseKind) ++ String.join (List.replicate d.dimensions "[]")

/-- `npe_stringify_method`. -/
def npeStringifyMethod (text : InsnText) : String :=
  fmtSlice (exchangeSlashesAndDots text.className) ++ "." ++ fmtSlice text.name ++ "(" ++
    ", ".intercalate (text.args.map npeStringifyType) ++ ")"

/-- `extended_npe_phase2`: what it appends, and whether it fails; `none` when the fuel runs out. -/
def extendedNpePhase2 (c : NpeContext) :
    Nat → VariableSource → Nat → Bool → Option (String × Bool)
  | 0, _, _, _ => none
  | fuel + 1, source, insnI, isFirst =>
    let originalPc := (c.code.getD insnI default).originalPc
    let entry (index : Nat) :=
      c.localVariableTable.bind (localVariableTableLookup index originalPc)
    match source with
    | .parameter index =>
      if index = 0 ∧ c.isStatic = false then some ("this", false)
      else match entry index with
        | some name => some (fmtSlice name, false)
        | none => some (s!"<parameter{index}>", false)
    | .local_ index =>
      let insn := c.code.getD index default
      match entry insn.index with
      | some name => some (fmtSlice name, false)
      | none =>
        let slot := insn.index
        some (s!"<local{slot}>", false)
    | .insn index =>
      let insn := c.code.getD index default
      let text := c.texts.getD index default
      let sources := c.sources.getD index default
      match insn.kind with
      | .aconstNull => some ("\"null\"", false)
      | .aaload => do
        let (a, _) ← extendedNpePhase2 c fuel sources.a index false
        let (b, _) ← extendedNpePhase2 c fuel sources.b index false
        return (a ++ "[" ++ b ++ "]", false)
      | .getfield => do
        let (a, err) ← extendedNpePhase2 c fuel sources.a index false
        return (a ++ (if err then "" else ".") ++ fmtSlice text.name, false)
      | .getstatic => some (fmtSlice text.className ++ "." ++ fmtSlice text.name, false)
      | .invokevirtual | .invokeinterface | .invokespecial | .invokestatic =>
        some ((if isFirst then "the return value of " else "") ++ npeStringifyMethod text, false)
      | .iconst => some (toString text.integerImm, false)
      | _ => some ("", true)
    | .unk => some ("...", true)

/-- The first part of the message, from the instruction that fails. -/
def npeFault (insn : BytecodeInsn) (text : InsnText) : Option String :=
  match insn.kind with
  | .aaload => some "Cannot load from object array"
  | .baload => some "Cannot load from byte array"
  | .caload => some "Cannot load from char array"
  | .laload => some "Cannot load from long array"
  | .iaload => some "Cannot load from int array"
  | .saload => some "Cannot load from short array"
  | .faload => some "Cannot load from float array"
  | .daload => some "Cannot load from double array"
  | .aastore => some "Cannot store to object array"
  | .bastore => some "Cannot store to byte array"
  | .castore => some "Cannot store to char array"
  | .iastore => some "Cannot store to int array"
  | .lastore => some "Cannot store to long array"
  | .sastore => some "Cannot store to short array"
  | .fastore => some "Cannot store to float array"
  | .dastore => some "Cannot store to double array"
  | .arraylength => some "Cannot read the array length"
  | .athrow => some "Cannot throw exception"
  | .monitorenter => some "Cannot enter synchronized block"
  | .monitorexit => some "Cannot exit synchronized block"
  | .getfield => some ("Cannot read field \"" ++ fmtSlice text.name ++ "\"")
  | .putfield => some ("Cannot assign field \"" ++ fmtSlice text.name ++ "\"")
  | .invokevirtual | .invokeinterface | .invokespecial =>
    some ("Cannot invoke \"" ++ npeStringifyMethod text ++ "\"")
  | _ => none

/-- `get_extended_npe_message`, where the inner `none` is a failure. -/
def getExtendedNpeMessage (c : NpeContext) (fuel pc : Nat) : Option (Option String) :=
  if c.code.length ≤ pc then some none
  else match npeFault (c.code.getD pc default) (c.texts.getD pc default) with
    | none => some none
    | some fault => do
      let (text, err) ← extendedNpePhase2 c fuel (c.sources.getD pc default).a pc true
      return some (if err then fault else fault ++ " because \"" ++ text ++ "\" is null")

/-- A method as it is parsed, with the names that messages can take from it. -/
structure NamedMethod where
  method : CpMethod
  localVariableTable : Option (List LvtEntry)
  texts : List InsnText := []
  indices : method.code.localVariableTable = (localVariableTable.getD []).map (·.index)

/-- `analyze_method_code`, with the renumbering that it does. -/
def NamedMethod.analyze (nm : NamedMethod) (fuel : Nat) :
    Except Failure (Option (MethodAnalysis × List Nat × NpeContext)) := do
  match localsOnMethodEntry nm.method with
  | none => throw (.error "")
  | some (_, swizzle) =>
    match ← analyzeMethodSources fuel nm.method with
    | none => return none
    | some (a, sources) =>
      return some (a, swizzle,
        { isStatic := nm.method.isStatic
          code := a.code
          sources
          localVariableTable := nm.localVariableTable.map fun table =>
            table.map fun entry => { entry with index := swizzle.getD entry.index 0 }
          texts := nm.texts })

/-! ### Variables -/

/-- A variable of the source of a method: `this`, a parameter, counted from one, or whatever has been
stored to a slot. -/
inductive NpeVariable
  | this
  | parameter (number : Nat)
  | localVariable (slot : Nat)
  deriving DecidableEq, Repr

namespace NpeVariable

variable (m : CpMethod)

/-- The method has the variable. -/
def Valid : NpeVariable → Prop
  | this => m.isStatic = false
  | parameter number => 1 ≤ number ∧ number ≤ m.descriptor.args.length
  | localVariable slot => slot < m.code.maxLocals

/-- The slot that the JVM specification gives the variable. -/
def slot : NpeVariable → Nat
  | this => 0
  | parameter number => (if m.isStatic then 0 else 1) +
      ((m.descriptor.args.take (number - 1)).map fun arg => if arg.isWide then 2 else 1).sum
  | localVariable slot => slot

/-- Where a value in the variable comes from, in terms of the renumbered code. -/
def origin (swizzle : List Nat) : NpeVariable → Origin
  | this => .parameter 0
  | parameter number => .parameter number
  | localVariable slot => .localVariable (swizzle.getD slot 0)

end NpeVariable

/-- What the table declares for a slot at a place in the bytecode. -/
def NamedMethod.declared (nm : NamedMethod) (slot originalPc : Nat) : Option String :=
  (nm.localVariableTable.bind (localVariableTableLookup slot originalPc)).map fmtSlice

end BJvm
