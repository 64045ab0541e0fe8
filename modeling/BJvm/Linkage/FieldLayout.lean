import BJvm.Linkage.ClassLinker
import BJvm.Linkage.FunctionTables
import BJvm.Memory.Packing
import Mathlib.Logic.Relation

/-!
# The layout of fields

The part of `link_class` that gives the fields of a class their offsets and lists the slots that
hold references.  Array classes are left out: they declare no fields and get no lists, and the
collector goes by the kind of an array.
-/

namespace BJvm.FieldLayout

open Function (update)
open Linker (State)
open Packing (Extent alignUp)

/-- What the virtual machine is compiled for. -/
inductive Target
  | wasm32 | native64
  deriving DecidableEq, Repr

/-- `sizeof(void *)` -/
def Target.sizeofPointer : Target → Nat
  | .wasm32 => 4
  | .native64 => 8

/-- `sizeof(obj_header)`: the header word and the pointer to the class. -/
def Target.sizeofObjHeader (t : Target) : Nat := 8 + t.sizeofPointer

/-- `cp_field`. -/
structure CpField where
  accessFlags : Linkage.AccessFlags := {}
  parsedDescriptor : FieldDescriptor
  byteOffset : Nat := 0
  deriving DecidableEq, Repr, Inhabited

namespace CpField

def isStatic (f : CpField) : Bool := f.accessFlags.isStatic

def kind (f : CpField) : TypeKind := f.parsedDescriptor.reprKind

def isReference (f : CpField) : Bool := f.kind = .reference

end CpField

section

variable (t : Target)

/-- `sizeof_type_kind`, where `void` is unreachable. -/
def sizeofTypeKind : TypeKind → Option Nat
  | .byte | .boolean => some 1
  | .char | .short => some 2
  | .float | .int => some 4
  | .reference => some t.sizeofPointer
  | .double | .long => some 8
  | .void => none

/-- `allocate_field`: the offset of the field, and the offset behind it. -/
def allocateField (current : Nat) : TypeKind → Option (Nat × Nat)
  | .boolean | .byte => some (current, current + 1)
  | .char | .short => some (alignUp current 2, alignUp current 2 + 2)
  | .float | .int => some (alignUp current 4, alignUp current 4 + 4)
  | .double | .long => some (alignUp current 8, alignUp current 8 + 8)
  | .reference =>
    match t with
    | .wasm32 => some (alignUp current 4, alignUp current 4 + 4)
    | .native64 => some (alignUp current 8, alignUp current 8 + 8)
  | .void => none

/-- `reorder_fields_for_compactness`: the fields by size, the biggest first. -/
def reorderFieldsForCompactness (fields : List CpField) : Option (List Nat) := do
  let sizes ← fields.mapM fun f => sizeofTypeKind t f.kind
  let bucket := fun i => (List.range fields.length).filter fun j => sizes[j]? = some (2 ^ i)
  return bucket 3 ++ bucket 2 ++ bucket 1 ++ bucket 0

/-- The local variables of the loop that places the fields. -/
structure Offsets where
  staticOffset : Nat
  nonstaticOffset : Nat
  staticRefs : Nat
  nonstaticRefs : Nat

/-- The loop that places the fields, in the order given. -/
def allocateFields : List Nat → Offsets → List CpField → Option (Offsets × List CpField)
  | [], o, fields => some (o, fields)
  | i :: order, o, fields => do
    let field ← fields[i]?
    if field.isStatic then
      let (byteOffset, current) ← allocateField t o.staticOffset field.kind
      allocateFields order { o with
          staticOffset := current
          staticRefs := if field.isReference then o.staticRefs + 1 else o.staticRefs }
        (fields.set i { field with byteOffset })
    else
      let (byteOffset, current) ← allocateField t o.nonstaticOffset field.kind
      allocateFields order { o with
          nonstaticOffset := current
          nonstaticRefs := if field.isReference then o.nonstaticRefs + 1 else o.nonstaticRefs }
        (fields.set i { field with byteOffset })

/-- `reference_list`. -/
structure ReferenceList where
  count : Nat := 0
  slotsUnscaled : List Nat := []
  deriving DecidableEq, Repr

/-- The slots that are read: as many as are counted. -/
def ReferenceList.slots (l : ReferenceList) : List Nat := l.slotsUnscaled.take l.count

/-- The slots of the references among the fields, as `u16`. -/
def referenceSlots (fields : List CpField) : List Nat :=
  (fields.filter (·.isReference)).map fun f => f.byteOffset / t.sizeofPointer % 2 ^ 16

/-- The fields of `classdesc` that are written here. -/
structure Layout where
  fields : List CpField
  /-- the size of `static_fields` -/
  staticBytes : Nat
  instanceBytes : Nat
  staticReferences : ReferenceList
  instanceReferences : ReferenceList
  deriving DecidableEq, Repr

/-- Classes in `class_padding` keep their fields in order. -/
def fieldOrder (padding : Option Nat) (fields : List CpField) : Option (List Nat) :=
  match padding with
  | some _ => some (List.range fields.length)
  | none => reorderFieldsForCompactness t fields

/-- Where the fields of a class start, but for the padding. -/
def superBytes : Option Layout → Nat
  | some super => super.instanceBytes
  | none => t.sizeofObjHeader

def superRefs : Option Layout → ReferenceList
  | some super => super.instanceReferences
  | none => {}

/-- The layout of a class, from its entry in `class_padding`, if there is one, and its superclass. -/
def layoutFields (padding : Option Nat) (super : Option Layout) (fields : List CpField) :
    Option Layout := do
  let order ← fieldOrder t padding fields
  let start : Offsets := {
    staticOffset := 0
    nonstaticOffset := superBytes t super + padding.getD 0
    staticRefs := 0
    nonstaticRefs := (superRefs super).count }
  let (o, fields) ← allocateFields t order start fields
  return {
    fields
    staticBytes := o.staticOffset
    instanceBytes := o.nonstaticOffset
    staticReferences := {
      count := o.staticRefs
      slotsUnscaled := referenceSlots t (fields.filter (·.isStatic)) }
    instanceReferences := {
      count := o.nonstaticRefs
      slotsUnscaled :=
        (superRefs super).slots ++ referenceSlots t (fields.filter (!·.isStatic)) } }

/-- `class_padding`, as `register_native_padding` fills it: the number of pointers. -/
def nativePadding : List (String × Nat) :=
  [("java/lang/String", 0), ("java/lang/StackTraceElement", 0), ("java/lang/Throwable", 2),
    ("java/lang/invoke/LambdaForm", 0), ("java/lang/invoke/CallSite", 0),
    ("jdk/internal/reflect/ConstantPool", 1), ("java/lang/Class", 1),
    ("java/lang/ClassLoader", 1), ("java/lang/reflect/Parameter", 0),
    ("java/lang/reflect/Field", 1), ("java/lang/reflect/Method", 1),
    ("java/lang/reflect/Constructor", 1), ("java/lang/Thread", 1),
    ("java/lang/invoke/MethodHandle", 1), ("java/lang/invoke/VarHandle", 0),
    ("java/lang/invoke/MethodType", 1), ("java/lang/invoke/VarForm", 0),
    ("java/lang/invoke/MemberName", 2), ("java/lang/ref/Reference", 0)]

def classPadding (name : String) : Option Nat :=
  (nativePadding.lookup name).map fun n => n * t.sizeofPointer

end

/-- The classes as they are loaded, and whether `analyze_method_code` accepts the methods of each.
A class is defined behind its supers. -/
structure Classes where
  name : Nat → String
  superClass : Nat → Option Nat
  interfaces : Nat → List Nat
  fields : Nat → List CpField
  verifies : Nat → Bool
  super_lt : ∀ {n s : Nat}, superClass n = some s → s < n
  interface_lt : ∀ {n i : Nat}, i ∈ interfaces n → i < n

/-- The states of the classes and the layouts that there are so far. -/
structure World where
  state : Nat → State
  layout : Nat → Option Layout

namespace World

def start : World where
  state := fun _ => .loaded
  layout := fun _ => none

def setState (w : World) (n : Nat) (s : State) : World :=
  { w with state := update w.state n s }

def setLayout (w : World) (n : Nat) (l : Layout) : World :=
  { w with layout := update w.layout n (some l) }

end World

section

variable (t : Target) (classes : Classes)

/-- The layout that `link_class` gives a class.  There is none where the lists of the superclass are
null pointers. -/
def layoutClass (w : World) (n : Nat) : Option Layout :=
  let padding := classPadding t (classes.name n)
  match classes.superClass n with
  | none => layoutFields t padding none (classes.fields n)
  | some super => (w.layout super).bind fun l => layoutFields t padding (some l) (classes.fields n)

/-- Links classes in order, up to one that fails. -/
def linkAll (link : World → Nat → Option (Bool × World)) :
    World → List Nat → Option (Bool × World)
  | w, [] => some (false, w)
  | w, n :: ns =>
    match link w n with
    | none => none
    | some (true, w) => some (true, w)
    | some (false, w) => linkAll link w ns

/-- `link_class`, whether it fails. -/
def linkClass : Nat → World → Nat → Option (Bool × World)
  | 0, _, _ => none
  | fuel + 1, w, n =>
    if w.state n ≠ .loaded then some (false, w)
    else
      match linkAll (linkClass fuel) w (classes.superClass n).toList with
      | none => none
      | some (true, w) => some (true, w.setState n .linkageError)
      | some (false, w) =>
        match linkAll (linkClass fuel) w (classes.interfaces n) with
        | none => none
        | some (true, w) => some (true, w.setState n .linkageError)
        | some (false, w) =>
          if classes.verifies n then
            (layoutClass t classes w n).map fun l => (false, (w.setState n .linked).setLayout n l)
          else some (true, w.setState n .linkageError)

/-- What changes the state of a class: linking it, and initializing it when it is linked. -/
inductive Step : World → World → Prop
  | link {w w' : World} {fuel n : Nat} {failed : Bool} :
      linkClass t classes fuel w n = some (failed, w') → Step w w'
  | initializeClass {w : World} {n : Nat} {s : State} : (w.state n).isLinked → s ≠ .loaded →
      Step w (w.setState n s)

abbrev Steps : World → World → Prop := Relation.ReflTransGen (Step t classes)

/-- The class and its superclasses. -/
def lineage (n : Nat) : List Nat :=
  match h : classes.superClass n with
  | none => [n]
  | some super =>
    have := classes.super_lt h
    n :: lineage super
  termination_by n

/-- The fields that the class declares. -/
def World.declaredFields (w : World) (n : Nat) : List CpField :=
  match w.layout n with
  | some l => l.fields
  | none => classes.fields n

/-- The fields of the instances of a class, its own and those it inherits. -/
def World.instanceFields (w : World) (n : Nat) : List CpField :=
  (lineage classes n).flatMap fun c => (w.declaredFields classes c).filter (!·.isStatic)

def World.staticFields (w : World) (n : Nat) : List CpField :=
  (w.declaredFields classes n).filter (·.isStatic)

def CpField.size (f : CpField) : Nat := (sizeofTypeKind t f.kind).getD 0

/-- The bytes of a field. -/
def CpField.extent (f : CpField) : Extent := ⟨f.byteOffset, f.size t⟩

/-- The list has the slots of the references among the fields, each of them once. -/
def Enumerates (l : ReferenceList) (fields : List CpField) : Prop :=
  l.slots.Nodup ∧
    ∀ slot, slot ∈ l.slots ↔ ∃ f ∈ fields, f.isReference ∧ f.byteOffset = slot * t.sizeofPointer

/-! ### The space that the declarations ask for -/

/-- The fields by size, the biggest first, or in order where the class has to keep it. -/
def placementOrder (padding : Option Nat) (fields : List CpField) : List CpField :=
  match padding with
  | some _ => fields
  | none => [8, 4, 2, 1].flatMap fun s => fields.filter fun f => f.size t = s

/-- The instance fields that a class declares, as they are placed. -/
def ownFields (n : Nat) : List CpField :=
  (placementOrder t (classPadding t (classes.name n)) (classes.fields n)).filter (!·.isStatic)

def ownStatics (n : Nat) : List CpField :=
  (placementOrder t (classPadding t (classes.name n)) (classes.fields n)).filter (·.isStatic)

/-- Where the fields that a class declares start: behind those of the superclass. -/
def instanceStart (n : Nat) : Nat :=
  let padding := (classPadding t (classes.name n)).getD 0
  match h : classes.superClass n with
  | none => t.sizeofObjHeader + padding
  | some super =>
    have := classes.super_lt h
    Packing.endOf (instanceStart super) ((ownFields t classes super).map (CpField.size t)) + padding
  termination_by n

/-- Placed one behind another, the references among the fields end within `2 ^ 16` pointers. -/
def SlotsFit (start : Nat) (fields : List CpField) : Prop :=
  ∀ p ∈ fields.zip (Packing.placeAll start (fields.map (CpField.size t))),
    p.1.isReference → p.2.limit ≤ 2 ^ 16 * t.sizeofPointer

/-- The references that a class and its superclasses declare have slots of 16 bits. -/
def ReferencesFit (n : Nat) : Prop :=
  (∀ c ∈ lineage classes n, SlotsFit t (instanceStart t classes c) (ownFields t classes c)) ∧
    SlotsFit t 0 (ownStatics t classes n)

end

end BJvm.FieldLayout
