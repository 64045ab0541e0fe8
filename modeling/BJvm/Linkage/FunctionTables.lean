import Mathlib.Logic.Function.Basic
import Mathlib.Data.List.Defs

/-!
# Function tables

`vtable.c`: the vtable and the itables that a class gets when it is linked.  Class descriptors are
numbered, and a method is known by its class and its index there.
-/

namespace BJvm.Linkage

open Function (update)

/-- `access_flags`. -/
structure AccessFlags where
  isPublic : Bool := false
  isPrivate : Bool := false
  isProtected : Bool := false
  isStatic : Bool := false
  isFinal : Bool := false
  isAbstract : Bool := false
  isInterface : Bool := false
  deriving DecidableEq, Repr, Inhabited

/-- `cp_method`. -/
structure CpMethod where
  name : List Char
  unparsedDescriptor : List Char
  accessFlags : AccessFlags := {}
  isSignaturePolymorphic : Bool := false
  deriving DecidableEq, Repr, Inhabited

namespace CpMethod

def isCtor (m : CpMethod) : Bool := m.name = ['<', 'i', 'n', 'i', 't', '>']
def isClinit (m : CpMethod) : Bool := m.name = ['<', 'c', 'l', 'i', 'n', 'i', 't', '>']

end CpMethod

/-- `classdesc`. -/
structure Classdesc where
  name : List Char
  classloader : Nat := 0
  accessFlags : AccessFlags := {}
  superClass : Option Nat := none
  interfaces : List Nat := []
  methods : List CpMethod := []
  deriving DecidableEq, Repr, Inhabited

/-- A `cp_method *`. -/
structure MethodPtr where
  myClass : Nat
  myIndex : Nat
  deriving DecidableEq, Repr, Inhabited

/-- `itable_method_t`: a method with the two bits kept in its pointer. -/
structure ItableMethod where
  method : MethodPtr
  invalid : Bool := false
  ambiguous : Bool := false
  deriving DecidableEq, Repr, Inhabited

/-- `itable`. -/
structure Itable where
  interface : Nat
  methods : List ItableMethod := []
  deriving DecidableEq, Repr, Inhabited

/-- The fields that linking writes: of the classes, `hierarchy`, `vtable` and `itables`, and of the
methods, `vtable_index`, `itable_index` and `overrides`. -/
structure Tables where
  hierarchy : Nat → List Nat := fun _ => []
  vtable : Nat → List MethodPtr := fun _ => []
  itables : Nat → List Itable := fun _ => []
  vtableIndex : MethodPtr → Nat := fun _ => 0
  itableIndex : MethodPtr → Nat := fun _ => 0
  overrides : MethodPtr → Bool := fun _ => false

/-! ### Methods -/

/-- What comes before the last slash of a name; `none` where there is no slash. -/
def packageName (name : List Char) : Option (List Char) :=
  match name.reverse.dropWhile (· ≠ '/') with
  | [] => none
  | _ :: rest => some rest.reverse

/-- `same_runtime_package`. -/
def sameRuntimePackage (a b : Classdesc) : Bool := packageName a.name = packageName b.name

/-- `method_candidate_matches`. -/
def methodCandidateMatches (candidate : CpMethod) (name methodDescriptor : List Char) : Bool :=
  candidate.name = name &&
    (candidate.isSignaturePolymorphic || candidate.unparsedDescriptor = methodDescriptor)

section

variable (classes : Nat → Classdesc)

/-- The method that a pointer points to. -/
def methodAt (m : MethodPtr) : CpMethod := (classes m.myClass).methods.getD m.myIndex default

/-- `method_lookup` in the class itself. -/
def lookupOwn (cd : Nat) (name methodDescriptor : List Char) : Option MethodPtr :=
  ((classes cd).methods.findIdx? (methodCandidateMatches · name methodDescriptor)).map fun i =>
    { myClass := cd, myIndex := i }

/-- `method_lookup` in the class and its superclasses. -/
def methodLookup (t : Tables) (cd : Nat) (name methodDescriptor : List Char) : Option MethodPtr :=
  (t.hierarchy cd).reverse.findSome? (lookupOwn classes · name methodDescriptor)

/-- `method_overrides`, for a method that is not the null pointer. -/
def methodOverrides (overrides overridden : MethodPtr) : Bool :=
  let flags := (methodAt classes overrides).accessFlags
  if flags.isPrivate then false
  else if !flags.isProtected && !flags.isPublic then
    sameRuntimePackage (classes overrides.myClass) (classes overridden.myClass)
  else true

/-- `vtable_include`. -/
def vtableInclude (t : Tables) (m : MethodPtr) : Bool :=
  let method := methodAt classes m
  !method.isCtor && !method.isClinit && !method.accessFlags.isStatic && !t.overrides m

/-- `itable_include`. -/
def itableInclude (m : MethodPtr) : Bool :=
  let method := methodAt classes m
  !method.isCtor && !method.isClinit && !method.accessFlags.isStatic

/-- `make`. -/
def makeItableMethod (m : MethodPtr) : ItableMethod :=
  { method := m, invalid := (methodAt classes m).accessFlags.isAbstract }

/-- The methods of a class, in order. -/
def methodsOf (cd : Nat) : List MethodPtr :=
  (List.range (classes cd).methods.length).map fun i => { myClass := cd, myIndex := i }

/-! ### The vtable -/

def Tables.pushVtable (t : Tables) (cd : Nat) (m : MethodPtr) : Tables :=
  { t with vtable := update t.vtable cd (t.vtable cd ++ [m]) }

/-- The loop of `set_up_function_tables` over the superclass's vtable. -/
def copyVtable (cd : Nat) (methods : List MethodPtr) (t : Tables) : Tables :=
  methods.foldl (fun t method =>
    match lookupOwn classes cd (methodAt classes method).name
        (methodAt classes method).unparsedDescriptor with
    | some replacement =>
      if methodOverrides classes replacement method then
        { t with
          vtableIndex := update t.vtableIndex replacement (t.vtableIndex method)
          overrides := update t.overrides replacement true }.pushVtable cd replacement
      else t.pushVtable cd method
    | none => t.pushVtable cd method) t

/-- The last loop of `set_up_function_tables`. -/
def pushNewMethods (cd : Nat) (t : Tables) : Tables :=
  (methodsOf classes cd).foldl (fun t method =>
    if vtableInclude classes t method then
      { t with vtableIndex := update t.vtableIndex method (t.vtable cd).length }.pushVtable cd method
    else t) t

/-! ### The itables -/

/-- `identify`: the name and the descriptor with a colon between, cut to the length of the scratch
string, which becomes that of the result. -/
def identify (scratchLen : Nat) (m : MethodPtr) : List Char :=
  let name := (methodAt classes m).name.take scratchLen
  name ++ ':' :: (methodAt classes m).unparsedDescriptor.take (scratchLen - name.length)

/-- The variables of the first loop of `setup_itables`: the length of the scratch string, and the
tables `discovered` and `ambiguous`. -/
structure Scan where
  scratchLen : Nat := 1024
  discovered : List (List Char × MethodPtr) := []
  ambiguous : List (List Char) := []

/-- One entry of a superinterface's itable in that loop. -/
def scanMethod (s : Scan) (ref : ItableMethod) : Scan :=
  if !(classes ref.method.myClass).accessFlags.isInterface then s
  else
    let ident := identify classes s.scratchLen ref.method
    let s := { s with scratchLen := ident.length }
    match s.discovered.lookup ident with
    | some existing =>
      if existing ≠ ref.method || ref.ambiguous then { s with ambiguous := ident :: s.ambiguous }
      else s
    | none =>
      if ref.ambiguous then { s with ambiguous := ident :: s.ambiguous }
      else { s with discovered := (ident, ref.method) :: s.discovered }

/-- The superinterfaces in order, then the superclass. -/
def supers (cd super : Nat) : List Nat := (classes cd).interfaces ++ [super]

/-- The first loop: the names and descriptors that are ambiguous. -/
def scanSupers (t : Tables) (cd super : Nat) : Scan :=
  (supers classes cd super).foldl (fun s iface =>
    (t.itables iface).foldl (fun s itable => itable.methods.foldl (scanMethod classes) s) s) {}

/-- What `merge_itable` puts for the methods `d` and `s`, when `ident` identifies `d`. -/
def mergeMethod (t : Tables) (cd : Nat) (poisoned : List (List Char)) (ident : List Char)
    (d s : ItableMethod) : ItableMethod :=
  let result :=
    if (methodAt classes d.method).accessFlags.isAbstract || d = s then s else d
  let result :=
    if ident ∈ poisoned then { result with invalid := true, ambiguous := true } else result
  match methodLookup classes t cd (methodAt classes d.method).name
      (methodAt classes d.method).unparsedDescriptor with
  | some m => if methodOverrides classes m d.method then makeItableMethod classes m else result
  | none => result

/-- The loop of `merge_itable`. -/
def mergeMethods (t : Tables) (cd : Nat) (poisoned : List (List Char)) :
    Nat → List ItableMethod → List ItableMethod → List ItableMethod
  | scratchLen, d :: dst, s :: src =>
    let ident := identify classes scratchLen d.method
    mergeMethod classes t cd poisoned ident d s ::
      mergeMethods t cd poisoned ident.length dst src
  | _, dst, _ => dst

/-- `merge_itable`. -/
def mergeItable (t : Tables) (cd : Nat) (poisoned : List (List Char)) (dst src : Itable) : Itable :=
  { dst with methods := mergeMethods classes t cd poisoned 1024 dst.methods src.methods }

/-- Merges an itable into the one for the same interface, or into a copy of itself. -/
def addItable (t : Tables) (cd : Nat) (poisoned : List (List Char)) :
    List Itable → Itable → List Itable
  | [], src => [mergeItable classes t cd poisoned src src]
  | dst :: itables, src =>
    if dst.interface = src.interface then mergeItable classes t cd poisoned dst src :: itables
    else dst :: addItable t cd poisoned itables src

/-- `setup_itables`. -/
def setupItables (super cd : Nat) (t : Tables) : Tables :=
  let poisoned := (scanSupers classes t cd super).ambiguous
  let itables := (supers classes cd super).foldl (fun itables iface =>
    (t.itables iface).foldl (addItable classes t cd poisoned) itables) []
  { t with itables := update t.itables cd itables }

/-- The itable of an interface itself. -/
def pushOwnItable (cd : Nat) (t : Tables) : Tables :=
  let methods := (methodsOf classes cd).filter (itableInclude classes)
  let itable : Itable := { interface := cd, methods := methods.map (makeItableMethod classes) }
  { t with
    itableIndex := fun m => if m ∈ methods then methods.idxOf m else t.itableIndex m
    itables := update t.itables cd (t.itables cd ++ [itable]) }

/-! ### Linking -/

/-- `setup_super_hierarchy`. -/
def setupSuperHierarchy (cd : Nat) (t : Tables) : Tables :=
  let super := match (classes cd).superClass with
    | some super => t.hierarchy super
    | none => []
  { t with hierarchy := update t.hierarchy cd (super ++ [cd]) }

/-- `set_up_function_tables`. -/
def setUpFunctionTables (cd : Nat) (t : Tables) : Tables :=
  let t := match (classes cd).superClass with
    | some super => setupItables classes super cd (copyVtable classes cd (t.vtable super) t)
    | none => t
  let t := if (classes cd).accessFlags.isInterface then pushOwnItable classes cd t else t
  pushNewMethods classes cd t

/-- What linking a class whose supers are linked does to the tables. -/
def linkClass (t : Tables) (cd : Nat) : Tables :=
  setUpFunctionTables classes cd (setupSuperHierarchy classes cd t)

/-- `vtable_lookup`. -/
def vtableLookup (t : Tables) (cd index : Nat) : Option MethodPtr := (t.vtable cd)[index]?

/-- `itable_lookup`. -/
def itableLookup (t : Tables) (cd interface index : Nat) : Option MethodPtr :=
  match (t.itables cd).find? (·.interface = interface) with
  | some itable =>
    match itable.methods[index]? with
    | some m => if m.invalid then none else some m.method
    | none => none
  | none => none

/-- The classes linked, the last of them first, and the tables: each class is linked once, behind
its superclass and its superinterfaces. -/
inductive Linked : List Nat → Tables → Prop
  | nil : Linked [] {}
  | link {linked : List Nat} {t : Tables} {cd : Nat} : Linked linked t → cd ∉ linked →
      (∀ super, (classes cd).superClass = some super → super ∈ linked) →
      (∀ iface ∈ (classes cd).interfaces, iface ∈ linked) →
      Linked (cd :: linked) (linkClass classes t cd)

end

end BJvm.Linkage
