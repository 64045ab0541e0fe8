import BJvm.Insn
import Mathlib.Logic.Function.Basic

/-!
# Linking classes and arrays

`linkage.c`, `arrays.c` and the parts of `bjvm.c` that change the state of a class: `link_class`
goes through superclasses, superinterfaces and array classes, and `instanceof` reads the tables it
leaves.  Classes are numbered in the order in which they are defined, and an array class is known by
its element and its number of dimensions.
-/

namespace BJvm.Linker

open Function (update)

/-- `classdesc_state`. -/
inductive State
  | linkageError | loaded | linked | initializing | initialized
  deriving DecidableEq, Repr, Inhabited

/-- `state >= CD_STATE_LINKED`. -/
def State.isLinked : State → Bool
  | .linkageError | .loaded => false
  | .linked | .initializing | .initialized => true

/-- `classdesc_kind`. -/
inductive Kind
  | ordinary | primitive | ordinaryArray | primitiveArray
  deriving DecidableEq, Repr

/-- What is left of a type without its dimensions. -/
inductive Element
  | ordinary (n : Nat)
  | primitive (kind : TypeKind)
  deriving DecidableEq, Repr

/-- A `classdesc *`. -/
structure ClassId where
  element : Element
  dimensions : Nat := 0
  deriving DecidableEq, Repr

namespace ClassId

/-- The class that is no array. -/
abbrev ordinary (n : Nat) : ClassId := { element := .ordinary n }

/-- The class of the arrays of `c`. -/
abbrev array (c : ClassId) : ClassId := { c with dimensions := c.dimensions + 1 }

/-- `kind`: only arrays of one dimension of a primitive type are primitive arrays. -/
def kind (c : ClassId) : Kind :=
  match c.element, c.dimensions with
  | .ordinary _, 0 => .ordinary
  | .primitive _, 0 => .primitive
  | .primitive _, 1 => .primitiveArray
  | _, _ => .ordinaryArray

/-- `one_fewer_dim`. -/
def oneFewerDim (c : ClassId) : Option ClassId :=
  match c.dimensions with
  | 0 => none
  | d + 1 => some { c with dimensions := d }

/-- `base_component`, which arrays of primitive types do not have. -/
def baseComponent (c : ClassId) : Option ClassId :=
  match c.element, c.dimensions with
  | .ordinary n, _ + 1 => some (ordinary n)
  | _, _ => none

/-- `primitive_component`: of a class, the zero that was there when it was allocated. -/
def primitiveComponent (c : ClassId) : TypeKind :=
  match c.element with
  | .ordinary _ => .boolean
  | .primitive kind => kind

end ClassId

/-- The classes, and whether `analyze_method_code` accepts the methods of each.  A class is defined
behind its supers. -/
structure Classes where
  superClass : Nat → Option Nat
  interfaces : Nat → List Nat
  isInterface : Nat → Bool
  verifies : Nat → Bool
  object : Nat
  cloneable : Nat
  serializable : Nat
  super_lt : ∀ {n s : Nat}, superClass n = some s → s < n
  interface_lt : ∀ {n i : Nat}, i ∈ interfaces n → i < n

namespace Classes

variable (classes : Classes)

/-- `super_class`; that of an array class comes from `fill_array_classdesc`. -/
def superOf (c : ClassId) : Option ClassId :=
  match c.element, c.dimensions with
  | .ordinary n, 0 => (classes.superClass n).map ClassId.ordinary
  | .primitive _, 0 => none
  | _, _ + 1 => some (.ordinary classes.object)

/-- `interfaces`. -/
def interfacesOf (c : ClassId) : List ClassId :=
  match c.element, c.dimensions with
  | .ordinary n, 0 => (classes.interfaces n).map ClassId.ordinary
  | .primitive _, 0 => []
  | _, _ + 1 => [.ordinary classes.cloneable, .ordinary classes.serializable]

/-- `access_flags & ACCESS_INTERFACE`. -/
def isInterfaceClass (c : ClassId) : Bool :=
  match c.element, c.dimensions with
  | .ordinary n, 0 => classes.isInterface n
  | _, _ => false

end Classes

/-- The fields of `classdesc` that linking writes, with the classes in `itables` for the itables.
The two counts are of the calls of `setup_super_hierarchy` and `set_up_function_tables`. -/
structure Classdesc where
  state : State := .loaded
  hierarchy : List ClassId := []
  interfaces : List ClassId := []
  hierarchySetups : Nat := 0
  tableSetups : Nat := 0

/-- What happens to a call of `link_class`. -/
inductive Call
  | entered (c : ClassId)
  | returned (c : ClassId) (failed : Bool)
  deriving DecidableEq, Repr

/-- `depth` is the length of the chain of `array_type` that starts at an element, and `log` has the
calls of `link_class`, the last of them first. -/
structure World where
  depth : Element → Nat
  cd : ClassId → Classdesc
  log : List Call

namespace World

/-- No class is linked, and there are no arrays. -/
def start : World where
  depth := fun _ => 0
  cd := fun c =>
    match c.element, c.dimensions with
    | .primitive _, 0 => { state := .initialized }
    | _, _ => {}
  log := []

variable (classes : Classes) (w : World)

def state (c : ClassId) : State := (w.cd c).state

def setState (c : ClassId) (s : State) : World :=
  { w with cd := update w.cd c { w.cd c with state := s } }

/-- The loop that gives every array class of an element one state. -/
def setArrayStates (e : Element) (s : State) : World :=
  { w with cd := fun c =>
      if c.element = e ∧ 0 < c.dimensions ∧ c.dimensions ≤ w.depth e then
        { w.cd c with state := s }
      else w.cd c }

/-- The class is there. -/
def Exists (c : ClassId) : Prop := c.dimensions ≤ w.depth c.element

instance (c : ClassId) : Decidable (w.Exists c) := inferInstanceAs (Decidable (_ ≤ _))

/-- `array_type`. -/
def arrayType (c : ClassId) : Option ClassId :=
  if c.dimensions < w.depth c.element then some c.array else none

/-- `setup_super_hierarchy`. -/
def setupSuperHierarchy (c : ClassId) : World :=
  let super := match classes.superOf c with
    | some super => (w.cd super).hierarchy
    | none => []
  { w with cd := update w.cd c { w.cd c with
      hierarchy := super ++ [c]
      hierarchySetups := (w.cd c).hierarchySetups + 1 } }

/-- The test of `setup_itables` for an interface that the class has already. -/
def addInterface (interfaces : List ClassId) (i : ClassId) : List ClassId :=
  if i ∈ interfaces then interfaces else interfaces ++ [i]

/-- `setup_itables`. -/
def setupItables (super c : ClassId) : List ClassId :=
  (classes.interfacesOf c ++ [super]).foldl
    (fun interfaces iface => (w.cd iface).interfaces.foldl addInterface interfaces)
    (w.cd c).interfaces

/-- `set_up_function_tables`. -/
def setUpFunctionTables (c : ClassId) : World :=
  let interfaces := match classes.superOf c with
    | some super => w.setupItables classes super c
    | none => (w.cd c).interfaces
  { w with cd := update w.cd c { w.cd c with
      interfaces := if classes.isInterfaceClass c then interfaces ++ [c] else interfaces
      tableSetups := (w.cd c).tableSetups + 1 } }

def record (call : Call) : World := { w with log := call :: w.log }

end World

section

variable (classes : Classes)

/-- `link_array_class`, where `link` is `link_class`; `true` for a status that is not 0. -/
def linkArrayClass (link : World → ClassId → Option (Bool × World)) (w : World) (c : ClassId) :
    Option (Bool × World) :=
  if (w.state c).isLinked then some (false, w)
  else
    let w := w.setState c .linked
    match c.baseComponent with
    | none => some (false, (w.setupSuperHierarchy classes c).setUpFunctionTables classes c)
    | some base =>
      match link w base with
      | none => none
      | some (failed, w) =>
        let w := w.setArrayStates base.element (if failed then .linkageError else .linked)
        some (failed, (w.setupSuperHierarchy classes c).setUpFunctionTables classes c)

/-- Links classes in order, up to one that fails. -/
def linkAll (link : World → ClassId → Option (Bool × World)) :
    World → List ClassId → Option (Bool × World)
  | w, [] => some (false, w)
  | w, c :: cs =>
    match link w c with
    | none => none
    | some (true, w) => some (true, w)
    | some (false, w) => linkAll link w cs

/-- Links the array type of a class, if there is one. -/
def linkArrayType (link : World → ClassId → Option (Bool × World)) (w : World) (c : ClassId) :
    Option (Bool × World) :=
  match w.arrayType c with
  | some a => linkArrayClass classes link w a
  | none => some (false, w)

/-- What `link_class` does when the supers of an ordinary class are linked. -/
def linkOrdinary (link : World → ClassId → Option (Bool × World)) (w : World) (c : ClassId) :
    Option (Bool × World) :=
  match linkArrayType classes link (w.setState c .linked) c, c.element with
  | some (_, w), .ordinary n =>
    if classes.verifies n then some (false, w.setUpFunctionTables classes c)
    else some (true, w.setState c .linkageError)
  | some (_, w), .primitive _ => some (false, w)
  | none, _ => none

/-- The body of `link_class`. -/
def linkBody (link : World → ClassId → Option (Bool × World)) (w : World) (c : ClassId) :
    Option (Bool × World) :=
  if w.state c ≠ .loaded then some (false, w)
  else
    match linkAll link w (classes.superOf c).toList with
    | none => none
    | some (true, w) => some (true, w.setState c .linkageError)
    | some (false, w) =>
      let w := w.setupSuperHierarchy classes c
      match linkAll link w (classes.interfacesOf c) with
      | none => none
      | some (true, w) => some (true, w.setState c .linkageError)
      | some (false, w) =>
        if c.kind ≠ .ordinary then linkArrayClass classes link w c
        else linkOrdinary classes link w c

/-- `link_class`, whether it fails. -/
def linkClass : Nat → World → ClassId → Option (Bool × World)
  | 0, _, _ => none
  | fuel + 1, w, c =>
    match linkBody classes (linkClass fuel) (w.record (.entered c)) c with
    | none => none
    | some (failed, w) => some (failed, w.record (.returned c failed))

/-- `primitive_array_classdesc`. -/
def primitiveArrayClassdesc (w : World) (component : ClassId) : World :=
  let result := component.array
  let w := { w with cd := update w.cd result { state := .initialized } }
  (w.setupSuperHierarchy classes result).setUpFunctionTables classes result

/-- `ordinary_array_classdesc`. -/
def ordinaryArrayClassdesc (fuel : Nat) (w : World) (component : ClassId) : Option World :=
  let result := component.array
  let w := { w with cd := update w.cd result { state := .loaded } }
  let linked :=
    if (w.state component).isLinked then (linkClass classes fuel w result).map Prod.snd else some w
  linked.map fun w => w.setState result (w.state component)

/-- `get_or_create_array_classdesc`. -/
def getOrCreateArrayClassdesc (fuel : Nat) (w : World) (c : ClassId) : Option World :=
  if (w.arrayType c).isSome then some w
  else
    let created := if c.kind = .primitive then some (primitiveArrayClassdesc classes w c)
      else ordinaryArrayClassdesc classes fuel w c
    created.map fun w => { w with depth := update w.depth c.element (c.dimensions + 1) }

/-- `initialize_class` of an ordinary class, up to where it goes to the supers or returns. -/
def initializeClass (fuel : Nat) (w : World) (n : Nat) : Option World :=
  let c := ClassId.ordinary n
  if w.state c = .initialized ∨ w.state c = .linkageError then some w
  else
    let linked := if (w.state c).isLinked then some (false, w) else linkClass classes fuel w c
    linked.map fun (failed, w) =>
      if failed then w
      else if w.state c = .initializing ∨ w.state c = .linkageError then w
      else w.setState c .initializing

/-- The end of `initialize_class`. -/
def finishInitialization (w : World) (n : Nat) (error : Bool) : World :=
  let s := if error then .linkageError else .initialized
  (w.setState (.ordinary n) s).setArrayStates (.ordinary n) s

/-- What the rest of the virtual machine asks for. -/
inductive Op
  | link (c : ClassId)
  | getOrCreateArray (c : ClassId)
  | initializeClass (n : Nat)
  | finishInitialization (n : Nat) (error : Bool)
  deriving DecidableEq, Repr

def Op.apply (fuel : Nat) (w : World) : Op → Option World
  | .link c => if w.Exists c then (linkClass classes fuel w c).map Prod.snd else none
  | .getOrCreateArray c =>
    if w.Exists c then getOrCreateArrayClassdesc classes fuel w c else none
  | .initializeClass n => Linker.initializeClass classes fuel w n
  | .finishInitialization n error =>
    if w.state (.ordinary n) = .initializing then some (Linker.finishInitialization w n error) else none

/-- A run in which each step meets `P`. -/
inductive Run (P : World → Op → World → Prop) : World → Prop
  | start : Run P .start
  | step {w w' : World} {op : Op} (fuel : Nat) : Run P w → op.apply classes fuel w = some w' →
      P w op w' → Run P w'

/-! ### Comparing classes -/

/-- The loop of `instanceof` over the dimensions of the target. -/
def removeDims : Nat → ClassId → ClassId → Option (ClassId × ClassId)
  | 0, o, target => some (o, target)
  | dims + 1, o, target =>
    match o.oneFewerDim, target.oneFewerDim with
    | some o, some target => removeDims dims o target
    | _, _ => none

variable (w : World)

/-- `instanceof_interface`. -/
def instanceofInterface (o target : ClassId) : Bool := o = target || target ∈ (w.cd o).interfaces

/-- `instanceof_super`. -/
def instanceofSuper (o target : ClassId) : Bool :=
  let depth := (w.cd target).hierarchy.length
  depth ≤ (w.cd o).hierarchy.length && (w.cd o).hierarchy[depth - 1]? = some target

/-- The comparison at the end of `instanceof`. -/
def instanceofNormal (o target : ClassId) : Bool :=
  if classes.isInterfaceClass target then instanceofInterface w o target
  else instanceofSuper w o target

/-- `instanceof`. -/
def instanceof (o target : ClassId) : Bool :=
  if o = target then true
  else if target.kind ≠ .ordinary then
    if o.kind = .ordinary then false
    else if o.kind = .ordinaryArray then
      match removeDims target.dimensions o target with
      | none => false
      | some (o, target) =>
        if o.kind = .primitive ∨ target.kind = .primitive then false
        else instanceofNormal classes w o target
    else target.dimensions = o.dimensions && target.primitiveComponent = o.primitiveComponent
  else instanceofNormal classes w o target

end

end BJvm.Linker
