import Mathlib.Data.List.Count

/-!
# Handles

The table of handles of a thread, and the two routines that most others make an object with: a
string, and the mirror of a class.  An object has a name that it keeps when the collector moves it,
so that the table is what it was when a handle has been made and dropped.  What the allocations and
the lookups of a routine return is its input.
-/

namespace BJvm.Handles

/-- `object`; zero is the null pointer. -/
abbrev Object := Nat

/-- `handle *`. -/
inductive Handle
  | nullptr
  /-- `&thread->null_handle` -/
  | nullHandle
  /-- `thread->handles + i` -/
  | slot (i : Nat)
  /-- A pointer to an object that is not in the table. -/
  | stray (obj : Object)
  deriving DecidableEq, Repr

/-- Why a routine does not return. -/
inductive Stop
  /-- `UNREACHABLE` of `make_handle_impl` -/
  | exhausted
  /-- `CHECK` -/
  | check
  /-- The null pointer is dereferenced. -/
  | nullPointer
  deriving DecidableEq, Repr

/-- A routine that works on `thread->handles`, of which there are `thread->handles_capacity`. -/
abbrev Native := StateT (List Object) (Except Stop)

/-- `HANDLES_CAPACITY`. -/
def HANDLES_CAPACITY : Nat := 200

/-- `make_handle_impl`. -/
def makeHandle (obj : Object) : Native Handle := fun handles =>
  if obj = 0 then .ok (.nullHandle, handles)
  else match handles.findIdx? (· = 0) with
    | some i => .ok (.slot i, handles.set i obj)
    | none => .error .exhausted

/-- What `drop_handle` does to the table. -/
def dropped (handles : List Object) : Handle → List Object
  | .slot i => handles.set i 0
  | _ => handles

/-- `drop_handle`. -/
def dropHandle (handle : Handle) : Native Unit := fun handles => .ok ((), dropped handles handle)

/-- `handle->obj`. -/
def obj : Handle → Native Object
  | .nullptr => fun _ => .error .nullPointer
  | .nullHandle => pure 0
  | .slot i => fun handles => .ok (handles.getD i 0, handles)
  | .stray obj => pure obj

/-- Something in the object of the handle is written or read. -/
def deref (handle : Handle) : Native Unit := do
  let o ← obj handle
  if o = 0 then throw .nullPointer

/-- What the calls in `MakeJStringFromModifiedUTF8` return. -/
structure JString where
  /-- `new_object` -/
  string : Object
  /-- `convert_modified_utf8_to_chars` -/
  valid : Bool := true
  /-- `CreatePrimitiveArray1D` -/
  value : Object
  /-- `lookup_interned_jstring` -/
  interned : Object := 0
  deriving Repr

/-- `make_jstring_modified_utf8`. -/
def makeJstringModifiedUtf8 (s : JString) : Native Object := do
  let str ← makeHandle s.string
  let o ← obj str
  if o = 0 then pure 0
  else
    dropHandle str
    pure (if s.valid && s.value ≠ 0 then o else 0)

/-- `MakeJStringFromModifiedUTF8`. -/
def makeJString (s : JString) : Native Object := do
  let o ← makeJstringModifiedUtf8 s
  pure (if o = 0 then 0 else if s.interned ≠ 0 then s.interned else o)

/-- A call of `get_class_mirror`: there is no class, or it has its mirror, or `new_object` makes one
and the mirror of the component, if any, is got first. -/
inductive Mirror
  | noClass
  | cached (mirror : Object)
  | new (mirror : Object) (component : Mirror)
  deriving DecidableEq, Repr

/-- `get_class_mirror`. -/
def getClassMirror : Mirror → Native Object
  | .noClass => pure 0
  | .cached mirror => pure mirror
  | .new mirror component => do
    let handle ← makeHandle mirror
    let o ← obj handle
    if o = 0 then pure 0
    else
      let _ ← getClassMirror component
      dropHandle handle
      pure o

/-- The mirror that `get_class_mirror` returns. -/
def Mirror.value : Mirror → Object
  | .noClass => 0
  | .cached mirror => mirror
  | .new mirror _ => mirror

/-- Whether the string can be made. -/
def JString.made (s : JString) : Bool := s.string ≠ 0 && s.valid && s.value ≠ 0

end BJvm.Handles
