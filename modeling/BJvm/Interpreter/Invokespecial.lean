import BJvm.Interpreter.CallSite
import BJvm.Linkage.MethodResolution

/-!
# The instruction `invokespecial`

`invokespecial_impl_void` of `interpreter2.c`, up to the method that it rewrites its instruction to
call.  The nop that it puts in the place of `Object.<init>` is taken for a call of it.
-/

namespace BJvm.Interp

open Linkage

variable (classes : Nat → Classdesc) (t : Tables)

/-- `instanceof_super`. -/
def instanceofSuper (o target : Nat) : Bool :=
  (t.hierarchy target).length ≤ (t.hierarchy o).length &&
    (t.hierarchy o)[(t.hierarchy target).length - 1]? = some target

/-- The test for the class from which the lookup starts, where `method` is that of the frame. -/
def startsAtSuper (method resolved : MethodPtr) : Bool :=
  !(methodAt classes method).isCtor &&
    (!(classes resolved.myClass).accessFlags.isInterface &&
      (method.myClass ≠ resolved.myClass && instanceofSuper t method.myClass resolved.myClass))

/-- `lookup_on`. -/
def lookupOn (method resolved : MethodPtr) : Nat :=
  if startsAtSuper classes t method resolved then
    (classes method.myClass).superClass.getD resolved.myClass
  else resolved.myClass

/-- The outcome for a method that a lookup has found. -/
def callCandidate (candidate : MethodPtr) : Outcome :=
  if (methodAt classes candidate).accessFlags.isAbstract then .abstractMethodError candidate
  else .invoke candidate

/-- `invokespecial_impl_void` in the frame of `method`, for a receiver that may be null and a method
reference that may fail to be resolved. -/
def invokespecialImpl (fuel : Nat) (method : MethodPtr) (receiver : Option Nat)
    (resolved : Option MethodPtr) : Outcome :=
  match receiver, resolved with
  | none, _ => .nullPointerException
  | some _, none => .resolutionError
  | some _, some resolved =>
    let lookupOn := lookupOn classes t method resolved
    match lookupMethod classes (methodAt classes resolved).name
        (methodAt classes resolved).unparsedDescriptor fuel lookupOn true false with
    | some candidate => callCandidate classes candidate
    | none =>
      if (classes resolved.myClass).accessFlags.isInterface then
        match itableLookup t lookupOn resolved.myClass (t.itableIndex resolved) with
        | some candidate => .invoke candidate
        | none => .abstractMethodError resolved
      else .abstractMethodError resolved

end BJvm.Interp
