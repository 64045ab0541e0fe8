import BJvm.Linkage.FunctionTables

/-!
# Looking up a method

`method_lookup` of `bjvm.c` with both of its flags; `methodLookup` is the lookup in the class and its
superclasses alone.  A class is linked, so its superclasses and superinterfaces are finitely many.
-/

namespace BJvm.Linkage

variable (classes : Nat → Classdesc) (name methodDescriptor : List Char)

/-- The loop of `method_lookup`, from the class `search` on. -/
def searchClasses (searchSuperclasses : Bool) : Nat → Nat → Option MethodPtr
  | 0, _ => none
  | fuel + 1, search =>
    (lookupOwn classes search name methodDescriptor).or
      (if searchSuperclasses then
        (classes search).superClass.bind (searchClasses searchSuperclasses fuel)
      else none)

/-- `method_lookup`. -/
def lookupMethod : Nat → Nat → Bool → Bool → Option MethodPtr
  | 0, _, _, _ => none
  | fuel + 1, descriptor, searchSuperclasses, searchSuperinterfaces =>
    (searchClasses classes name methodDescriptor searchSuperclasses (fuel + 1) descriptor).or
      (if searchSuperinterfaces then
        ((classes descriptor).interfaces.findSome? (lookupMethod fuel · false true)).or
          -- the superinterfaces of the superclasses
          (if searchSuperclasses then
            (classes descriptor).superClass.bind (lookupMethod fuel · true true)
          else none)
      else none)

end BJvm.Linkage
