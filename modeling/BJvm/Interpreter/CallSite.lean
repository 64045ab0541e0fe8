import BJvm.Linkage.FunctionTables

/-!
# Call sites

The handlers of `interpreter2.c` for `invokevirtual` and `invokeinterface` and for the kinds they
rewrite their instruction to.  A receiver is known by its class, and is `none` where it is null.
-/

namespace BJvm.Interp

open Linkage

/-- The kind of the instruction, with what it keeps in `ic` and `ic2`; `none` is what a lookup
beyond the end of a vtable reads. -/
inductive InsnKind
  | invokevirtual
  | invokeinterface
  | invokesigpoly (ic : MethodPtr)
  | invokespecialResolved (ic : MethodPtr)
  | invokevtableMonomorphic (ic : Option MethodPtr) (ic2 : Nat)
  | invokeitableMonomorphic (ic : MethodPtr) (ic2 : Nat)
  | invokevtablePolymorphic (ic2 : Option Nat)
  | invokeitablePolymorphic (ic ic2 : Nat)
  deriving DecidableEq, Repr

/-- `bytecode_insn`, with the field `resolved` of its `cp->methodref`. -/
structure Insn where
  kind : InsnKind
  resolved : Option MethodPtr := none
  deriving DecidableEq, Repr

/-- What a call comes to: a method is invoked, or an exception raised before there is one. -/
inductive Outcome
  | invoke (m : MethodPtr)
  | nullPointerException
  | resolutionError
  | abstractMethodError (m : MethodPtr)
  | undefined
  deriving DecidableEq, Repr

/-- Invokes the method that a lookup in a vtable finds. -/
def invokeEntry : Option MethodPtr → Outcome
  | some m => .invoke m
  | none => .undefined

/-- `resolve_methodref`; `attempt` is what it finds where it was not resolved before, and `none`
where that ends in an exception. -/
def resolveMethodref (insn : Insn) (attempt : Option MethodPtr) : Insn :=
  { insn with resolved := insn.resolved.or attempt }

section

variable (classes : Nat → Classdesc) (t : Tables)

/-- `invokevirtual_impl_void`.  Of the handlers' results `none` stands for the jump to the handler
of the new kind. -/
def invokevirtualImpl (insn : Insn) (receiver : Nat) (attempt : Option MethodPtr) :
    Insn × Option Outcome :=
  let insn := resolveMethodref insn attempt
  match insn.resolved with
  | none => (insn, some .resolutionError)
  | some resolved =>
    if (methodAt classes resolved).isSignaturePolymorphic then
      ({ insn with kind := .invokesigpoly resolved }, none)
    else if (classes resolved.myClass).accessFlags.isInterface then
      ({ insn with kind := .invokeinterface }, none)
    else if (methodAt classes resolved).accessFlags.isFinal then
      ({ insn with kind := .invokespecialResolved resolved }, none)
    else
      let method := vtableLookup t receiver (t.vtableIndex resolved)
      ({ insn with kind := .invokevtableMonomorphic method receiver }, none)

/-- `invokeinterface_impl_void`. -/
def invokeinterfaceImpl (insn : Insn) (receiver : Nat) (attempt : Option MethodPtr) :
    Insn × Option Outcome :=
  let insn := resolveMethodref insn attempt
  match insn.resolved with
  | none => (insn, some .resolutionError)
  | some resolved =>
    if !(classes resolved.myClass).accessFlags.isInterface then
      ({ insn with kind := .invokevirtual }, none)
    else
      match itableLookup t receiver resolved.myClass (t.itableIndex resolved) with
      | none => (insn, some (.abstractMethodError resolved))
      | some method =>
        if (methodAt classes resolved).accessFlags.isFinal then
          ({ insn with kind := .invokespecialResolved resolved }, none)
        else ({ insn with kind := .invokeitableMonomorphic method receiver }, none)

/-- `make_invokevtable_polymorphic_`. -/
def makeInvokevtablePolymorphic (insn : Insn) (ic : Option MethodPtr) : Insn :=
  { insn with kind := .invokevtablePolymorphic (ic.map t.vtableIndex) }

/-- `make_invokeitable_polymorphic_`. -/
def makeInvokeitablePolymorphic (insn : Insn) : Insn :=
  match insn.resolved with
  | none => insn
  | some resolved =>
    { insn with kind := .invokeitablePolymorphic resolved.myClass (t.itableIndex resolved) }

/-- `invokeitable_polymorphic_impl_void`. -/
def invokeitablePolymorphicImpl (insn : Insn) (ic ic2 receiver : Nat) : Outcome :=
  match itableLookup t receiver ic ic2 with
  | some method => .invoke method
  | none =>
    match insn.resolved with
    | some resolved => .abstractMethodError resolved
    | none => .undefined

/-- The handler of a kind. -/
def handle (kind : InsnKind) (insn : Insn) (receiver : Option Nat) (attempt : Option MethodPtr) :
    Insn × Option Outcome :=
  match receiver with
  | none => (insn, some .nullPointerException)
  | some receiver =>
    match kind with
    | .invokevirtual => invokevirtualImpl classes t insn receiver attempt
    | .invokeinterface => invokeinterfaceImpl classes t insn receiver attempt
    | .invokesigpoly ic => (insn, some (.invoke ic))
    | .invokespecialResolved ic => (insn, some (.invoke ic))
    | .invokevtableMonomorphic ic ic2 =>
      if receiver ≠ ic2 then (makeInvokevtablePolymorphic t insn ic, none)
      else (insn, some (invokeEntry ic))
    | .invokeitableMonomorphic ic ic2 =>
      if receiver ≠ ic2 then (makeInvokeitablePolymorphic t insn, none)
      else (insn, some (.invoke ic))
    | .invokevtablePolymorphic ic2 =>
      (insn, some (invokeEntry (ic2.bind (vtableLookup t receiver))))
    | .invokeitablePolymorphic ic ic2 =>
      (insn, some (invokeitablePolymorphicImpl t insn ic ic2 receiver))

/-- The handlers one after the other, from that of `kind`. -/
def runHandlers : Nat → InsnKind → Insn → Option Nat → Option MethodPtr → Insn × Outcome
  | 0, _, insn, _, _ => (insn, .undefined)
  | fuel + 1, kind, insn, receiver, attempt =>
    match handle classes t kind insn receiver attempt with
    | (insn, some outcome) => (insn, outcome)
    | (insn, none) => runHandlers fuel insn.kind insn receiver attempt

/-- One execution of the instruction by a handler entered for `kind`: no more than three run. -/
def execute (kind : InsnKind) (insn : Insn) (receiver : Option Nat) (attempt : Option MethodPtr) :
    Insn × Outcome :=
  runHandlers classes t 3 kind insn receiver attempt

/-- The same call by a lookup of the resolved method in the receiver's class. -/
def direct (receiver : Option Nat) (resolved : Option MethodPtr) : Outcome :=
  match receiver, resolved with
  | none, _ => .nullPointerException
  | some _, none => .resolutionError
  | some receiver, some resolved =>
    if (classes resolved.myClass).accessFlags.isInterface then
      match itableLookup t receiver resolved.myClass (t.itableIndex resolved) with
      | some method => .invoke method
      | none => .abstractMethodError resolved
    else invokeEntry (vtableLookup t receiver (t.vtableIndex resolved))

end

/-- A call at the site: what it came to, and what the direct lookup would have. -/
structure Call where
  receiver : Option Nat
  outcome : Outcome
  direct : Outcome
  deriving DecidableEq, Repr

/-- The runs of an instruction of the kind `first` whose constant pool entry names the method `m`,
with receivers of the classes `P`.  Classes are linked in between, another instruction may resolve
the entry, and a call whose handler was entered before the instruction was rewritten (resolution
runs class initializers, which may reach the same instruction) goes on behind later ones. -/
inductive Run (classes : Nat → Classdesc) (first : InsnKind) (m : MethodPtr) (P : Nat → Prop) :
    List Nat → Tables → Insn → List Call → Prop
  | start {linked : List Nat} {t : Tables} : Linked classes linked t →
      Run classes first m P linked t { kind := first } []
  | link {linked : List Nat} {t : Tables} {insn : Insn} {calls : List Call} {cd : Nat} :
      Run classes first m P linked t insn calls → cd ∉ linked →
      (∀ super, (classes cd).superClass = some super → super ∈ linked) →
      (∀ iface ∈ (classes cd).interfaces, iface ∈ linked) →
      Run classes first m P (cd :: linked) (linkClass classes t cd) insn calls
  | resolve {linked : List Nat} {t : Tables} {insn : Insn} {calls : List Call} :
      Run classes first m P linked t insn calls → m.myClass ∈ linked →
      Run classes first m P linked t { insn with resolved := some m } calls
  | call {linked : List Nat} {t : Tables} {insn : Insn} {calls : List Call} {kind : InsnKind}
      {receiver : Option Nat} {attempt : Option MethodPtr} :
      Run classes first m P linked t insn calls → kind = insn.kind ∨ kind = first →
      (∀ c ∈ receiver, P c ∧ c ∈ linked) → (∀ m' ∈ attempt, m' = m ∧ m.myClass ∈ linked) →
      Run classes first m P linked t (execute classes t kind insn receiver attempt).1
        ({ receiver := receiver, outcome := (execute classes t kind insn receiver attempt).2,
           direct := direct classes t receiver (insn.resolved.or attempt) } :: calls)

end BJvm.Interp
