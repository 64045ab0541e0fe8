import BJvm.Interpreter.Resumption
import BJvm.Proofs.TypedCode

/-!
# The cached top of the stack

A machine represents the state of the plain interpreter when its slots hold the values of the stack,
the top in the register or in memory with the rest (`Entry`).  What a handler ends in represents
what the plain instruction leaves (`Sim`); the macros that handlers end in, and the exceptions, keep
to that each by a lemma of its own.
-/

namespace BJvm.Interpreter

open ClassFile StackValue Function

variable {W : Type} {vm : Vm W} {fm : FrameMethod} {m : Machine W} {s s' : Plain W} {tos : Tos}
  {v : Value} {vs rest : List Value} {stack : Nat → StackValue}

/-! ### Slots and registers -/

/-- The slots from the bottom on hold the values. -/
def Holds (stack : Nat → StackValue) : List Value → Prop
  | [] => True
  | v :: vs => canonical v.kind (stack vs.length) = v.word ∧ Holds stack vs

/-- The register that caches the top of the stack. -/
def registerOf : List Value → Tos
  | [] => .void
  | v :: _ => .fill (reduced v.kind) v.word

@[simp] theorem canonical_of_ne {k : TypeKind} (h : k ≠ .float) (x : StackValue) :
    canonical k x = x := by
  cases k <;> first | rfl | exact absurd rfl h

@[simp] theorem canonical_float (x : StackValue) : canonical .float x = .ofFloat x.low := rfl

@[simp] theorem canonical_canonical (k : TypeKind) (x : StackValue) :
    canonical k (canonical k x) = canonical k x := by
  cases k <;> simp [canonical]

theorem fill_canonical (k : TypeKind) (x : StackValue) :
    Tos.fill (reduced k) (canonical k x) = Tos.fill (reduced k) x := by
  cases k <;> simp [canonical, reduced, Tos.fill]

theorem Holds.congr {stack' : Nat → StackValue} : ∀ {vs : List Value}, Holds stack vs →
    (∀ i, i < vs.length → stack' i = stack i) → Holds stack' vs
  | [], _, _ => trivial
  | v :: vs, ⟨hv, h⟩, heq => by
    refine ⟨?_, h.congr fun i hi => heq i (by simp; omega)⟩
    rw [heq vs.length (by simp), hv]

theorem Holds.write (h : Holds stack vs) {i : Nat} (hi : vs.length ≤ i) (x : StackValue) :
    Holds (update stack i x) vs :=
  h.congr fun j hj => update_of_ne (by omega) ..

theorem Holds.push (h : Holds stack vs) {x : StackValue} (hx : canonical v.kind x = v.word) :
    Holds (update stack vs.length x) (v :: vs) :=
  ⟨by rw [update_self, hx], h.write le_rfl x⟩

theorem Holds.fill (h : Holds stack (v :: vs)) :
    Tos.fill (reduced v.kind) (stack vs.length) = registerOf (v :: vs) := by
  rw [registerOf, ← h.1, fill_canonical]

theorem Holds.drop : ∀ {vs : List Value} (n : Nat), Holds stack vs → Holds stack (vs.drop n)
  | _, 0, h => h
  | [], _ + 1, h => h
  | _ :: _, n + 1, ⟨_, h⟩ => h.drop n

/-! ### Machines and states -/

/-- The two interpreters see the same memory, locals and instruction. -/
structure SameFrame (m : Machine W) (s : Plain W) : Prop where
  heap : m.heap = s.heap
  locals : m.locals = s.locals
  pc : m.pc = s.pc

/-- All values are in memory. -/
structure Spilled (m : Machine W) (s : Plain W) : Prop extends SameFrame m s where
  sp : m.sp = s.stack.length
  all : Holds m.stack s.stack

/-- The values below the top are in memory, and a slot holds the top as it would hold it. -/
structure Cached (m : Machine W) (s : Plain W) (v : Value) (vs : List Value) : Prop
    extends SameFrame m s where
  stack_eq : s.stack = v :: vs
  sp : m.sp = vs.length + 1
  below : Holds m.stack vs
  top : canonical v.kind v.word = v.word

/-- How an instruction is entered: with all values in memory, or with the top of the stack in the
register. -/
inductive Entry (m : Machine W) (s : Plain W) : Tos → Prop
  | spilled : Spilled m s → Entry m s .void
  | cached {v : Value} {vs : List Value} : Cached m s v vs →
      Entry m s (.fill (reduced v.kind) v.word)

/-- The kinds that an instruction has after it has rewritten itself and jumped with all values in
memory. -/
def rewritten : InsnCodeKind → Bool
  | .parsed .pop | .parsed .invokevirtual | .parsed .invokeinterface => true
  | .resolved .new | .resolved .invokevtableMonomorphic | .resolved .invokevtablePolymorphic
  | .resolved .invokeitableMonomorphic | .resolved .invokeitablePolymorphic
  | .resolved .invokespecial | .resolved .invokestatic | .resolved .invokecallsite
  | .resolved .invokesigpoly | .resolved (.getstatic _) => true
  | _ => false

/-- The configuration represents that of the plain interpreter.  A void register goes with an empty
stack, or with an instruction that has been rewritten. -/
def Related : Config W → PlainConfig W → Prop
  | .running m tos, .running s =>
    Entry m s tos ∧ (tos = .void → s.stack ≠ [] → rewritten s.insn.code)
  | .returned heap v, .returned heap' v' => heap = heap' ∧ v = v'
  | .thrown heap e, .thrown heap' e' => heap = heap' ∧ e = e'
  | _, _ => False

/-- The depth and the register that the analysis has recorded at the instruction are those of the
stack. -/
structure Expected (fm : FrameMethod) (s : Plain W) : Prop where
  depth : fm.insnIndexToSd s.pc = s.stack.length
  tosBefore : s.insn.tosBefore = (registerOf s.stack).kind

theorem SameFrame.insn (h : SameFrame m s) : m.insn = s.insn := by
  rw [Machine.insn, Plain.insn, h.heap, h.pc]

theorem Spilled.cached (h : Spilled m s) (hs : s.stack = v :: vs) : Cached m s v vs := by
  have hall := h.all
  rw [hs] at hall
  refine ⟨h.toSameFrame, hs, by rw [h.sp, hs]; rfl, hall.2, ?_⟩
  rw [← hall.1, canonical_canonical]

theorem Cached.setTop (h : Cached m s v vs) {x : StackValue} (hx : canonical v.kind x = v.word) :
    Spilled (m.setTop x) s := by
  refine ⟨⟨h.heap, h.locals, h.pc⟩, by rw [h.stack_eq]; exact h.sp, ?_⟩
  rw [h.stack_eq]
  show Holds (update m.stack (m.sp - 1) x) _
  rw [show m.sp - 1 = vs.length by rw [h.sp]; rfl]
  exact h.below.push hx

/-- Both interpreters rewrite an instruction in the same way. -/
theorem SameFrame.rewrite (h : SameFrame m s) (f : Insn → Insn) :
    SameFrame (m.rewrite f) (s.rewrite f) := by
  refine ⟨?_, h.locals, h.pc⟩
  rw [Machine.rewrite, Plain.rewrite, h.insn, h.heap, h.pc]

theorem Spilled.rewrite (h : Spilled m s) (f : Insn → Insn) : Spilled (m.rewrite f) (s.rewrite f) :=
  ⟨h.toSameFrame.rewrite f, h.sp, h.all⟩

theorem Cached.rewrite (h : Cached m s v vs) (f : Insn → Insn) :
    Cached (m.rewrite f) (s.rewrite f) v vs :=
  ⟨h.toSameFrame.rewrite f, h.stack_eq, h.sp, h.below, h.top⟩

theorem Spilled.spillVoid (h : Spilled m s) : Spilled m.spillVoid s :=
  ⟨⟨h.heap, h.locals, h.pc⟩, h.sp, h.all⟩

theorem Spilled.setHeap (h : Spilled m s) (heap : Heap W) :
    Spilled { m with heap } { s with heap } :=
  ⟨⟨rfl, h.locals, h.pc⟩, h.sp, h.all⟩

theorem Cached.setHeap (h : Cached m s v vs) (heap : Heap W) :
    Cached { m with heap } { s with heap } v vs :=
  ⟨⟨rfl, h.locals, h.pc⟩, h.stack_eq, h.sp, h.below, h.top⟩

/-- Spilling the register leaves all values in memory. -/
theorem Entry.forward (h : Entry m s tos) : Spilled (m.forward tos) s := by
  cases h with
  | spilled h => exact h
  | @cached v vs h =>
    have hw := h.top
    cases hk : v.kind <;> rw [hk] at hw <;> simp only [reduced, Tos.fill, Machine.forward] <;>
      exact h.setTop (by rw [hk]; first | exact hw | simpa using hw)

/-! ### Where the interpreter goes on -/

/-- A jump with a value in the register. -/
theorem related_cached (h : Cached m s v vs) :
    Related (.running m (.fill (reduced v.kind) v.word)) (.running s) := by
  refine ⟨.cached h, fun hv => ?_⟩
  cases hk : v.kind <;> simp [hk, reduced, Tos.fill] at hv

/-- `STACK_POLYMORPHIC_JMP`, when all values are in memory. -/
theorem related_polymorphic (h : Spilled m s) (he : Expected fm s) :
    Related (.running m (.fill m.insn.tosBefore (m.stack (m.sp - 1)))) (.running s) := by
  rw [h.insn, he.tosBefore]
  rcases hs : s.stack with _ | ⟨v, vs⟩
  · exact ⟨.spilled h, fun _ hne => absurd hs hne⟩
  · have hc := h.cached hs
    have hall := h.all
    rw [hs] at hall
    have hfill := hall.fill
    rw [show m.sp - 1 = vs.length by rw [hc.sp]; rfl]
    rw [registerOf, Tos.kind_fill, hfill]
    exact related_cached hc

/-- `JMP_VOID` to an instruction that has been rewritten. -/
theorem related_void (h : Spilled m s) (hv : rewritten s.insn.code) :
    Related (.running m .void) (.running s) :=
  ⟨.spilled h, fun _ _ => hv⟩

/-- `java_interpret_begin`, when all values are in memory. -/
theorem related_begin (hh : m.heap = s.heap) (hl : m.locals = s.locals)
    (hp : m.programCounter = s.pc) (hb : Holds m.stack s.stack) (he : Expected fm s) :
    Related (interpretBegin fm m) (.running s) := by
  have hsp : fm.insnIndexToSd m.programCounter = s.stack.length := by rw [hp, he.depth]
  have hs : Spilled { m with pc := m.programCounter, sp := fm.insnIndexToSd m.programCounter } s :=
    ⟨⟨hh, hl, hp⟩, hsp, hb⟩
  exact related_polymorphic hs he

theorem related_unwind {e : StackValue} (hh : m.heap = s.heap) (hl : m.locals = s.locals)
    (hp : m.programCounter = s.pc)
    (he : ∀ s', s.unwind vm fm e = .running s' → Expected fm s') :
    Related (unwind vm fm m e) (s.unwind vm fm e) := by
  unfold unwind Plain.unwind at *
  rw [hh, hp]
  rcases hf : findExceptionHandler vm s.pc (vm.descriptor s.heap e) fm.exceptionTable s.heap e with
    ⟨heap, e', _ | ent⟩
  · exact ⟨rfl, rfl⟩
  · rw [hf] at he
    refine related_begin rfl hl rfl ⟨?_, trivial⟩ (he _ rfl)
    show canonical .reference (update m.stack 0 e' 0) = e'
    rw [update_self, canonical_of_ne (by decide)]

/-! ### Handlers -/

/-- What a handler ends in represents what the plain instruction does, or is one of the
configurations in `back`. -/
def Sim (vm : Vm W) (fm : FrameMethod) (back : Config W → Prop) (next : Next W)
    (p : Option (PlainConfig W)) : Prop :=
  ∀ p', p = some p' → (∀ s', p' = .running s' → Expected fm s') →
    ∃ c, next.loop vm fm = some c ∧ (Related c p' ∨ back c)

section

variable {pushes : List TypeKind} {back : Config W → Prop} {next : Next W} {k : TypeKind}

theorem Sim.abort : Sim vm fm back next (Plain.finish vm fm pushes rest .abort) := fun p' hp => by
  simp [Plain.finish] at hp

theorem Sim.throw {e : StackValue} (h : SameFrame m s) (hp : m.programCounter = m.pc) :
    Sim vm fm back (.exceptionThrown m e) (Plain.finish vm fm pushes rest (.throw s e)) := by
  intro p' heq he
  cases Option.some.inj heq
  exact ⟨_, rfl, .inl (related_unwind h.heap h.locals (hp.trans h.pc) he)⟩

theorem Sim.throwExn {e : Exn} (h : SameFrame m s) (hp : m.programCounter = m.pc) :
    Sim vm fm back (throwExn vm e m) (Plain.finish vm fm pushes rest (raise vm e s)) := by
  unfold Interpreter.throwExn raise
  rw [h.heap]
  exact Sim.throw ⟨rfl, h.locals, h.pc⟩ hp

theorem Sim.perform {r : Request} {k : Machine W → StackValue → Next W}
    {k' : Plain W → StackValue → Outcome W} (h : SameFrame m s) (hp : m.programCounter = m.pc)
    (hk : ∀ heap v, vm.request r s.heap = (heap, .ok v) → Sim vm fm back (k { m with heap } v)
      (Plain.finish vm fm pushes rest (k' { s with heap } v))) :
    Sim vm fm back (perform vm r m k) (Plain.finish vm fm pushes rest (ask vm r s k')) := by
  unfold Interpreter.perform ask
  rw [h.heap]
  rcases hr : vm.request r s.heap with ⟨heap, e | v⟩
  · exact Sim.throw ⟨rfl, h.locals, h.pc⟩ hp
  · exact hk heap v hr

theorem Sim.npeOnNull {obj : StackValue} {out : Outcome W} (h : SameFrame m s)
    (hk : obj ≠ 0 → Sim vm fm back next (Plain.finish vm fm pushes rest out)) :
    Sim vm fm back (npeOnNull vm obj m next)
      (Plain.finish vm fm pushes rest (nonNull vm obj s out)) := by
  unfold Interpreter.npeOnNull nonNull
  split_ifs with hobj
  · exact Sim.throwExn ⟨h.heap, h.locals, h.pc⟩ rfl
  · exact hk hobj

/-- A jump with the value pushed in the register. -/
theorem Sim.jump {r : StackValue} (h : SameFrame m s) (hsp : m.sp = rest.length + 1)
    (hb : Holds m.stack rest) (hv : k ≠ .void) (htos : tos = .fill (reduced k) r) :
    Sim vm fm back (.jump { m with pc := m.pc + 1 } tos)
      (Plain.finish vm fm [k] rest (.next s r)) := by
  have hres : results [k] r = [⟨k, canonical k r⟩] := by simp [results, hv]
  intro p' heq _
  cases Option.some.inj heq
  rw [hres]
  refine ⟨_, rfl, .inl ?_⟩
  have hc : Cached { m with pc := m.pc + 1 }
      { s with pc := s.pc + 1, stack := ⟨k, canonical k r⟩ :: rest } ⟨k, canonical k r⟩ rest :=
    ⟨⟨h.heap, h.locals, by rw [h.pc]⟩, rfl, hsp, hb, canonical_canonical k r⟩
  rw [htos, ← fill_canonical]
  exact related_cached hc

theorem Sim.nextInt {r : BitVec 64} (h : SameFrame m s) (hsp : m.sp = rest.length + 1)
    (hb : Holds m.stack rest) (hk : reduced k = .int) (hv : k ≠ .void) :
    Sim vm fm back (nextInt m r) (Plain.finish vm fm [k] rest (.next s r)) :=
  .jump h hsp hb hv (by rw [hk]; rfl)

theorem Sim.nextFloat {r : BitVec 32} (h : SameFrame m s) (hsp : m.sp = rest.length + 1)
    (hb : Holds m.stack rest) :
    Sim vm fm back (nextFloat m r) (Plain.finish vm fm [.float] rest (.next s (.ofFloat r))) :=
  .jump h hsp hb (by decide) (by simp [reduced, Tos.fill])

theorem Sim.nextDouble {r : BitVec 64} (h : SameFrame m s) (hsp : m.sp = rest.length + 1)
    (hb : Holds m.stack rest) :
    Sim vm fm back (nextDouble m r) (Plain.finish vm fm [.double] rest (.next s r)) :=
  .jump h hsp hb (by decide) rfl

theorem Sim.polymorphicTo (h : Spilled m s') :
    Sim vm fm back (stackPolymorphicJmp m) (some (.running s')) := by
  intro p' heq he
  cases Option.some.inj heq
  exact ⟨_, rfl, .inl (related_polymorphic h (he _ rfl))⟩

/-- A jump to a target with all values in memory. -/
theorem Sim.polymorphic {target : Nat} {out : Outcome W} (h : SameFrame m s)
    (hout : Plain.finish vm fm pushes rest out =
      some (.running { s with pc := target, stack := rest }))
    (hsp : m.sp = rest.length) (hb : Holds m.stack rest) :
    Sim vm fm back (stackPolymorphicJmp { m with pc := target })
      (Plain.finish vm fm pushes rest out) := by
  rw [hout]
  exact Sim.polymorphicTo ⟨⟨h.heap, h.locals, rfl⟩, hsp, hb⟩

/-- A jump to the instruction itself, which has been rewritten. -/
theorem Sim.again (h : Spilled m s) (hv : rewritten s.insn.code) :
    Sim vm fm back (jmpVoid m) (Plain.finish vm fm pushes rest (.again s)) := by
  intro p' heq _
  cases Option.some.inj heq
  exact ⟨_, rfl, .inl (related_void h hv)⟩

end

end BJvm.Interpreter
