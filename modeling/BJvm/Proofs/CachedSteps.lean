import BJvm.Proofs.CachedResolution

/-!
# Each handler answers its instruction

The cases of an instruction by what its handlers are made of: the tables have a handler for each
register that the instruction can be entered with, and it does what the plain instruction does
(`Typed.answers`).
-/

namespace BJvm.Interpreter

open ClassFile StackValue Function

variable {W : Type} {vm : Vm W} {fm : FrameMethod} {P : TypedCode} {m : Machine W} {s : Plain W}
  {tos : Tos} {c : InsnCodeKind} {code : InsnCode} {pops pushes : List TypeKind} {k : TypeKind}
  {v : Value} {vs rest : List Value}

/-- A configuration for the same state, with the fuel filled up. -/
def Waits (m : Machine W) (s : Plain W) (c : Config W) : Prop :=
  Related c (.running s) ∧ c.rank < (Config.running m .void).rank

/-- There is a handler, and what it ends in represents what the plain instruction leaves. -/
def Answers (vm : Vm W) (fm : FrameMethod) (m : Machine W) (tos : Tos) (s : Plain W) : Prop :=
  ∃ next, dispatch vm fm m tos = some next ∧ Sim vm fm (Waits m s) next (s.step vm fm)

/-! ### Tables -/

theorem dispatch_int {x : BitVec 64} {h : IntHandler W} (hc : m.insn.code = c)
    (ht : jmpTableInt vm fm c = some h) : dispatch vm fm m (.int x) = some (h m x) := by
  rw [dispatch, hc, ht]
  rfl

theorem dispatch_float {x : BitVec 32} {h : FloatHandler W} (hc : m.insn.code = c)
    (ht : jmpTableFloat vm fm c = some h) : dispatch vm fm m (.float x) = some (h m x) := by
  rw [dispatch, hc, ht]
  rfl

theorem dispatch_double {x : BitVec 64} {h : DoubleHandler W} (hc : m.insn.code = c)
    (ht : jmpTableDouble vm fm c = some h) : dispatch vm fm m (.double x) = some (h m x) := by
  rw [dispatch, hc, ht]
  rfl

/-- The tables hold the handler `h` of an instruction with its operands in memory. -/
structure Forwards (vm : Vm W) (fm : FrameMethod) (c : InsnCodeKind) (h : VoidHandler W) : Prop where
  int : jmpTableInt vm fm c = some (forwardInt h)
  float : jmpTableFloat vm fm c = some (forwardFloat h)
  double : jmpTableDouble vm fm c = some (forwardDouble h)

theorem dispatch_forward {h : VoidHandler W} (hc : m.insn.code = c) (hf : Forwards vm fm c h)
    (hvoid : tos = .void → jmpTableVoid vm fm c = some h) :
    dispatch vm fm m tos = some (h (m.forward tos)) := by
  cases tos with
  | void =>
    rw [dispatch, hc, hvoid rfl]
    rfl
  | int x => exact dispatch_int hc hf.int
  | float x => exact dispatch_float hc hf.float
  | double x => exact dispatch_double hc hf.double

/-! ### Operands -/

theorem operandKinds_eq {insn : BytecodeInsn} {effect : List TypeKind × List TypeKind}
    (hk : insn.kind = code) (he : stackEffect code = some effect) :
    operandKinds insn = some effect := by
  have hlocal : localKind code = none := by
    cases code <;> first | rfl | cases he
  unfold operandKinds
  rw [hk]
  split
  · cases he
  · cases he
  · cases he
  · rw [hlocal, he]
    rfl

theorem operandKinds_local {insn : BytecodeInsn} {k : TypeKind} (hk : insn.kind = code)
    (hl : localKind code = some k) :
    operandKinds insn = some (if code.isLoad then ([], [k]) else ([k], [])) := by
  unfold operandKinds
  rw [hk]
  split
  · cases hl
  · cases hl
  · cases hl
  · rw [hl]

theorem operandKinds_descriptor {insn : BytecodeInsn} (hk : insn.kind = code)
    (hs : stackEffect code = none) (hl : localKind code = none)
    (hne : code ∉ [.putfield, .putstatic, .iinc]) : operandKinds insn = descriptorEffect insn := by
  unfold operandKinds
  rw [hk]
  split
  · simp at hne
  · simp at hne
  · simp at hne
  · rw [hl, hs]
    rfl

/-- The kinds of the result of a call, if it has one. -/
def resultKinds (insn : BytecodeInsn) : List TypeKind :=
  if insn.descriptor.returnType.baseKind = .void then [] else [insn.descriptor.returnType.reprKind]

theorem resultKinds_length (insn : BytecodeInsn) : (resultKinds insn).length ≤ 1 := by
  unfold resultKinds
  split_ifs <;> simp

theorem operandKinds_invoke {insn : Insn} (hk : insn.kind ∈ [.invokestatic, .invokedynamic,
    .invokespecial, .invokevirtual, .invokeinterface]) :
    operandKinds insn.toBytecodeInsn =
      some ((argKinds insn).reverse, resultKinds insn.toBytecodeInsn) := by
  simp only [List.mem_cons, List.not_mem_nil, or_false] at hk
  rcases hk with hk | hk | hk | hk | hk <;>
    rw [operandKinds_descriptor hk rfl rfl (by decide), descriptorEffect, argKinds] <;>
    simp [hk, resultKinds]

/-- An instruction that pops and pushes kinds does not move slots, and is not one that others are
rewritten to. -/
theorem plain_of_effect (code : InsnCode) {effect : List TypeKind × List TypeKind} (he : stackEffect code = some effect) :
    (∀ k ∈ shuffleKinds, InsnCodeKind.parsed code ≠ .parsed k) ∧
      rewritten (.parsed code) = false := by
  refine ⟨?_, ?_⟩
  · rintro k hk ⟨rfl⟩
    simp only [shuffleKinds, List.mem_cons, List.not_mem_nil, or_false] at hk
    rcases hk with rfl | rfl | rfl | rfl | rfl | rfl | rfl | rfl | rfl <;> cases he
  · cases code <;> first | rfl | cases he

theorem reprKind_cases {d : FieldDescriptor} (h : d.baseKind ≠ .void) :
    d.reprKind ∈ [.int, .long, .float, .double, .reference] := by
  unfold FieldDescriptor.reprKind
  split_ifs
  · simp
  · simp
  · cases hb : d.baseKind <;> simp_all [TypeKind.representable]

variable (hw : P.WellTyped fm) (ht : Typed P s) (hr : Related (.running m tos) (.running s))

include hw ht in
theorem Typed.expected : Expected fm s := by
  refine ⟨?_, ?_⟩
  · rw [hw.depth _ ht.pc, ← ht.kinds, List.length_map]
  · have hparsed := (ht.runs _ ht.pc).1
    have htos := hw.tosBefore _ ht.pc
    rw [← hparsed, ← ht.kinds] at htos
    refine htos.trans ?_
    rcases s.stack with _ | ⟨v, vs⟩
    · rfl
    · exact (Tos.kind_fill _ _).symm

/-- The operands that an instruction finds. -/
theorem Typed.operands {kinds : List TypeKind} (ht : Typed P s)
    (hafter : kindsAfter (P.code s.pc).toBytecodeInsn (P.kindsAt s.pc) = some kinds)
    (hs : ∀ k ∈ shuffleKinds, s.insn.code ≠ .parsed k)
    (he : operandKinds s.insn.toBytecodeInsn = some (pops, pushes)) :
    ∃ vs rest, s.stack = vs ++ rest ∧ vs.map (·.kind) = pops ∧ s.step vm fm =
      Plain.finish vm fm pushes rest (eval vm s.insn.code s (vs.map (·.word))) := by
  obtain ⟨pops', pushes', hop, htop, -⟩ := operands_kinds ht hs hafter
  obtain ⟨rfl, rfl⟩ := Prod.mk.inj (Option.some.inj (hop.symm.trans he))
  exact ⟨_, _, (List.take_append_drop ..).symm, htop, step_operands (shuffle_none hs) hop htop⟩

include hr in
/-- Unless the instruction has been rewritten, its first operand is in the register. -/
theorem Related.top (hs : s.stack = v :: vs) (hc : rewritten s.insn.code = false) :
    tos = .fill (reduced v.kind) v.word ∧ Cached m s v vs := by
  obtain ⟨hentry, hvoid⟩ := hr
  cases hentry with
  | spilled h =>
    have := hvoid rfl (by simp [hs])
    simp [hc] at this
  | cached h =>
    obtain ⟨rfl, rfl⟩ := List.cons.inj (hs.symm.trans h.stack_eq)
    exact ⟨rfl, h⟩

/-- An instruction of typed code is entered. -/
structure Enters (vm : Vm W) (fm : FrameMethod) (P : TypedCode) (m : Machine W) (tos : Tos)
    (s : Plain W) : Prop where
  wellTyped : P.WellTyped fm
  respects : vm.Respects P
  typed : Typed P s
  related : Related (.running m tos) (.running s)

namespace Enters

variable (e : Enters vm fm P m tos s)

include e

theorem beside : Beside P s s := .refl e.typed.runs

theorem insn : m.insn = s.insn := by
  cases e.related.1 with
  | spilled h => exact h.insn
  | cached h => exact h.insn

theorem operandsOk : OperandsOk fm s.pc s.insn.toParsedInsn := by
  rw [e.beside.parsed e.typed.pc]
  exact e.wellTyped.operands _ e.typed.pc

theorem expected : Expected fm s := e.typed.expected e.wellTyped

theorem operands (hs : ∀ k ∈ shuffleKinds, s.insn.code ≠ .parsed k)
    (he : operandKinds s.insn.toBytecodeInsn = some (pops, pushes)) :
    ∃ vs rest, s.stack = vs ++ rest ∧ vs.map (·.kind) = pops ∧ s.step vm fm =
      Plain.finish vm fm pushes rest (eval vm s.insn.code s (vs.map (·.word))) := by
  obtain ⟨kinds, hafter, -⟩ := e.wellTyped.flows _ e.typed.pc
  exact e.typed.operands hafter hs he

/-- An instruction of one operand, in a register. -/
theorem one {kb : TypeKind} (hc : s.insn.code = c) (hs : ∀ k ∈ shuffleKinds, c ≠ .parsed k)
    (hre : rewritten c = false) (he : operandKinds s.insn.toBytecodeInsn = some ([kb], pushes))
    (hk : ∀ b rest, b.kind = kb → Cached m s b rest →
      ∃ next, dispatch vm fm m (.fill (reduced kb) b.word) = some next ∧
        Sim vm fm (Waits m s) next (Plain.finish vm fm pushes rest (eval vm c s [b.word]))) :
    Answers vm fm m tos s := by
  obtain ⟨vs, rest, hstack, hkinds, hstep⟩ := e.operands (hc ▸ hs) he
  obtain ⟨b, _, rfl, hb, hnil⟩ := List.map_eq_cons_iff.mp hkinds
  obtain rfl := List.map_eq_nil_iff.mp hnil
  obtain ⟨rfl, hcached⟩ := e.related.top hstack (hc ▸ hre)
  obtain ⟨next, hnext, hsim⟩ := hk b rest hb hcached
  refine ⟨next, hb ▸ hnext, ?_⟩
  rw [hstep, hc]
  exact hsim

/-- An instruction of two operands, one of them in a register. -/
theorem two {ka kb : TypeKind} (hc : s.insn.code = c) (hs : ∀ k ∈ shuffleKinds, c ≠ .parsed k)
    (hre : rewritten c = false) (he : operandKinds s.insn.toBytecodeInsn = some ([kb, ka], pushes))
    (hk : ∀ b a rest, b.kind = kb → a.kind = ka → Cached m s b (a :: rest) →
      ∃ next, dispatch vm fm m (.fill (reduced kb) b.word) = some next ∧
        Sim vm fm (Waits m s) next
          (Plain.finish vm fm pushes rest (eval vm c s [b.word, a.word]))) :
    Answers vm fm m tos s := by
  obtain ⟨vs, rest, hstack, hkinds, hstep⟩ := e.operands (hc ▸ hs) he
  obtain ⟨b, _, rfl, hb, hkinds⟩ := List.map_eq_cons_iff.mp hkinds
  obtain ⟨a, _, rfl, ha, hnil⟩ := List.map_eq_cons_iff.mp hkinds
  obtain rfl := List.map_eq_nil_iff.mp hnil
  obtain ⟨rfl, hcached⟩ := e.related.top hstack (hc ▸ hre)
  obtain ⟨next, hnext, hsim⟩ := hk b a rest hb ha hcached
  refine ⟨next, hb ▸ hnext, ?_⟩
  rw [hstep, hc]
  exact hsim

/-- An instruction of three operands. -/
theorem three {ka kb kc : TypeKind} (hc : s.insn.code = c)
    (hs : ∀ k ∈ shuffleKinds, c ≠ .parsed k) (hre : rewritten c = false)
    (he : operandKinds s.insn.toBytecodeInsn = some ([kc, kb, ka], pushes))
    (hk : ∀ c' b a rest, c'.kind = kc → b.kind = kb → a.kind = ka →
      Cached m s c' (b :: a :: rest) →
      ∃ next, dispatch vm fm m (.fill (reduced kc) c'.word) = some next ∧
        Sim vm fm (Waits m s) next
          (Plain.finish vm fm pushes rest (eval vm c s [c'.word, b.word, a.word]))) :
    Answers vm fm m tos s := by
  obtain ⟨vs, rest, hstack, hkinds, hstep⟩ := e.operands (hc ▸ hs) he
  obtain ⟨c', _, rfl, hc', hkinds⟩ := List.map_eq_cons_iff.mp hkinds
  obtain ⟨b, _, rfl, hb, hkinds⟩ := List.map_eq_cons_iff.mp hkinds
  obtain ⟨a, _, rfl, ha, hnil⟩ := List.map_eq_cons_iff.mp hkinds
  obtain rfl := List.map_eq_nil_iff.mp hnil
  obtain ⟨rfl, hcached⟩ := e.related.top hstack (hc ▸ hre)
  obtain ⟨next, hnext, hsim⟩ := hk c' b a rest hc' hb ha hcached
  refine ⟨next, hc' ▸ hnext, ?_⟩
  rw [hstep, hc]
  exact hsim

/-- An instruction whose handler has all operands in memory. -/
theorem forward {h : VoidHandler W} (hc : s.insn.code = c)
    (hs : ∀ k ∈ shuffleKinds, c ≠ .parsed k) (hf : Forwards vm fm c h)
    (hvoid : jmpTableVoid vm fm c = some h ∨ rewritten c = false ∧ pops ≠ [])
    (he : operandKinds s.insn.toBytecodeInsn = some (pops, pushes))
    (hk : ∀ vs rest, Spilled (m.forward tos) s → s.stack = vs ++ rest → vs.map (·.kind) = pops →
      Sim vm fm (Waits m s) (h (m.forward tos))
        (Plain.finish vm fm pushes rest (eval vm c s (vs.map (·.word))))) :
    Answers vm fm m tos s := by
  obtain ⟨vs, rest, hstack, hkinds, hstep⟩ := e.operands (hc ▸ hs) he
  refine ⟨_, dispatch_forward (e.insn ▸ hc) hf fun htos => ?_, ?_⟩
  · rcases hvoid with hvoid | ⟨hre, hne⟩
    · exact hvoid
    · have hstack : s.stack ≠ [] := by
        rintro hnil
        have hvs : vs = [] := (List.append_eq_nil_iff.mp (hstack.symm.trans hnil)).1
        exact hne (by rw [← hkinds, hvs]; rfl)
      have hrew := e.related.2 htos hstack
      rw [hc, hre] at hrew
      cases hrew
  · rw [hstep, hc]
    exact hk vs rest e.related.1.forward hstack hkinds

/-! ### Computations -/

section

variable {ka kb kr : TypeKind} (hk : s.insn.kind = code) (hc : s.insn.code = .parsed code)

include hk hc

theorem unaryInt {f : StackValue → StackValue} {g : IntHandler W}
    (he : stackEffect code = some ([kb], [kr])) (hkb : reduced kb = .int) (hkr : kr ≠ .void)
    (hh : jmpTableInt vm fm (.parsed code) = some g) (hev : evalParsed vm code = unary f)
    (hg : ∀ m b, g m b = .jump { m with pc := m.pc + 1 } (.fill (reduced kr) (f b))) :
    Answers vm fm m tos s := by
  obtain ⟨hs, hre⟩ := plain_of_effect code he
  refine e.one hc hs hre (operandKinds_eq hk he) fun b rest hb h => ⟨g m b.word, ?_, ?_⟩
  · rw [hkb]
    exact dispatch_int (e.insn ▸ hc) hh
  · rw [hg, eval, hev]
    exact sim_replace h hkr rfl

theorem unaryFloat {f : StackValue → StackValue} {g : FloatHandler W}
    (he : stackEffect code = some ([.float], [kr])) (hkr : kr ≠ .void)
    (hh : jmpTableFloat vm fm (.parsed code) = some g) (hev : evalParsed vm code = unary f)
    (hg : ∀ m b, g m (low b) = .jump { m with pc := m.pc + 1 } (.fill (reduced kr) (f b))) :
    Answers vm fm m tos s := by
  obtain ⟨hs, hre⟩ := plain_of_effect code he
  refine e.one hc hs hre (operandKinds_eq hk he) fun b rest hb h => ⟨g m b.word.low, ?_, ?_⟩
  · exact dispatch_float (e.insn ▸ hc) hh
  · rw [hg, eval, hev]
    exact sim_replace h hkr rfl

theorem unaryDouble {f : StackValue → StackValue} {g : DoubleHandler W}
    (he : stackEffect code = some ([.double], [kr])) (hkr : kr ≠ .void)
    (hh : jmpTableDouble vm fm (.parsed code) = some g) (hev : evalParsed vm code = unary f)
    (hg : ∀ m b, g m b = .jump { m with pc := m.pc + 1 } (.fill (reduced kr) (f b))) :
    Answers vm fm m tos s := by
  obtain ⟨hs, hre⟩ := plain_of_effect code he
  refine e.one hc hs hre (operandKinds_eq hk he) fun b rest hb h => ⟨g m b.word, ?_, ?_⟩
  · exact dispatch_double (e.insn ▸ hc) hh
  · rw [hg, eval, hev]
    exact sim_replace h hkr rfl

theorem binaryInt {f : BitVec 64 → BitVec 64 → BitVec 64}
    (he : stackEffect code = some ([kb, ka], [kr]))
    (hkinds : reduced kb = .int ∧ ka ≠ .float ∧ reduced kr = .int ∧ kr ≠ .void)
    (hh : jmpTableInt vm fm (.parsed code) = some (integerBinOp f)) (hev : evalParsed vm code = binary f) :
    Answers vm fm m tos s := by
  obtain ⟨hs, hre⟩ := plain_of_effect code he
  refine e.two hc hs hre (operandKinds_eq hk he) fun b a rest hb ha h => ⟨integerBinOp f m b.word, ?_, ?_⟩
  · rw [hkinds.1]
    exact dispatch_int (e.insn ▸ hc) hh
  · rw [eval, hev]
    exact sim_integerBinOp h (ha ▸ hkinds.2.1) hkinds.2.2.1 hkinds.2.2.2

theorem binaryFloat {f : BitVec 32 → BitVec 32 → BitVec 32}
    (he : stackEffect code = some ([.float, .float], [.float]))
    (hh : jmpTableFloat vm fm (.parsed code) = some (floatBinOp f))
    (hev : evalParsed vm code = binary (onFloats f)) : Answers vm fm m tos s := by
  obtain ⟨hs, hre⟩ := plain_of_effect code he
  refine e.two hc hs hre (operandKinds_eq hk he) fun b a rest hb ha h => ⟨floatBinOp f m b.word.low, ?_, ?_⟩
  · exact dispatch_float (e.insn ▸ hc) hh
  · rw [eval, hev]
    exact sim_floatBinOp h

theorem binaryDouble {f : BitVec 64 → BitVec 64 → BitVec 64}
    (he : stackEffect code = some ([.double, .double], [.double]))
    (hh : jmpTableDouble vm fm (.parsed code) = some (doubleBinOp f))
    (hev : evalParsed vm code = binary f) : Answers vm fm m tos s := by
  obtain ⟨hs, hre⟩ := plain_of_effect code he
  refine e.two hc hs hre (operandKinds_eq hk he) fun b a rest hb ha h => ⟨doubleBinOp f m b.word, ?_, ?_⟩
  · exact dispatch_double (e.insn ▸ hc) hh
  · rw [eval, hev]
    exact sim_doubleBinOp h (by rw [ha]; decide)

theorem compareFloat {f : FloatValue → FloatValue → BitVec 64}
    (he : stackEffect code = some ([.float, .float], [.int]))
    (hh : jmpTableFloat vm fm (.parsed code) = some (floatCmpOp f))
    (hev : evalParsed vm code = binary fun a b => f (floatValue a.low) (floatValue b.low)) :
    Answers vm fm m tos s := by
  obtain ⟨hs, hre⟩ := plain_of_effect code he
  refine e.two hc hs hre (operandKinds_eq hk he) fun b a rest hb ha h => ⟨floatCmpOp f m b.word.low, ?_, ?_⟩
  · exact dispatch_float (e.insn ▸ hc) hh
  · rw [eval, hev]
    exact sim_floatCmpOp h

theorem compareDouble {f : FloatValue → FloatValue → BitVec 64}
    (he : stackEffect code = some ([.double, .double], [.int]))
    (hh : jmpTableDouble vm fm (.parsed code) = some (doubleCmpOp f))
    (hev : evalParsed vm code = binary fun a b => f (doubleValue a) (doubleValue b)) :
    Answers vm fm m tos s := by
  obtain ⟨hs, hre⟩ := plain_of_effect code he
  refine e.two hc hs hre (operandKinds_eq hk he) fun b a rest hb ha h => ⟨doubleCmpOp f m b.word, ?_, ?_⟩
  · exact dispatch_double (e.insn ▸ hc) hh
  · rw [eval, hev]
    exact sim_doubleCmpOp h (by rw [ha]; decide)

end

theorem division {kb : TypeKind} {g : IntHandler W} (f : StackValue → StackValue → StackValue)
    (zero : StackValue → Prop) [DecidablePred zero] (hk : s.insn.kind = code)
    (hc : s.insn.code = .parsed code) (he : stackEffect code = some ([kb, kb], [kb]))
    (hkinds : reduced kb = .int ∧ kb ≠ .void) (hh : jmpTableInt vm fm (.parsed code) = some g)
    (hev : ∀ a b, evalParsed vm code s [b, a] =
      if zero b then raise vm .divisionByZero s else .next s (f a b))
    (hg : ∀ b, g m b = if zero b then throwExn vm .divisionByZero (m.spillInt b)
      else nextInt { m with sp := m.sp - 1 } (f (m.stack (m.sp - 2)) b)) :
    Answers vm fm m tos s := by
  obtain ⟨hs, hre⟩ := plain_of_effect code he
  have hne := (reduced_eq_int.mp hkinds.1).1
  refine e.two hc hs hre (operandKinds_eq hk he) fun b a rest hb ha h => ⟨g m b.word, ?_, ?_⟩
  · rw [hkinds.1]
    exact dispatch_int (e.insn ▸ hc) hh
  · rw [hg, eval, hev, h.second_of_ne (ha ▸ hne)]
    exact sim_division h (hb ▸ hne) hkinds.1 hkinds.2

/-! ### Arrays -/

section

variable (hk : s.insn.kind = code) (hc : s.insn.code = .parsed code)

include hk hc

theorem loadElement {kr : TypeKind} {size : Nat} {f : Memory → BitVec 64 → StackValue}
    {next : Machine W → BitVec 64 → Next W}
    (he : stackEffect code = some ([.int, .reference], [kr])) (hkr : kr ≠ .void)
    (hh : jmpTableInt vm fm (.parsed code) = some (arrayLoad vm size next))
    (hev : evalParsed vm code = Interpreter.loadElement vm size f)
    (hnext : ∀ m : Machine W, ∀ x, ∃ tos, next m x = .jump { m with pc := m.pc + 1 } tos ∧
      tos = .fill (reduced kr) (f m.heap.mem x)) : Answers vm fm m tos s := by
  obtain ⟨hs, hre⟩ := plain_of_effect code he
  refine e.two hc hs hre (operandKinds_eq hk he) fun b a rest hb ha h =>
    ⟨arrayLoad vm size next m b.word, dispatch_int (e.insn ▸ hc) hh, ?_⟩
  rw [eval, hev]
  exact sim_arrayLoad h (by rw [ha]; decide) hkr hnext

theorem storeElement {kv : TypeKind} {size : Nat} {f : Memory → BitVec 64 → StackValue → Memory}
    (he : stackEffect code = some ([kv, .int, .reference], []))
    (hev : evalParsed vm code = Interpreter.storeElement vm size f)
    (hh : ∀ v, ∃ next, dispatch vm fm m (.fill (reduced kv) v) = some next ∧
      next = arrayStore vm m size fun mem a => f mem a v) : Answers vm fm m tos s := by
  obtain ⟨hs, hre⟩ := plain_of_effect code he
  refine e.three hc hs hre (operandKinds_eq hk he) fun c b a rest _ hb ha h => ?_
  obtain ⟨_, hd, rfl⟩ := hh c.word
  refine ⟨_, hd, ?_⟩
  rw [eval, hev]
  exact sim_arrayStore h (by rw [ha]; decide)

end

/-! ### Locals and constants -/

theorem spilled : Spilled (m.forward tos) s := e.related.1.forward

theorem getLocal (hl : localKind s.insn.kind ≠ none) :
    getLocal fm s.insn = s.insn.index := by
  obtain ⟨hle, hdelta⟩ := e.operandsOk.local_ hl
  rw [Interpreter.getLocal, hdelta]
  omega

theorem localValue (hl : localKind s.insn.kind ≠ none) {m : Machine W} (h : SameFrame m s) :
    m.getLocal fm = s.locals s.insn.index := by
  rw [Machine.getLocal, h.insn, e.getLocal hl, h.locals]

/-- An instruction without operands, whose handler leaves the value in a register. -/
theorem push {h : VoidHandler W} {r : StackValue} (hc : s.insn.code = .parsed code)
    (he : operandKinds s.insn.toBytecodeInsn = some ([], [k]))
    (hs : ∀ k ∈ shuffleKinds, InsnCodeKind.parsed code ≠ .parsed k)
    (hf : Forwards vm fm (.parsed code) h) (hvoid : jmpTableVoid vm fm (.parsed code) = some h)
    (hev : evalParsed vm code s [] = .next s r)
    (hsim : Spilled (m.forward tos) s → Sim vm fm (Waits m s) (h (m.forward tos))
      (Plain.finish vm fm [k] s.stack (.next s r))) : Answers vm fm m tos s := by
  refine e.forward hc hs hf (.inl hvoid) he fun vs rest hspilled hstack hkinds => ?_
  obtain rfl := List.map_eq_nil_iff.mp hkinds
  rw [List.map_nil, eval, hev]
  rw [List.nil_append] at hstack
  exact hstack ▸ hsim hspilled

theorem storeLocal (f : StackValue → StackValue → StackValue) (hk : s.insn.kind = code)
    (hc : s.insn.code = .parsed code) (hl : localKind code = some k) (hload : code.isLoad = false)
    (hs : ∀ k ∈ shuffleKinds, InsnCodeKind.parsed code ≠ .parsed k)
    (hev : evalParsed vm code = Interpreter.storeLocal f)
    (hh : ∀ v, ∃ next, dispatch vm fm m (.fill (reduced k) v) = some next ∧
      next = stackPolymorphicNext
        { m.setLocal (Interpreter.getLocal fm m.insn) (f (m.getLocal fm) v) with sp := m.sp - 1 }) :
    Answers vm fm m tos s := by
  have hlocal : localKind s.insn.kind ≠ none := by simp [hk, hl]
  have hre : rewritten (.parsed code) = false := by
    cases code <;> first | rfl | cases hl
  have he := operandKinds_local hk hl
  rw [hload] at he
  refine e.one hc hs hre he fun b rest hb h => ?_
  obtain ⟨_, hd, rfl⟩ := hh b.word
  refine ⟨_, hd, ?_⟩
  rw [eval, hev, e.insn, e.getLocal hlocal, e.localValue hlocal h.toSameFrame]
  exact sim_setLocal h

/-! ### Control flow -/

omit e in
theorem waits : ∀ c : Config W, m.fuel = 0 → c.rank = 0 → Related c (.running s) → Waits m s c :=
  fun c hfuel hrank h => ⟨h, by rw [hrank, Config.rank, if_pos hfuel]; decide⟩

theorem delta (hb : s.insn.kind.isBranch) :
    s.insn.delta = ((s.insn.index : Int) - s.pc) * sizeofBytecodeInsn :=
  e.operandsOk.branch hb

theorem branchOne {kb : TypeKind} {op : BitVec 32 → Bool} (hk : s.insn.kind = code)
    (hc : s.insn.code = .parsed code) (hb : code.isBranch)
    (he : stackEffect code = some ([kb], [])) (hkb : reduced kb = .int)
    (hh : jmpTableInt vm fm (.parsed code) = some (intBranchAgainst0 op))
    (hev : evalParsed vm code = branchWhen fun ops => op (operand ops 0).low) :
    Answers vm fm m tos s := by
  obtain ⟨hs, hre⟩ := plain_of_effect code he
  have hne := (reduced_eq_int.mp hkb).1
  refine e.one hc hs hre (operandKinds_eq hk he) fun b rest hbk h =>
    ⟨intBranchAgainst0 op m b.word, ?_, ?_⟩
  · rw [hkb]
    exact dispatch_int (e.insn ▸ hc) hh
  · rw [eval, hev]
    exact sim_branchIf e.expected h (hbk ▸ hne) (e.delta (hk ▸ hb)) waits rfl
      (by rw [h.sp]; rfl) h.below

theorem branchTwo {kb : TypeKind} {cond : Machine W → BitVec 64 → Bool}
    {cond' : List StackValue → Bool} (hk : s.insn.kind = code) (hc : s.insn.code = .parsed code)
    (hb : code.isBranch) (he : stackEffect code = some ([kb, kb], [])) (hkb : reduced kb = .int)
    (hh : jmpTableInt vm fm (.parsed code) = some (branchIf cond 2))
    (hev : evalParsed vm code = branchWhen cond')
    (hcond : ∀ (m : Machine W) b, cond m b = cond' [b, m.stack (m.sp - 2)]) :
    Answers vm fm m tos s := by
  obtain ⟨hs, hre⟩ := plain_of_effect code he
  have hne := (reduced_eq_int.mp hkb).1
  refine e.two hc hs hre (operandKinds_eq hk he) fun b a rest hbk hak h =>
    ⟨branchIf cond 2 m b.word, ?_, ?_⟩
  · rw [hkb]
    exact dispatch_int (e.insn ▸ hc) hh
  · rw [eval, hev]
    exact sim_branchIf e.expected h (hbk ▸ hne) (e.delta (hk ▸ hb)) waits
      ((hcond _ _).trans (by rw [h.second_of_ne (hak ▸ hne)])) (by rw [h.sp_two]; rfl) h.under

theorem branchInts {op : BitVec 32 → BitVec 32 → Bool} (hk : s.insn.kind = code)
    (hc : s.insn.code = .parsed code) (hb : code.isBranch)
    (he : stackEffect code = some ([.int, .int], []))
    (hh : jmpTableInt vm fm (.parsed code) = some (intBranch op))
    (hev : evalParsed vm code = branchWhen fun ops => op (operand ops 1).low (operand ops 0).low) :
    Answers vm fm m tos s :=
  e.branchTwo hk hc hb he rfl hh hev fun _ _ => rfl

/-- An instruction that has not been rewritten and is entered with a void register has no stack. -/
theorem stack_nil (hc : s.insn.code = c) (hre : rewritten c = false) (htos : tos = .void) :
    s.stack = [] := by
  by_contra hne
  have hrew := e.related.2 htos hne
  rw [hc, hre] at hrew
  cases hrew

/-- An instruction without operands and without a value. -/
theorem none {next : Next W} (hc : s.insn.code = .parsed code)
    (hs : ∀ k ∈ shuffleKinds, InsnCodeKind.parsed code ≠ .parsed k)
    (he : operandKinds s.insn.toBytecodeInsn = some ([], [])) (hd : dispatch vm fm m tos = some next)
    (hsim : Sim vm fm (Waits m s) next
      (Plain.finish vm fm [] s.stack (evalParsed vm code s []))) : Answers vm fm m tos s := by
  obtain ⟨vs, rest, hstack, hkinds, hstep⟩ := e.operands (hc ▸ hs) he
  obtain rfl := List.map_eq_nil_iff.mp hkinds
  rw [List.nil_append] at hstack
  refine ⟨next, hd, ?_⟩
  rw [hstep, hc]
  exact hstack ▸ hsim

theorem goto (hk : s.insn.kind = .goto) (hc : s.insn.code = .parsed .goto) :
    Answers vm fm m tos s := by
  have hd : dispatch vm fm m tos =
      some (takeFuel m (·.forward tos) fun m => .jump (m.jumpBy m.insn.delta) tos) := by
    cases tos <;> rw [dispatch, e.insn, hc] <;> rfl
  have hf := e.related.1.sameFrame
  refine e.none hc (plain_of_effect _ rfl).1 (operandKinds_eq hk rfl) hd (sim_goto e.expected e.related.1 (e.stack_nil hc rfl)
    (e.delta (by rw [hk]; rfl)) ?_ waits)
  exact (e.related.1.keep { m with fuel := m.fuel - 1 } ⟨hf.heap, hf.locals, hf.pc⟩ rfl rfl rfl).forward

theorem iinc (hk : s.insn.kind = .iinc) (hc : s.insn.code = .parsed .iinc) :
    Answers vm fm m tos s := by
  have hf := e.related.1.sameFrame
  have hd : dispatch vm fm m tos = some (.jump { m.iinc with pc := m.iinc.pc + 1 } tos) := by
    cases tos <;> rw [dispatch, e.insn, hc] <;> rfl
  have he : operandKinds s.insn.toBytecodeInsn = some ([], []) := by
    unfold operandKinds
    rw [hk]
  refine e.none hc (by decide) he hd (sim_keep e.related.1 (e.stack_nil hc rfl) ⟨hf.heap, ?_, ?_⟩ rfl rfl rfl)
  · simp only [Machine.iinc, Machine.setLocal, Plain.setLocal, e.insn, hf.locals]
  · exact congrArg (· + 1) hf.pc

theorem nop (hk : s.insn.kind = .nop) (hc : s.insn.code = .parsed .nop) :
    Answers vm fm m tos s := by
  have hf := e.related.1.sameFrame
  have hd : dispatch vm fm m tos = some (.jump { m with pc := m.pc + 1 } tos) := by
    cases tos <;> rw [dispatch, e.insn, hc] <;> rfl
  exact e.none hc (plain_of_effect _ rfl).1 (operandKinds_eq hk rfl) hd (sim_keep e.related.1 (e.stack_nil hc rfl)
    ⟨hf.heap, hf.locals, congrArg (· + 1) hf.pc⟩ rfl rfl rfl)

theorem tableswitch (hk : s.insn.kind = .tableswitch) (hc : s.insn.code = .parsed .tableswitch) :
    Answers vm fm m tos s := by
  obtain ⟨hs, hre⟩ := plain_of_effect .tableswitch rfl
  exact e.one hc hs hre (operandKinds_eq hk rfl) fun b rest _ h =>
    ⟨tableswitchImplInt m b.word, dispatch_int (e.insn ▸ hc) rfl, sim_tableswitch h⟩

theorem lookupswitch (hk : s.insn.kind = .lookupswitch) (hc : s.insn.code = .parsed .lookupswitch) :
    Answers vm fm m tos s := by
  obtain ⟨hs, hre⟩ := plain_of_effect .lookupswitch rfl
  exact e.one hc hs hre (operandKinds_eq hk rfl) fun b rest _ h =>
    ⟨lookupswitchImplInt m b.word, dispatch_int (e.insn ▸ hc) rfl, sim_lookupswitch h⟩

/-- A return of the operand. -/
theorem ret (f : StackValue → StackValue) (hk : s.insn.kind = code) (hc : s.insn.code = .parsed code)
    (he : stackEffect code = some ([k], [])) (hev : ∀ v, evalParsed vm code s [v] = .ret s (f v))
    (hh : ∀ v, ∃ next, dispatch vm fm m (.fill (reduced k) v) = some next ∧
      ∃ m', m'.heap = m.heap ∧ next = .done m' (f v)) : Answers vm fm m tos s := by
  obtain ⟨hs, hre⟩ := plain_of_effect code he
  refine e.one hc hs hre (operandKinds_eq hk he) fun b rest _ h => ?_
  obtain ⟨_, hd, m', hheap, rfl⟩ := hh b.word
  refine ⟨_, hd, ?_⟩
  rw [eval, hev]
  exact sim_done (hheap.trans h.heap)

theorem return_ (hk : s.insn.kind = .return_) (hc : s.insn.code = .parsed .return_) :
    Answers vm fm m tos s := by
  have hd : dispatch vm fm m tos = some (returnImplVoid (m.forward tos)) := by
    cases tos <;> rw [dispatch, e.insn, hc] <;> rfl
  exact e.none hc (plain_of_effect _ rfl).1 (operandKinds_eq hk rfl) hd (sim_done e.spilled.heap)

/-! ### Objects -/

theorem arraylength (hk : s.insn.kind = .arraylength) (hc : s.insn.code = .parsed .arraylength) :
    Answers vm fm m tos s := by
  obtain ⟨hs, hre⟩ := plain_of_effect .arraylength rfl
  refine e.one hc hs hre (operandKinds_eq hk rfl) fun b rest _ h =>
    ⟨arraylengthImplInt vm m b.word, dispatch_int (e.insn ▸ hc) rfl, ?_⟩
  exact sim_ofObject h (by decide) (by rw [h.heap]; rfl)

theorem athrow (hk : s.insn.kind = .athrow) (hc : s.insn.code = .parsed .athrow) :
    Answers vm fm m tos s := by
  obtain ⟨hs, hre⟩ := plain_of_effect .athrow rfl
  exact e.one hc hs hre (operandKinds_eq hk rfl) fun b rest hb h =>
    ⟨athrowImplInt vm m b.word, dispatch_int (e.insn ▸ hc) rfl, sim_athrow h (by rw [hb]; decide)⟩

theorem monitorenter (hk : s.insn.kind = .monitorenter) (hc : s.insn.code = .parsed .monitorenter) :
    Answers vm fm m tos s := by
  obtain ⟨hs, hre⟩ := plain_of_effect .monitorenter rfl
  exact e.one hc hs hre (operandKinds_eq hk rfl) fun b rest hb h =>
    ⟨monitorenterImplInt vm m b.word, dispatch_int (e.insn ▸ hc) rfl,
      sim_monitorenter h (by rw [hb]; decide)⟩

theorem monitorexit (hk : s.insn.kind = .monitorexit) (hc : s.insn.code = .parsed .monitorexit) :
    Answers vm fm m tos s := by
  obtain ⟨hs, hre⟩ := plain_of_effect .monitorexit rfl
  exact e.one hc hs hre (operandKinds_eq hk rfl) fun b rest _ h =>
    ⟨monitorexitImplInt vm m b.word, dispatch_int (e.insn ▸ hc) rfl,
      sim_monitorexit h fun heap x => e.respects.monitorRelease b.word heap x⟩

theorem newarray (hk : s.insn.kind = .newarray) (hc : s.insn.code = .parsed .newarray) :
    Answers vm fm m tos s := by
  obtain ⟨hs, hre⟩ := plain_of_effect .newarray rfl
  refine e.one hc hs hre (operandKinds_eq hk rfl) fun b rest hb h =>
    ⟨newarrayImplInt vm m b.word, dispatch_int (e.insn ▸ hc) rfl, ?_⟩
  have hspill := (h.setTop (canonical_of_ne (by rw [hb]; decide) b.word)).spillVoid
  have hall := hspill.all
  rw [h.stack_eq] at hall
  have hinsn : (m.spillInt b.word).insn = s.insn := hspill.insn
  unfold newarrayImplInt
  dsimp only
  rw [hinsn]
  exact sim_newArray (r := fun s count => .newPrimitiveArray s.insn.arrayType count) h
    hspill.toSameFrame rfl rfl hall.2

theorem anewarrayResolved (hk : s.insn.kind = .anewarray) (hc : s.insn.code = .resolved .anewarray) :
    Answers vm fm m tos s := by
  refine e.one hc (by decide) rfl (operandKinds_eq hk rfl) fun b rest hb h =>
    ⟨anewarrayResolvedImplInt vm m b.word, dispatch_int (e.insn ▸ hc) rfl, ?_⟩
  have hinsn : m.spillVoid.insn = s.insn := h.insn
  unfold anewarrayResolvedImplInt
  dsimp only
  rw [hinsn]
  exact sim_newArray (r := fun s count => .newObjectArray s.insn.classdesc count) h
    ⟨h.heap, h.locals, h.pc⟩ rfl rfl h.below

theorem anewarray (hk : s.insn.kind = .anewarray) (hc : s.insn.code = .parsed .anewarray) :
    Answers vm fm m tos s := by
  obtain ⟨hs, hre⟩ := plain_of_effect .anewarray rfl
  exact e.one hc hs hre (operandKinds_eq hk rfl) fun b rest hb h =>
    ⟨anewarrayImplInt vm m b.word, dispatch_int (e.insn ▸ hc) rfl,
      sim_anewarray h (by rw [hb]; rfl) [b.word]⟩

/-- `checkcast` and `instanceof`. -/
theorem check {r : ResolvedCode} (hk : s.insn.kind = code) (hc : s.insn.code = .parsed code)
    (he : stackEffect code = some ([.reference], [k]))
    (hh : jmpTableInt vm fm (.parsed code) = some (resolveCheck vm r))
    (hev : evalParsed vm code = resolveClassTo vm r) : Answers vm fm m tos s := by
  obtain ⟨hs, hre⟩ := plain_of_effect code he
  refine e.one hc hs hre (operandKinds_eq hk he) fun b rest hb h =>
    ⟨resolveCheck vm r m b.word, dispatch_int (e.insn ▸ hc) hh, ?_⟩
  rw [eval, hev]
  exact sim_resolveCheck h (by rw [hb]; rfl) _

theorem checkcastResolved (hk : s.insn.kind = .checkcast) (hc : s.insn.code = .resolved .checkcast) :
    Answers vm fm m tos s :=
  e.one hc (by decide) rfl (operandKinds_eq hk rfl) fun b rest hb h =>
    ⟨checkcastResolvedImplInt vm m b.word, dispatch_int (e.insn ▸ hc) rfl,
      sim_checkcast h (by rw [hb]; decide)⟩

theorem instanceofResolved (hk : s.insn.kind = .instanceof)
    (hc : s.insn.code = .resolved .instanceof) : Answers vm fm m tos s :=
  e.one hc (by decide) rfl (operandKinds_eq hk rfl) fun b rest _ h =>
    ⟨instanceofResolvedImplInt vm m b.word, dispatch_int (e.insn ▸ hc) rfl, sim_instanceof h⟩

/-- `new` before its class is initialized; its reference is in a register only behind it. -/
theorem new (hk : s.insn.kind = .new) (hc : s.insn.code = .parsed .new) :
    Answers vm fm m tos s := by
  obtain ⟨hs, -⟩ := plain_of_effect .new rfl
  refine e.forward hc hs ⟨rfl, rfl, rfl⟩ (.inl rfl) (operandKinds_eq hk rfl) fun vs rest h _ _ =>
    sim_resolveNew h (fun heap v hreq => ?_) (vs.map (·.word))
  have hnew := e.respects.new s.heap s.pc e.typed.pc hc
  rwa [hreq] at hnew

theorem newResolved (hk : s.insn.kind = .new) (hc : s.insn.code = .resolved .new) :
    Answers vm fm m tos s := by
  refine e.forward hc (by decide) ⟨rfl, rfl, rfl⟩ (.inl rfl) (operandKinds_eq hk rfl)
    fun vs rest h hstack hkinds => ?_
  obtain rfl := List.map_eq_nil_iff.mp hkinds
  rw [List.nil_append] at hstack
  subst hstack
  unfold newResolvedImplVoid
  rw [h.insn]
  exact sim_performPush h.spillVoid rfl

theorem ldc (hk : s.insn.kind = .ldc) (hc : s.insn.code = .parsed .ldc) :
    Answers vm fm m tos s := by
  obtain ⟨hs, -⟩ := plain_of_effect .ldc rfl
  refine e.forward hc hs ⟨rfl, rfl, rfl⟩ (.inl rfl) (operandKinds_eq hk rfl)
    fun vs rest h hstack hkinds => ?_
  obtain rfl := List.map_eq_nil_iff.mp hkinds
  rw [List.nil_append] at hstack
  subst hstack
  unfold ldcImplVoid
  rw [h.pc]
  exact sim_performPush h.spillVoid rfl

theorem multianewarray (hk : s.insn.kind = .multianewarray)
    (hc : s.insn.code = .parsed .multianewarray) : Answers vm fm m tos s := by
  have hpos := e.operandsOk.multianewarray hk
  have he : operandKinds s.insn.toBytecodeInsn =
      some (List.replicate s.insn.dimensions .int, [.reference]) := by
    rw [operandKinds_descriptor hk rfl rfl (by decide), descriptorEffect, hk]
  obtain ⟨vs, rest, hstack, hkinds, hstep⟩ := e.operands (hc ▸ by decide) he
  have hlen : vs.length = s.insn.dimensions := by simpa using congrArg List.length hkinds
  obtain ⟨b, vs', rfl⟩ := List.exists_cons_of_length_pos (hlen ▸ hpos)
  have hb : b.kind = .int := by
    have hmem : b.kind ∈ List.replicate s.insn.dimensions TypeKind.int := by rw [← hkinds]; simp
    exact List.eq_of_mem_replicate hmem
  obtain ⟨htos, h⟩ := e.related.top hstack (hc ▸ rfl)
  have hd : dispatch vm fm m tos = some (multianewarrayImplInt vm m b.word) := by
    rw [htos, hb]
    exact dispatch_int (e.insn ▸ hc) rfl
  have hspill := (h.setTop (canonical_of_ne (by rw [hb]; decide) b.word)).spillVoid
  have hinsn : (m.spillInt b.word).insn = s.insn := hspill.insn
  refine ⟨_, hd, ?_⟩
  rw [hstep, hc]
  unfold multianewarrayImplInt
  dsimp only
  rw [hinsn]
  exact sim_multianewarray hspill rfl hstack hlen hpos

/-! ### Fields -/

theorem getfield (hk : s.insn.kind = .getfield) (hc : s.insn.code = .parsed .getfield) :
    Answers vm fm m tos s := by
  have he : operandKinds s.insn.toBytecodeInsn = some ([.reference], [s.insn.field.reprKind]) := by
    rw [operandKinds_descriptor hk rfl rfl (by decide), descriptorEffect, hk]
  refine e.one hc (by decide) rfl he fun b rest hb h =>
    ⟨getfieldImplInt vm m b.word, dispatch_int (e.insn ▸ hc) rfl, ?_⟩
  have hspill := (h.setTop (canonical_of_ne (by rw [hb]; decide) b.word)).spillVoid
  refine sim_resolveField false hspill rfl hc ?_ fun m' s' hs' hstack =>
    sim_againInt hs' (hstack.trans h.stack_eq) (by rw [hb]; rfl)
  exact update_self ..

theorem putfield (hk : s.insn.kind = .putfield) (hc : s.insn.code = .parsed .putfield) :
    Answers vm fm m tos s := by
  have he : operandKinds s.insn.toBytecodeInsn =
      some ([s.insn.field.reprKind, .reference], []) := by
    unfold operandKinds
    rw [hk]
  refine e.forward (h := putfieldImplVoid vm) hc (by decide) ⟨rfl, rfl, rfl⟩
    (.inr ⟨rfl, by simp⟩) he fun vs rest h hstack hkinds => ?_
  obtain ⟨b, _, rfl, hb, hkinds⟩ := List.map_eq_cons_iff.mp hkinds
  obtain ⟨a, _, rfl, ha, hnil⟩ := List.map_eq_cons_iff.mp hkinds
  obtain rfl := List.map_eq_nil_iff.mp hnil
  obtain ⟨⟨-, hword, -⟩, hsp⟩ := h.holds hstack
  rw [canonical_of_ne (by rw [ha]; decide)] at hword
  refine sim_resolveField true h.spillVoid rfl hc ?_ fun m' s' hs' _ =>
    sim_againPolymorphic hs'
  show (m.forward tos).stack ((m.forward tos).sp - 2) = a.word
  rw [hsp]
  exact hword

theorem getstatic (hk : s.insn.kind = .getstatic) (hc : s.insn.code = .parsed .getstatic) :
    Answers vm fm m tos s := by
  have he : operandKinds s.insn.toBytecodeInsn = some ([], [s.insn.field.reprKind]) := by
    rw [operandKinds_descriptor hk rfl rfl (by decide), descriptorEffect, hk]
  refine e.forward hc (by decide) ⟨rfl, rfl, rfl⟩ (.inl rfl) he fun vs rest h _ _ =>
    sim_resolveStatic h (.inl hc) (fun heap v m' s' hreq hs' hcode => .again hs' ?_)
      (vs.map (·.word))
  have hset := e.beside.setHeap (e.respects.answer hreq)
  have hform := hset.wellFormed e.typed.pc
  have hkind : ({ s with heap } : Plain W).insn.kind = .getstatic :=
    (hset.kind e.typed.pc).trans ((e.beside.kind e.typed.pc).symm.trans hk)
  have hne : (heap.code s.pc).code ≠ .parsed .putstatic := fun hput => by
    have hput : ({ s with heap } : Plain W).insn.code = .parsed .putstatic := hput
    rw [Insn.WellFormed, hput, hkind] at hform
    simp at hform
  rw [hcode, if_neg hne]
  rfl

theorem putstatic (hk : s.insn.kind = .putstatic) (hc : s.insn.code = .parsed .putstatic) :
    Answers vm fm m tos s := by
  have he : operandKinds s.insn.toBytecodeInsn = some ([s.insn.field.reprKind], []) := by
    unfold operandKinds
    rw [hk]
  exact e.forward (h := putstaticImplVoid vm) hc (by decide) ⟨rfl, rfl, rfl⟩
    (.inr ⟨rfl, by simp⟩) he fun vs rest h _ _ =>
    sim_resolveStatic h (.inr hc) (fun _ _ _ _ _ hs' _ => sim_againPolymorphic hs')
      (vs.map (·.word))

theorem fieldKind (hk : s.insn.kind ∈ [.getfield, .putfield, .getstatic, .putstatic]) :
    s.insn.field.reprKind ∈ [.int, .long, .float, .double, .reference] :=
  reprKind_cases (e.operandsOk.field hk)

theorem getfieldResolved {kd : FieldKind} (hk : s.insn.kind = .getfield)
    (hc : s.insn.code = .resolved (.getfield kd)) (hkd : kd = resolvedKind s.insn.field.reprKind) :
    Answers vm fm m tos s := by
  have he : operandKinds s.insn.toBytecodeInsn = some ([.reference], [s.insn.field.reprKind]) := by
    rw [operandKinds_descriptor hk rfl rfl (by decide), descriptorEffect, hk]
  have hrepr := e.fieldKind (by simp [hk])
  subst hkd
  generalize s.insn.field.reprKind = kf at he hrepr hc
  simp only [List.mem_cons, List.not_mem_nil, or_false] at hrepr
  rcases hrepr with rfl | rfl | rfl | rfl | rfl
  all_goals
    refine e.one hc (by decide) rfl he fun b rest _ h =>
      ⟨_, dispatch_int (e.insn ▸ hc) rfl, sim_ofObject h (by decide) ?_⟩
    rw [h.heap, h.insn]
    simp [reduced, Tos.fill, resolvedKind, fieldLoad, operand]

theorem putfieldResolved {kd : FieldKind} (hk : s.insn.kind = .putfield)
    (hc : s.insn.code = .resolved (.putfield kd)) (hkd : kd = resolvedKind s.insn.field.reprKind) :
    Answers vm fm m tos s := by
  have he : operandKinds s.insn.toBytecodeInsn =
      some ([s.insn.field.reprKind, .reference], []) := by
    unfold operandKinds
    rw [hk]
  have hrepr := e.fieldKind (by simp [hk])
  subst hkd
  generalize s.insn.field.reprKind = kf at he hrepr hc
  simp only [List.mem_cons, List.not_mem_nil, or_false] at hrepr
  rcases hrepr with rfl | rfl | rfl | rfl | rfl
  case inr.inr.inl =>
    exact e.two hc (by decide) rfl he fun b a rest _ ha h =>
      ⟨_, dispatch_float (e.insn ▸ hc) rfl, sim_putfieldOp h (by rw [ha]; decide)⟩
  case inr.inr.inr.inl =>
    exact e.two hc (by decide) rfl he fun b a rest _ ha h =>
      ⟨_, dispatch_double (e.insn ▸ hc) rfl, sim_putfieldOp h (by rw [ha]; decide)⟩
  all_goals
    exact e.two hc (by decide) rfl he fun b a rest _ ha h =>
      ⟨_, dispatch_int (e.insn ▸ hc) rfl, sim_putfieldOp h (by rw [ha]; decide)⟩

theorem getstaticResolved {kd : FieldKind} (hk : s.insn.kind = .getstatic)
    (hc : s.insn.code = .resolved (.getstatic kd))
    (hkd : kd = resolvedKind s.insn.field.reprKind) : Answers vm fm m tos s := by
  have he : operandKinds s.insn.toBytecodeInsn = some ([], [s.insn.field.reprKind]) := by
    rw [operandKinds_descriptor hk rfl rfl (by decide), descriptorEffect, hk]
  have hrepr := e.fieldKind (by simp [hk])
  subst hkd
  generalize s.insn.field.reprKind = kf at he hrepr hc
  simp only [List.mem_cons, List.not_mem_nil, or_false] at hrepr
  rcases hrepr with rfl | rfl | rfl | rfl | rfl
  all_goals
    refine e.forward hc (by decide) ⟨rfl, rfl, rfl⟩ (.inl rfl) he fun vs rest h hstack hkinds => ?_
    obtain rfl := List.map_eq_nil_iff.mp hkinds
    rw [List.nil_append] at hstack
    subst hstack
  case inr.inr.inl => exact sim_pushFloat h (by rw [h.heap, h.insn])
  case inr.inr.inr.inl => exact sim_pushDouble h (by rw [h.heap, h.insn]; rfl)
  all_goals exact sim_pushInt h rfl (by decide) (by rw [h.heap, h.insn]; rfl)

theorem putstaticResolved {kd : FieldKind} (hk : s.insn.kind = .putstatic)
    (hc : s.insn.code = .resolved (.putstatic kd))
    (hkd : kd = resolvedKind s.insn.field.reprKind) : Answers vm fm m tos s := by
  have he : operandKinds s.insn.toBytecodeInsn = some ([s.insn.field.reprKind], []) := by
    unfold operandKinds
    rw [hk]
  have hrepr := e.fieldKind (by simp [hk])
  subst hkd
  generalize s.insn.field.reprKind = kf at he hrepr hc
  simp only [List.mem_cons, List.not_mem_nil, or_false] at hrepr
  have hsim : ∀ {b : Value} {rest : List Value} {mem mem' : Memory}, Cached m s b rest →
      mem = mem' → Sim vm fm (Waits m s) (stackPolymorphicNext { m.setMem mem with sp := m.sp - 1 })
        (Plain.finish vm fm [] rest (.next (s.setMem mem') 0)) := fun h heq =>
    heq ▸ sim_setMem h.toSameFrame (by rw [h.sp]; rfl) h.below
  rcases hrepr with rfl | rfl | rfl | rfl | rfl
  case inr.inr.inl =>
    exact e.one hc (by decide) rfl he fun b rest _ h =>
      ⟨_, dispatch_float (e.insn ▸ hc) rfl, hsim h (by rw [h.heap, h.insn]; rfl)⟩
  case inr.inr.inr.inl =>
    exact e.one hc (by decide) rfl he fun b rest _ h =>
      ⟨_, dispatch_double (e.insn ▸ hc) rfl, hsim h (by rw [h.heap, h.insn]; rfl)⟩
  all_goals
    exact e.one hc (by decide) rfl he fun b rest _ h =>
      ⟨_, dispatch_int (e.insn ▸ hc) rfl, hsim h (by rw [h.heap, h.insn]; rfl)⟩

end Enters

end BJvm.Interpreter
