import BJvm.Proofs.TopOfStack

/-!
# What the handlers leave

One lemma for each shape of handler: with the operands of the plain instruction on the stack, the top
of them in the register, what the handler ends in represents what the instruction leaves.
-/

namespace BJvm.Interpreter

open ClassFile StackValue Function

variable {W : Type} {vm : Vm W} {fm : FrameMethod} {m : Machine W} {s s' : Plain W} {tos : Tos}
  {a b c v : Value} {vs rest : List Value} {back : Config W → Prop} {pushes : List TypeKind}
  {k : TypeKind}

@[simp] theorem low_canonical (k : TypeKind) (x : StackValue) : (canonical k x).low = x.low := by
  cases k <;> simp [canonical]

@[simp] theorem reduced_eq_int {k : TypeKind} : reduced k = .int ↔ k ≠ .float ∧ k ≠ .double := by
  cases k <;> simp [reduced]

/-! ### Operands below the top -/

namespace Cached

variable (h : Cached m s b (a :: rest))

include h

theorem sp_two : m.sp = rest.length + 2 := h.sp

theorem second : canonical a.kind (m.stack (m.sp - 2)) = a.word := by
  rw [h.sp_two]
  exact h.below.1

theorem second_of_ne (ha : a.kind ≠ .float) : m.stack (m.sp - 2) = a.word := by
  rw [← h.second, canonical_of_ne ha]

theorem second_low : (m.stack (m.sp - 2)).low = a.word.low := by
  rw [← h.second, low_canonical]

theorem under : Holds m.stack rest := h.below.2

end Cached

namespace Cached

variable (h : Cached m s c (b :: a :: rest))

include h

theorem sp_three : m.sp = rest.length + 3 := h.sp

theorem third_of_ne (ha : a.kind ≠ .float) : m.stack (m.sp - 3) = a.word := by
  rw [← canonical_of_ne ha (m.stack _), h.sp_three]
  exact h.below.2.1

theorem under_two : Holds m.stack rest := h.below.2.2

end Cached

/-! ### Constants and loads -/

theorem sim_pushInt {value : Machine W → BitVec 64} {r : StackValue} (h : Spilled m s)
    (hk : reduced k = .int) (hv : k ≠ .void) (hr : value m = r) :
    Sim vm fm back (pushInt value m) (Plain.finish vm fm [k] s.stack (.next s r)) :=
  hr ▸ .nextInt ⟨h.heap, h.locals, h.pc⟩ (congrArg (· + 1) h.sp) h.all hk hv

theorem sim_pushFloat {value : Machine W → BitVec 32} {r : BitVec 32} (h : Spilled m s)
    (hr : value m = r) :
    Sim vm fm back (pushFloat value m)
      (Plain.finish vm fm [.float] s.stack (.next s (.ofFloat r))) :=
  hr ▸ .nextFloat ⟨h.heap, h.locals, h.pc⟩ (congrArg (· + 1) h.sp) h.all

theorem sim_pushDouble {value : Machine W → BitVec 64} {r : StackValue} (h : Spilled m s)
    (hr : value m = r) :
    Sim vm fm back (pushDouble value m)
      (Plain.finish vm fm [.double] s.stack (.next s r)) :=
  hr ▸ .nextDouble ⟨h.heap, h.locals, h.pc⟩ (congrArg (· + 1) h.sp) h.all

/-! ### Computations -/

/-- A handler that replaces the top of the stack and goes on with it in a register. -/
theorem sim_replace {r : StackValue} (h : Cached m s v rest) (hk : k ≠ .void)
    (htos : tos = .fill (reduced k) r) :
    Sim vm fm back (.jump { m with pc := m.pc + 1 } tos)
      (Plain.finish vm fm [k] rest (.next s r)) :=
  .jump h.toSameFrame h.sp h.below hk htos

/-- A handler that replaces the two values on top. -/
theorem sim_replace₂ {r : StackValue} (h : Cached m s b (a :: rest)) (hk : k ≠ .void)
    (htos : tos = .fill (reduced k) r) :
    Sim vm fm back (.jump { m with pc := m.pc + 1, sp := m.sp - 1 } tos)
      (Plain.finish vm fm [k] rest (.next s r)) :=
  .jump (m := { m with sp := m.sp - 1 }) ⟨h.heap, h.locals, h.pc⟩ (by rw [h.sp_two]; rfl) h.under hk htos

theorem sim_integerBinOp {f : BitVec 64 → BitVec 64 → BitVec 64} (h : Cached m s b (a :: rest))
    (ha : a.kind ≠ .float) (hk : reduced k = .int) (hv : k ≠ .void) :
    Sim vm fm back (integerBinOp f m b.word)
      (Plain.finish vm fm [k] rest (.next s (f a.word b.word))) :=
  sim_replace₂ h hv (by rw [h.second_of_ne ha, hk]; rfl)

theorem sim_floatBinOp {f : BitVec 32 → BitVec 32 → BitVec 32} (h : Cached m s b (a :: rest)) :
    Sim vm fm back (floatBinOp f m b.word.low)
      (Plain.finish vm fm [.float] rest (.next s (onFloats f a.word b.word))) :=
  sim_replace₂ h (by decide) (by rw [h.second_low]; simp [reduced, Tos.fill, onFloats])

theorem sim_doubleBinOp {f : BitVec 64 → BitVec 64 → BitVec 64} (h : Cached m s b (a :: rest))
    (ha : a.kind ≠ .float) :
    Sim vm fm back (doubleBinOp f m b.word)
      (Plain.finish vm fm [.double] rest (.next s (f a.word b.word))) :=
  sim_replace₂ h (by decide) (by rw [h.second_of_ne ha]; rfl)

theorem sim_floatCmpOp {f : FloatValue → FloatValue → BitVec 64} (h : Cached m s b (a :: rest)) :
    Sim vm fm back (floatCmpOp f m b.word.low)
      (Plain.finish vm fm [.int] rest
        (.next s (f (floatValue a.word.low) (floatValue b.word.low)))) :=
  sim_replace₂ h (by decide) (by rw [h.second_low]; rfl)

theorem sim_doubleCmpOp {f : FloatValue → FloatValue → BitVec 64} (h : Cached m s b (a :: rest))
    (ha : a.kind ≠ .float) :
    Sim vm fm back (doubleCmpOp f m b.word)
      (Plain.finish vm fm [.int] rest (.next s (f (doubleValue a.word) (doubleValue b.word)))) :=
  sim_replace₂ h (by decide) (by rw [h.second_of_ne ha]; rfl)

/-- An instruction that may divide by zero. -/
theorem sim_division {cond : Prop} [Decidable cond] {r : StackValue} (h : Cached m s b (a :: rest))
    (hb : b.kind ≠ .float) (hk : reduced k = .int) (hv : k ≠ .void) :
    Sim vm fm back
      (if cond then throwExn vm .divisionByZero (m.spillInt b.word)
        else nextInt { m with sp := m.sp - 1 } r)
      (Plain.finish vm fm [k] rest (if cond then raise vm .divisionByZero s else .next s r)) := by
  split_ifs
  · have hs := (h.setTop (canonical_of_ne hb b.word)).spillVoid
    exact .throwExn hs.toSameFrame rfl
  · exact sim_replace₂ h hv (by rw [hk]; rfl)

/-! ### Stores -/

theorem SameFrame.setMem (h : SameFrame m s) (mem : Memory) :
    SameFrame (m.setMem mem) (s.setMem mem) :=
  ⟨by rw [Machine.setMem, Plain.setMem, h.heap], h.locals, h.pc⟩

theorem SameFrame.setLocal (h : SameFrame m s) (i : Nat) (x : StackValue) :
    SameFrame (m.setLocal i x) (s.setLocal i x) :=
  ⟨h.heap, by rw [Machine.setLocal, Plain.setLocal, h.locals], h.pc⟩

/-- A handler that has taken all its operands off the stack. -/
theorem sim_next {out : Outcome W} (h : SameFrame m s) (hsp : m.sp = rest.length)
    (hb : Holds m.stack rest)
    (hout : Plain.finish vm fm pushes rest out =
      some (.running { s with pc := s.pc + 1, stack := rest })) :
    Sim vm fm back (stackPolymorphicNext m) (Plain.finish vm fm pushes rest out) := by
  rw [hout, ← h.pc]
  exact .polymorphicTo ⟨⟨h.heap, h.locals, rfl⟩, hsp, hb⟩

/-- Stores into memory, with the operands off the stack. -/
theorem sim_setMem {mem : Memory} {n : Nat} (h : SameFrame m s) (hsp : m.sp - n = rest.length)
    (hb : Holds m.stack rest) :
    Sim vm fm back (stackPolymorphicNext { m.setMem mem with sp := m.sp - n })
      (Plain.finish vm fm [] rest (.next (s.setMem mem) 0)) :=
  have h' := h.setMem mem
  sim_next (m := { m.setMem mem with sp := m.sp - n }) ⟨h'.heap, h'.locals, h'.pc⟩ hsp hb rfl

theorem sim_setLocal {i : Nat} {x : StackValue} (h : Cached m s v rest) :
    Sim vm fm back (stackPolymorphicNext { m.setLocal i x with sp := m.sp - 1 })
      (Plain.finish vm fm [] rest (.next (s.setLocal i x) 0)) :=
  have h' := h.toSameFrame.setLocal i x
  sim_next (m := { m.setLocal i x with sp := m.sp - 1 }) ⟨h'.heap, h'.locals, h'.pc⟩
    (by rw [h.sp]; rfl) h.below rfl

/-- The store of a `putfield` of any kind. -/
theorem sim_putfieldOp {store : Memory → BitVec 64 → Memory} (h : Cached m s b (a :: rest))
    (ha : a.kind ≠ .float) :
    Sim vm fm back (putfieldOp vm m store)
      (Plain.finish vm fm [] rest (nonNull vm a.word s
        (.next (s.setMem (store s.heap.mem (a.word + s.insn.ic2))) 0))) := by
  unfold putfieldOp
  rw [h.second_of_ne ha, h.insn, h.heap]
  exact .npeOnNull h.toSameFrame fun _ => sim_setMem h.toSameFrame (by rw [h.sp_two]; rfl) h.under

/-! ### Arrays -/

theorem sim_checkElement {array index : StackValue} {i : BitVec 32} {spill : Machine W}
    {access : Next W} {out : Outcome W} (h : SameFrame m s) (hs : SameFrame spill s)
    (hi : index.low = i)
    (hk : Sim vm fm back access (Plain.finish vm fm pushes rest out)) :
    Sim vm fm back (checkElement vm m array i spill access)
      (Plain.finish vm fm pushes rest (accessElement vm array index s out)) := by
  subst hi
  refine .npeOnNull h fun _ => ?_
  rw [h.heap]
  dsimp only
  split_ifs
  · exact .throwExn (m := spill.spillVoid) ⟨hs.heap, hs.locals, hs.pc⟩ rfl
  · exact hk

theorem sim_arrayLoad {size : Nat} {load : Memory → BitVec 64 → StackValue}
    {next : Machine W → BitVec 64 → Next W} (h : Cached m s b (a :: rest)) (ha : a.kind ≠ .float)
    (hk : k ≠ .void)
    (hnext : ∀ m : Machine W, ∀ x, ∃ tos, next m x = .jump { m with pc := m.pc + 1 } tos ∧
      tos = .fill (reduced k) (load m.heap.mem x)) :
    Sim vm fm back (arrayLoad vm size next m b.word)
      (Plain.finish vm fm [k] rest (accessElement vm a.word b.word s
        (.next s (load s.heap.mem (Memory.element a.word b.word.low size))))) := by
  unfold arrayLoad
  rw [h.second_of_ne ha]
  refine sim_checkElement h.toSameFrame h.toSameFrame rfl ?_
  obtain ⟨tos, heq, htos⟩ := hnext { m with sp := m.sp - 1 } (Memory.element a.word b.word.low size)
  rw [heq]
  exact sim_replace₂ h hk (by rw [htos, ← h.heap])

theorem sim_arrayStore {size : Nat} {store : Memory → BitVec 64 → Memory}
    (h : Cached m s c (b :: a :: rest)) (ha : a.kind ≠ .float) :
    Sim vm fm back (arrayStore vm m size store)
      (Plain.finish vm fm [] rest (accessElement vm a.word b.word s
        (.next (s.setMem (store s.heap.mem (Memory.element a.word b.word.low size))) 0))) := by
  unfold arrayStore
  rw [h.third_of_ne ha, h.second_low, h.heap]
  exact sim_checkElement h.toSameFrame h.toSameFrame rfl
    (sim_setMem h.toSameFrame (by rw [h.sp_three]; rfl) h.under_two)

theorem sim_aastore (h : Cached m s c (b :: a :: rest)) (ha : a.kind ≠ .float)
    (hc : c.kind ≠ .float) :
    Sim vm fm back (aastoreImplInt vm m c.word)
      (Plain.finish vm fm [] rest (storeReference vm s [c.word, b.word, a.word])) := by
  have hs := h.setTop (canonical_of_ne hc c.word)
  unfold aastoreImplInt
  rw [h.third_of_ne ha, h.second_low, h.heap]
  change Sim vm fm back _ (Plain.finish vm fm [] rest (accessElement vm a.word b.word s
    (if c.word ≠ 0 ∧ vm.instanceof s.heap (vm.descriptor s.heap c.word)
        (vm.oneFewerDim s.heap (vm.descriptor s.heap a.word)) = false then
      raise vm (.arrayStore c.word) s
    else .next (s.setMem (s.heap.mem.store64 (Memory.element a.word b.word.low 8) c.word)) 0)))
  refine sim_checkElement h.toSameFrame hs.toSameFrame rfl ?_
  split_ifs
  · exact .throwExn hs.spillVoid.toSameFrame rfl
  · exact sim_setMem h.toSameFrame (by rw [h.sp_three]; rfl) h.under_two

/-! ### Control flow -/

/-- How many configurations without fuel may follow before the fuel is filled up. -/
def Config.rank : Config W → Nat
  | .running m _ => if m.fuel = 0 then 1 else 0
  | .returned .. | .thrown .. => 0

@[simp] theorem rank_begin : (interpretBegin fm { m with fuel := refuel }).rank = 0 := by
  simp [interpretBegin, Config.rank, refuel]

theorem sim_takeFuel {spill : Machine W → Machine W} {k : Machine W → Next W}
    {p : Option (PlainConfig W)} (he : Expected fm s)
    (hspill : Spilled (spill { m with fuel := m.fuel - 1 }) s)
    (hback : ∀ c, m.fuel = 0 → c.rank = 0 → Related c (.running s) → back c)
    (hk : Sim vm fm back (k { m with fuel := m.fuel - 1 }) p) :
    Sim vm fm back (takeFuel m spill k) p := by
  unfold takeFuel
  split_ifs with hfuel
  · refine fun p' _ _ => ⟨_, rfl, .inr (hback _ hfuel rank_begin ?_)⟩
    exact related_begin hspill.heap hspill.locals hspill.pc hspill.all he
  · exact hk

theorem jumpBy_delta {t : Nat} (h : m.insn.delta = ((t : Int) - m.pc) * sizeofBytecodeInsn) :
    m.jumpBy m.insn.delta = { m with pc := t } := by
  have hpc : ((m.pc * sizeofBytecodeInsn + m.insn.delta) / sizeofBytecodeInsn).toNat = t := by
    rw [h, sizeofBytecodeInsn]
    omega
  rw [Machine.jumpBy, hpc]

theorem jumpBy_next : m.jumpBy sizeofBytecodeInsn = { m with pc := m.pc + 1 } := by
  have hpc : ((m.pc * sizeofBytecodeInsn + sizeofBytecodeInsn) / sizeofBytecodeInsn).toNat =
      m.pc + 1 := by
    rw [sizeofBytecodeInsn]
    omega
  rw [Machine.jumpBy, hpc]

theorem advanceNext_target (t : Nat) : m.advanceNext ((t : Int) - 1 - m.pc) = { m with pc := t } := by
  have hpc : ((m.pc : Int) + ((t : Int) - 1 - m.pc) + 1).toNat = t := by omega
  rw [Machine.advanceNext, hpc]

/-- A jump to a target with the operands off the stack. -/
theorem sim_branch {t n : Nat} (h : SameFrame m s) (hsp : m.sp - n = rest.length)
    (hb : Holds m.stack rest) :
    Sim vm fm back (stackPolymorphicJmp { m with pc := t, sp := m.sp - n })
      (Plain.finish vm fm [] rest (.branch s t)) :=
  .polymorphicTo ⟨⟨h.heap, h.locals, rfl⟩, hsp, hb⟩

theorem sim_branchIf {cond : Machine W → BitVec 64 → Bool} {cond' : Bool} {n : Nat}
    (he : Expected fm s) (h : Cached m s v vs) (hv : v.kind ≠ .float)
    (hdelta : s.insn.delta = ((s.insn.index : Int) - s.pc) * sizeofBytecodeInsn)
    (hback : ∀ c, m.fuel = 0 → c.rank = 0 → Related c (.running s) → back c)
    (hcond : cond { m with fuel := m.fuel - 1 } v.word = cond')
    (hsp : m.sp - n = rest.length) (hb : Holds m.stack rest) :
    Sim vm fm back (branchIf cond n m v.word) (Plain.finish vm fm [] rest
      (if cond' then .branch s s.insn.index else .next s 0)) := by
  have hs : Spilled ({ m with fuel := m.fuel - 1 }.setTop v.word) s :=
    have h' := h.setTop (canonical_of_ne hv v.word)
    ⟨⟨h'.heap, h'.locals, h'.pc⟩, h'.sp, h'.all⟩
  refine sim_takeFuel he hs hback ?_
  rw [hcond]
  cases cond'
  · simp only [Bool.false_eq_true, if_false, jumpBy_next]
    exact sim_next (m := { m with fuel := m.fuel - 1, sp := m.sp - n }) ⟨h.heap, h.locals, h.pc⟩ hsp hb rfl
  · simp only [if_true]
    rw [jumpBy_delta (t := s.insn.index)]
    · exact sim_branch (m := { m with fuel := m.fuel - 1 }) ⟨h.heap, h.locals, h.pc⟩ hsp hb
    · show m.insn.delta = _
      rw [h.insn, hdelta, h.pc]

theorem Entry.sameFrame (h : Entry m s tos) : SameFrame m s := by
  cases h with
  | spilled h => exact h.toSameFrame
  | cached h => exact h.toSameFrame

/-- The register and the stack stay as they are. -/
theorem Entry.keep (h : Entry m s tos) (m' : Machine W) (h' : SameFrame m' s')
    (hs : s'.stack = s.stack) (hstack : m'.stack = m.stack) (hsp : m'.sp = m.sp) :
    Entry m' s' tos := by
  cases h with
  | spilled h => exact .spilled ⟨h', by rw [hs, hsp, h.sp], by rw [hs, hstack]; exact h.all⟩
  | cached h => exact .cached ⟨h', hs.trans h.stack_eq, hsp.trans h.sp, hstack ▸ h.below, h.top⟩

/-- A handler that goes on with the register as it is. -/
theorem sim_keep {m' : Machine W} (h : Entry m s tos) (hvoid : tos = .void → s.stack = [])
    (h' : SameFrame m' s') (hs : s'.stack = s.stack) (hstack : m'.stack = m.stack)
    (hsp : m'.sp = m.sp) : Sim vm fm back (.jump m' tos) (some (.running s')) := by
  intro p hp _
  cases Option.some.inj hp
  exact ⟨_, rfl, .inl ⟨h.keep m' h' hs hstack hsp, fun htos hne => absurd (hs.trans (hvoid htos)) hne⟩⟩

/-- A jump that leaves the stack as it is. -/
theorem sim_goto {spill : Machine W → Machine W} (he : Expected fm s) (h : Entry m s tos)
    (hvoid : tos = .void → s.stack = [])
    (hdelta : s.insn.delta = ((s.insn.index : Int) - s.pc) * sizeofBytecodeInsn)
    (hspill : Spilled (spill { m with fuel := m.fuel - 1 }) s)
    (hback : ∀ c, m.fuel = 0 → c.rank = 0 → Related c (.running s) → back c) :
    Sim vm fm back (takeFuel m spill fun m => .jump (m.jumpBy m.insn.delta) tos)
      (Plain.finish vm fm [] s.stack (.branch s s.insn.index)) := by
  have hf := h.sameFrame
  refine sim_takeFuel he hspill hback ?_
  rw [jumpBy_delta (t := s.insn.index)]
  · exact sim_keep h hvoid ⟨hf.heap, hf.locals, rfl⟩ rfl rfl rfl
  · show m.insn.delta = _
    rw [hf.insn, hdelta, hf.pc]

theorem sim_tableswitch (h : Cached m s v rest) :
    Sim vm fm back (tableswitchImplInt m v.word)
      (Plain.finish vm fm [] rest (tableswitch s [v.word])) := by
  unfold tableswitchImplInt tableswitch
  dsimp only
  rw [advanceNext_target, h.insn]
  exact sim_branch (m := m) h.toSameFrame (by rw [h.sp]; rfl) h.below

theorem sim_lookupswitch (h : Cached m s v rest) :
    Sim vm fm back (lookupswitchImplInt m v.word)
      (Plain.finish vm fm [] rest (lookupswitch s [v.word])) := by
  unfold lookupswitchImplInt lookupswitch
  dsimp only
  rw [advanceNext_target, h.insn]
  exact sim_branch (m := m) h.toSameFrame (by rw [h.sp]; rfl) h.below

theorem sim_done {x : StackValue} (h : m.heap = s.heap) :
    Sim vm fm back (.done m x) (Plain.finish vm fm pushes rest (.ret s x)) := by
  intro p hp _
  cases Option.some.inj hp
  exact ⟨_, rfl, .inl ⟨h, rfl⟩⟩

/-! ### The stack -/

/-- A handler that leaves all values in memory. -/
theorem sim_shuffle (h : SameFrame m s) (hsp : m.sp = vs.length) (hb : Holds m.stack vs) :
    Sim vm fm back (stackPolymorphicNext m)
      (some (.running { s with pc := s.pc + 1, stack := vs })) := by
  rw [← h.pc]
  exact .polymorphicTo ⟨⟨h.heap, h.locals, rfl⟩, hsp, hb⟩

/-- A handler that leaves the top of the stack in a register. -/
theorem sim_shuffle_cached (h : SameFrame m s) (hsp : m.sp = vs.length + 1) (hb : Holds m.stack vs)
    (hv : canonical v.kind v.word = v.word) (htos : tos = .fill (reduced v.kind) v.word) :
    Sim vm fm back (.jump { m with pc := m.pc + 1 } tos)
      (some (.running { s with pc := s.pc + 1, stack := v :: vs })) := by
  intro p hp _
  cases Option.some.inj hp
  rw [htos]
  have hc : Cached { m with pc := m.pc + 1 } { s with pc := s.pc + 1, stack := v :: vs } v vs :=
    ⟨⟨h.heap, h.locals, congrArg (· + 1) h.pc⟩, rfl, hsp, hb, hv⟩
  exact ⟨_, rfl, .inl (related_cached hc)⟩

theorem sim_dup {x : StackValue} (h : Cached m s v vs) (hx : canonical v.kind x = v.word)
    (htos : tos = .fill (reduced v.kind) v.word) :
    Sim vm fm back (.jump { m.setTop x with pc := m.pc + 1, sp := m.sp + 1 } tos)
      (some (.running { s with pc := s.pc + 1, stack := v :: v :: vs })) := by
  have hs := h.setTop hx
  have hall := hs.all
  rw [h.stack_eq] at hall
  exact sim_shuffle_cached (m := { m.setTop x with sp := m.sp + 1 }) ⟨h.heap, h.locals, h.pc⟩
    (by rw [h.sp]; rfl) hall h.top htos

theorem sim_dup2 (h : Cached m s b (a :: vs)) (hb : reduced b.kind = .int) :
    Sim vm fm back (dup2ImplInt m b.word)
      (some (.running { s with pc := s.pc + 1, stack := b :: a :: b :: a :: vs })) := by
  have hs := h.setTop (canonical_of_ne (reduced_eq_int.mp hb).1 b.word)
  have hall := hs.all
  rw [h.stack_eq] at hall
  refine sim_shuffle_cached (m := m.dup2 b.word) ⟨h.heap, h.locals, h.pc⟩ ?_ ⟨?_, ?_⟩ h.top
    (by rw [hb]; rfl)
  · show m.sp + 2 = _
    rw [h.sp]
    rfl
  · have hlen : (b :: a :: vs).length = m.sp := h.sp.symm
    simp only [Machine.dup2, Machine.write, hlen, update_self, h.second]
  · exact hall.write (le_of_eq h.sp.symm) _

theorem Spilled.holds (h : Spilled m s) (hs : s.stack = vs) : Holds m.stack vs ∧ m.sp = vs.length :=
  ⟨hs ▸ h.all, hs ▸ h.sp⟩

theorem sim_popped {n : Nat} (h : Spilled m s) (hs : s.stack = vs) :
    Sim vm fm back (stackPolymorphicNext { m with sp := m.sp - n })
      (some (.running { s with pc := s.pc + 1, stack := vs.drop n })) := by
  obtain ⟨hall, hsp⟩ := h.holds hs
  exact sim_shuffle (m := { m with sp := m.sp - n }) ⟨h.heap, h.locals, h.pc⟩
    (by simp [hsp]) (hall.drop n)

theorem sim_swap (h : Spilled m s) (hs : s.stack = b :: a :: vs) :
    Sim vm fm back (swapImplVoid m)
      (some (.running { s with pc := s.pc + 1, stack := a :: b :: vs })) := by
  obtain ⟨⟨hb, ha, hvs⟩, hsp⟩ := h.holds hs
  refine sim_shuffle ⟨h.heap, h.locals, h.pc⟩ hsp ⟨?_, ?_, ?_⟩
  · simpa [Machine.write, hsp, update_apply] using ha
  · simpa [Machine.write, hsp, update_apply] using hb
  · refine hvs.congr fun i hi => ?_
    simp only [List.length_cons] at hsp
    dsimp only [Machine.write]
    repeat rw [update_of_ne (by omega)]

theorem sim_dupX1 (h : Spilled m s) (hs : s.stack = b :: a :: vs) :
    Sim vm fm back (dupX1ImplVoid m)
      (some (.running { s with pc := s.pc + 1, stack := b :: a :: b :: vs })) := by
  obtain ⟨⟨hb, ha, hvs⟩, hsp⟩ := h.holds hs
  refine sim_shuffle ⟨h.heap, h.locals, h.pc⟩ (by simp [Machine.write, hsp]) ⟨?_, ?_, ?_, ?_⟩
  · simpa [Machine.write, hsp, update_apply] using hb
  · simpa [Machine.write, hsp, update_apply] using ha
  · simpa [Machine.write, hsp, update_apply] using hb
  · refine hvs.congr fun i hi => ?_
    simp only [List.length_cons] at hsp
    dsimp only [Machine.write]
    repeat rw [update_of_ne (by omega)]

theorem sim_dupX2 (h : Spilled m s) (hs : s.stack = c :: b :: a :: vs) :
    Sim vm fm back (dupX2ImplVoid m)
      (some (.running { s with pc := s.pc + 1, stack := c :: b :: a :: c :: vs })) := by
  obtain ⟨⟨hc, hb, ha, hvs⟩, hsp⟩ := h.holds hs
  refine sim_shuffle ⟨h.heap, h.locals, h.pc⟩ (by simp [Machine.write, hsp]) ⟨?_, ?_, ?_, ?_, ?_⟩
  · simpa [Machine.write, hsp, update_apply, Nat.add_assoc] using hc
  · simpa [Machine.write, hsp, update_apply, Nat.add_assoc] using hb
  · simpa [Machine.write, hsp, update_apply, Nat.add_assoc] using ha
  · simpa [Machine.write, hsp, update_apply, Nat.add_assoc] using hc
  · refine hvs.congr fun i hi => ?_
    simp only [List.length_cons] at hsp
    dsimp only [Machine.write]
    repeat rw [update_of_ne (by omega)]

theorem sim_dup2X1 (h : Spilled m s) (hs : s.stack = c :: b :: a :: vs) :
    Sim vm fm back (dup2X1ImplVoid m)
      (some (.running { s with pc := s.pc + 1, stack := c :: b :: a :: c :: b :: vs })) := by
  obtain ⟨⟨hc, hb, ha, hvs⟩, hsp⟩ := h.holds hs
  refine sim_shuffle ⟨h.heap, h.locals, h.pc⟩ (by simp [Machine.write, hsp])
    ⟨?_, ?_, ?_, ?_, ?_, ?_⟩
  · simpa [Machine.write, hsp, update_apply, Nat.add_assoc] using hc
  · simpa [Machine.write, hsp, update_apply, Nat.add_assoc] using hb
  · simpa [Machine.write, hsp, update_apply, Nat.add_assoc] using ha
  · simpa [Machine.write, hsp, update_apply, Nat.add_assoc] using hc
  · simpa [Machine.write, hsp, update_apply, Nat.add_assoc] using hb
  · refine hvs.congr fun i hi => ?_
    simp only [List.length_cons] at hsp
    dsimp only [Machine.write]
    repeat rw [update_of_ne (by omega)]

theorem sim_dup2X2 {d : Value} (h : Spilled m s) (hs : s.stack = d :: c :: b :: a :: vs) :
    Sim vm fm back (dup2X2ImplVoid m)
      (some (.running { s with pc := s.pc + 1, stack := d :: c :: b :: a :: d :: c :: vs })) := by
  obtain ⟨⟨hd, hc, hb, ha, hvs⟩, hsp⟩ := h.holds hs
  refine sim_shuffle ⟨h.heap, h.locals, h.pc⟩ (by simp [Machine.write, hsp])
    ⟨?_, ?_, ?_, ?_, ?_, ?_, ?_⟩
  · simpa [Machine.write, hsp, update_apply, Nat.add_assoc] using hd
  · simpa [Machine.write, hsp, update_apply, Nat.add_assoc] using hc
  · simpa [Machine.write, hsp, update_apply, Nat.add_assoc] using hb
  · simpa [Machine.write, hsp, update_apply, Nat.add_assoc] using ha
  · simpa [Machine.write, hsp, update_apply, Nat.add_assoc] using hd
  · simpa [Machine.write, hsp, update_apply, Nat.add_assoc] using hc
  · refine hvs.congr fun i hi => ?_
    simp only [List.length_cons] at hsp
    dsimp only [Machine.write]
    repeat rw [update_of_ne (by omega)]

/-! ### Objects -/

/-- A handler that needs an object and replaces it. -/
theorem sim_ofObject {r : StackValue} (h : Cached m s v rest) (hk : k ≠ .void)
    (htos : tos = .fill (reduced k) r) :
    Sim vm fm back (npeOnNull vm v.word m (.jump { m with pc := m.pc + 1 } tos))
      (Plain.finish vm fm [k] rest (nonNull vm v.word s (.next s r))) :=
  .npeOnNull h.toSameFrame fun _ => sim_replace h hk htos

theorem sim_athrow (h : Cached m s v rest) (hv : v.kind ≠ .float) :
    Sim vm fm back (athrowImplInt vm m v.word)
      (Plain.finish vm fm pushes rest (nonNull vm v.word s (.throw s v.word))) := by
  have hs := (h.setTop (canonical_of_ne hv v.word)).spillVoid
  exact .npeOnNull hs.toSameFrame fun _ => .throw hs.toSameFrame rfl

theorem sim_checkcast (h : Cached m s v rest) (hv : v.kind ≠ .float) :
    Sim vm fm back (checkcastResolvedImplInt vm m v.word)
      (Plain.finish vm fm [.reference] rest
        (if v.word ≠ 0 ∧ vm.instanceof s.heap (vm.descriptor s.heap v.word) s.insn.classdesc = false
          then raise vm (.classCast v.word s.insn.classdesc) s else .next s v.word)) := by
  have hs := (h.setTop (canonical_of_ne hv v.word)).spillVoid
  unfold checkcastResolvedImplInt
  rw [h.insn, h.heap]
  split_ifs
  · exact .throwExn hs.toSameFrame rfl
  · exact sim_replace h (by decide) rfl

theorem sim_instanceof (h : Cached m s v rest) :
    Sim vm fm back (instanceofResolvedImplInt vm m v.word)
      (Plain.finish vm fm [.int] rest (evalResolved vm .instanceof s [v.word])) := by
  unfold instanceofResolvedImplInt
  rw [h.insn, h.heap]
  exact sim_replace h (by decide) rfl

theorem sim_monitorenter (h : Cached m s v rest) (hv : v.kind ≠ .float) :
    Sim vm fm back (monitorenterImplInt vm m v.word)
      (Plain.finish vm fm [] rest (nonNull vm v.word s
        (ask vm (.monitorAcquire v.word) s fun s _ => .next s 0))) := by
  have hs := (h.setTop (canonical_of_ne hv v.word)).spillVoid
  have hall := hs.all
  rw [h.stack_eq] at hall
  refine .npeOnNull h.toSameFrame fun _ => .perform hs.toSameFrame rfl fun heap _ _ => ?_
  exact sim_next (m := { m.spillInt v.word with heap, sp := m.sp - 1 }) (s := { s with heap })
    ⟨rfl, h.locals, h.pc⟩ (by rw [h.sp]; rfl) hall.2 rfl

/-- `monitor_release` has no exception of its own: the handler need not have spilled. -/
theorem sim_monitorexit (h : Cached m s v rest)
    (hok : ∀ heap e, (vm.request (.monitorRelease v.word) heap).2 ≠ .error e) :
    Sim vm fm back (monitorexitImplInt vm m v.word)
      (Plain.finish vm fm [] rest (nonNull vm v.word s
        (ask vm (.monitorRelease v.word) s fun s result =>
          if result ≠ 0 then raise vm .illegalMonitorState s else .next s 0))) := by
  refine .npeOnNull h.toSameFrame fun _ => ?_
  unfold perform ask
  rw [h.heap]
  rcases hreq : vm.request (.monitorRelease v.word) s.heap with ⟨heap, e | result⟩
  · exact absurd (congrArg Prod.snd hreq) (hok s.heap e)
  · dsimp only
    split_ifs
    · exact .throwExn ⟨rfl, h.locals, h.pc⟩ rfl
    · exact sim_next (m := { m with heap, sp := m.sp - 1 }) (s := { s with heap })
        ⟨rfl, h.locals, h.pc⟩ (by rw [h.sp]; rfl) h.below rfl

end BJvm.Interpreter
