import BJvm.Gc.CallStack
import BJvm.Proofs.AnalyzedStates
import BJvm.Proofs.GcRoots

/-!
# The scan of a thread's stack is exact

In every run of pushes and pops a frame begins in or behind the stack of its caller (`StackInv`), and
the slots that two frames share are the callee's.  So what the scan pushes for the frames is what
`HoldsReference` says (`mem_stackSlots`).  Native frames are passed over: their arguments are in
handles, and on the operand stack of the caller if there is one.
-/

namespace BJvm.Gc

open StackFrame
open Function (update)

variable {thr : VmThread} {vm : Vm} {s s' : ThreadStack} {frames : List PushedFrame}
  {f g caller : PushedFrame} {callee : Callee} {shape : MethodDescriptor} {a n args bound : Nat}

/-! ### Runs -/

namespace PushedFrame

/-- The instruction at the program counter, as it stands in the class file. -/
def insn (f : PushedFrame) : BytecodeInsn :=
  f.callee.method.code.code.getD f.programCounter default

/-- The instruction at the program counter pops operands of these kinds, top first. -/
def Pops (f : PushedFrame) (pops : List TypeKind) : Prop :=
  f.programCounter < f.callee.method.code.code.length ∧ ∃ pushes, effect f.insn = some (pops, pushes)

/-- The slots of reference kind, by the analysis. -/
def references (f : PushedFrame) : List Nat :=
  StackFrame.references f.stack f.stackSummary.stack ++
    StackFrame.references f.locals f.stackSummary.locals

/-- The slots in which the arguments of reference kind were passed. -/
def argumentSlots (f : PushedFrame) : List Nat :=
  StackFrame.references f.beginning (f.callee.argumentKinds f.shape)

/-- The handles of a native frame's arguments. -/
def argumentHandles (f : PushedFrame) : List Nat :=
  (((f.callee.argumentKinds f.shape).zip f.args).filter fun p => p.1 = .reference).map Prod.snd

/-- The arguments of the frame are the operands that the caller's instruction pops. -/
def CalledBy (f caller : PushedFrame) : Prop :=
  caller.Pops (f.callee.argumentKinds f.shape).reverse ∧
    caller.sp = f.beginning + (f.callee.argc f.shape) * sizeofStackValue

end PushedFrame

/-- What the callers of the operations see to. -/
def StackOp.Allowed (s : ThreadStack) : StackOp → Prop
  | .invoke callee shape extra =>
    (∃ top ∈ s.frames.head?, ∃ pops, top.Pops pops ∧ pops.length + extra = callee.argc shape) ∧
      (callee.isNative = false → shape = callee.method.descriptor)
  | .callInterpreter callee args => args.length = callee.argc callee.method.descriptor
  | _ => True

/-- The stacks that a thread can have. -/
inductive StackRun (thr : VmThread) : ThreadStack → Prop
  | start (mem : Nat → Nat) : StackRun thr { mem }
  | step {s s' : ThreadStack} {op : StackOp} : StackRun thr s → s.apply thr op = some s' →
      op.Allowed s → StackRun thr s'

/-! ### The layout -/

/-- A frame lies behind its locals, and a native one has handles of its arguments. -/
structure FrameOk (thr : VmThread) (f : PushedFrame) : Prop where
  start : thr.frameBuffer ≤ f.beginning
  le_addr : f.beginning ≤ f.addr
  plain : f.isNative = false → f.callee.isNative = false ∧
    f.stackStates = f.callee.analysis.stackStates ∧ f.numLocals = f.callee.method.code.maxLocals ∧
    f.numLocals * sizeofStackValue ≤ f.addr
  native : f.isNative = true →
    f.addr = f.beginning + 2 * (f.callee.argc f.shape) * sizeofStackValue ∧
    ∀ h ∈ f.argumentHandles, h ≠ thr.nullHandle → h ∈ thr.handles

/-- Each frame begins in or behind the stack of its caller. -/
structure StackInv (thr : VmThread) (frames : List PushedFrame) : Prop where
  frame : ∀ f ∈ frames, FrameOk thr f
  order : frames.Pairwise fun callee caller => caller.stack ≤ callee.beginning

namespace PushedFrame

/-- An interpreted frame is of a method that is not native, and has the states of its analysis. -/
def Analyzed (f : PushedFrame) : Prop :=
  f.callee.isNative = false ∧ f.stackStates = f.callee.analysis.stackStates

theorem Analyzed.summary (h : f.Analyzed)
    (hp : f.programCounter < f.callee.method.code.code.length) :
    RecordedAt f.callee.method.code.code f.callee.method.code.maxLocals f.stackSummary
      f.programCounter := by
  obtain ⟨hc, hstates⟩ := h
  obtain ⟨fuel, ha⟩ := f.callee.analyzed hc
  rw [StackFrame.stackSummary, hstates]
  exact (analyzeMethodCode_records ha).2 _ hp

/-- The operands that an instruction pops are on top of the stack. -/
theorem Analyzed.operands {pops : List TypeKind} (h : f.Analyzed) (hp : f.Pops pops) :
    ∃ rest, f.stackSummary.stack = rest ++ pops.reverse := by
  obtain ⟨hlt, pushes, heffect⟩ := hp
  obtain ⟨rest, hrest⟩ := (h.summary hlt).operands heffect
  refine ⟨rest.reverse, ?_⟩
  rw [← List.reverse_append, ← hrest, List.reverse_reverse]

end PushedFrame

theorem FrameOk.analyzed (h : FrameOk thr f) (hn : f.isNative = false) : f.Analyzed :=
  ⟨(h.plain hn).1, (h.plain hn).2.1⟩

theorem FrameOk.summary (h : FrameOk thr f) (hn : f.isNative = false)
    (hp : f.programCounter < f.callee.method.code.code.length) :
    RecordedAt f.callee.method.code.code f.callee.method.code.maxLocals f.stackSummary
      f.programCounter :=
  (h.analyzed hn).summary hp

theorem FrameOk.operands {pops : List TypeKind} (h : FrameOk thr f) (hn : f.isNative = false)
    (hp : f.Pops pops) : ∃ rest, f.stackSummary.stack = rest ++ pops.reverse :=
  (h.analyzed hn).operands hp

theorem FrameOk.locals_length (h : FrameOk thr f) (hn : f.isNative = false) :
    f.stackSummary.locals.length ≤ f.numLocals := by
  obtain ⟨hc, hstates, hl, -⟩ := h.plain hn
  rcases Nat.lt_or_ge f.programCounter f.callee.method.code.code.length with hp | hp
  · rw [(h.summary hn hp).locals, hl]
  · obtain ⟨fuel, ha⟩ := f.callee.analyzed hc
    rw [StackFrame.stackSummary, hstates, List.getD_eq_default _ _
      ((analyzeMethodCode_records ha).1.trans_le hp)]
    exact Nat.zero_le _

/-! ### Pushing a frame -/

theorem makeHandlesArray_handles : ∀ {kinds : List TypeKind} {arg : Nat} {mem mem' : Nat → Nat}
    {values : List Nat}, thr.makeHandlesArray kinds arg mem = some (values, mem') →
    ∀ p ∈ kinds.zip values, p.1 = .reference → p.2 ≠ thr.nullHandle → p.2 ∈ thr.handles
  | [], _, _, _, _, _, _, hp, _, _ => by simp at hp
  | kind :: kinds, arg, mem, mem', values, h, p, hp, hk, hn => by
    rw [VmThread.makeHandlesArray, Option.bind_eq_bind] at h
    obtain ⟨⟨value, mem₁⟩, hvalue, h⟩ := Option.bind_eq_some_iff.mp h
    obtain ⟨⟨rest, mem₂⟩, hrest, h⟩ := Option.bind_eq_some_iff.mp h
    obtain ⟨rfl, rfl⟩ := Prod.mk.inj (Option.some.inj h)
    rw [List.zip_cons_cons] at hp
    rcases List.mem_cons.mp hp with rfl | hp
    · rw [VmThread.argumentValue, if_pos hk, VmThread.makeHandle] at hvalue
      split_ifs at hvalue
      · obtain ⟨rfl, rfl⟩ := Prod.mk.inj (Option.some.inj hvalue)
        exact absurd rfl hn
      · obtain ⟨handle, hfind, heq⟩ := Option.map_eq_some_iff.mp hvalue
        obtain ⟨rfl, rfl⟩ := Prod.mk.inj heq
        exact List.mem_of_find?_eq_some hfind
    · exact makeHandlesArray_handles hrest p hp hk hn

theorem mem_argumentHandles {h : Nat} (hh : h ∈ f.argumentHandles) :
    ∃ p ∈ (f.callee.argumentKinds f.shape).zip f.args, p.1 = .reference ∧ p.2 = h := by
  obtain ⟨p, hp, rfl⟩ := List.mem_map.mp hh
  obtain ⟨hp, hk⟩ := List.mem_filter.mp hp
  exact ⟨p, hp, by simpa using hk, rfl⟩

/-- A frame that is pushed begins with its arguments. -/
theorem pushFrame_inv (hinv : StackInv thr s.frames) (hstart : thr.frameBuffer ≤ args)
    (hargs : ∀ f ∈ s.frames, f.stack ≤ args) (h : thr.pushFrame s callee shape args = some s') :
    StackInv thr s'.frames := by
  have hcons : ∀ f : PushedFrame, FrameOk thr f → f.beginning = args →
      StackInv thr (f :: s.frames) := fun f hf hb => by
    refine ⟨fun g hg => ?_, List.pairwise_cons.mpr ⟨fun g hg => hb ▸ hargs g hg, hinv.order⟩⟩
    rcases List.mem_cons.mp hg with rfl | hg
    · exact hf
    · exact hinv.frame g hg
  rw [VmThread.pushFrame] at h
  split_ifs at h with hn
  · simp only [VmThread.pushNativeFrame] at h
    split_ifs at h with hroom
    obtain ⟨⟨values, mem⟩, hvalues, rfl⟩ := Option.map_eq_some_iff.mp h
    have hb : args + callee.argc shape * sizeofStackValue + callee.argc shape * sizeofStackValue -
        2 * callee.argc shape * sizeofStackValue = args := by
      simp only [sizeofStackValue]
      omega
    refine hcons _ ⟨?_, ?_, fun hp => (by cases hp), fun _ => ⟨?_, fun handle hh hne => ?_⟩⟩ hb
    · exact hstart.trans_eq hb.symm
    · exact Nat.sub_le ..
    · simp only [PushedFrame.beginning, if_pos, hb]
      simp only [sizeofStackValue]
      omega
    · obtain ⟨p, hp, hk, rfl⟩ := mem_argumentHandles hh
      exact makeHandlesArray_handles hvalues p hp hk hne
  · simp only [VmThread.pushPlainFrame] at h
    split_ifs at h with hroom
    obtain rfl := Option.some.inj h
    have hb : args + callee.method.code.maxLocals * sizeofStackValue -
        callee.method.code.maxLocals * sizeofStackValue = args := Nat.add_sub_cancel ..
    refine hcons _ ⟨?_, ?_, fun _ => ⟨by simpa using hn, rfl, rfl, ?_⟩, fun hp => (by cases hp)⟩ hb
    · exact hstart.trans_eq hb.symm
    · exact Nat.sub_le ..
    · exact Nat.le_add_left ..

theorem StackInv.le_stack (h : StackInv thr frames) (ha : ∀ top ∈ frames.head?, top.stack ≤ args) :
    ∀ f ∈ frames, f.stack ≤ args := by
  rcases frames with _ | ⟨top, frames⟩
  · exact fun f hf => absurd hf List.not_mem_nil
  have htop : top.stack ≤ args := ha top rfl
  have hle : top.beginning ≤ top.stack :=
    (h.frame top List.mem_cons_self).le_addr.trans (Nat.le_add_right ..)
  intro f hf
  rcases List.mem_cons.mp hf with rfl | hf
  · exact htop
  · exact ((List.pairwise_cons.mp h.order).1 f hf).trans (hle.trans htop)

/-- An invoke is allowed where there is a frame with the operands. -/
theorem frames_of_invoke {extra : Nat} (h : (StackOp.invoke callee shape extra).Allowed s) :
    ∃ top frames pops, s.frames = top :: frames ∧ top.Pops pops ∧
      pops.length + extra = callee.argc shape := by
  obtain ⟨⟨top, htop, pops, hpops⟩, -⟩ := h
  obtain ⟨frames, hframes⟩ := List.head?_eq_some_iff.mp htop
  exact ⟨top, frames, pops, hframes, hpops⟩

theorem apply_inv {op : StackOp} (hinv : StackInv thr s.frames) (hop : op.Allowed s)
    (h : s.apply thr op = some s') : StackInv thr s'.frames := by
  cases op with
  | invoke callee shape extra =>
    obtain ⟨top, frames, pops, hframes, hpops, hlen⟩ := frames_of_invoke hop
    have hok : FrameOk thr top := hinv.frame top (by simp [hframes])
    simp only [ThreadStack.apply, hframes] at h
    split_ifs at h with hn
    rw [Bool.not_eq_true] at hn
    -- the operands are on the stack, so the arguments begin there
    obtain ⟨rest, hrest⟩ := hok.operands hn hpops
    have hargs : top.stack ≤ top.sp - (callee.argc shape - extra) * sizeofStackValue := by
      rw [PushedFrame.sp, hrest, List.length_append, List.length_reverse, ← hlen,
        Nat.add_sub_cancel, Nat.add_mul, ← Nat.add_assoc, Nat.add_sub_cancel]
      exact Nat.le_add_right ..
    have hstart : thr.frameBuffer ≤ top.stack :=
      hok.start.trans (hok.le_addr.trans (Nat.le_add_right ..))
    refine pushFrame_inv hinv (hstart.trans hargs) (hinv.le_stack fun g hg => ?_) h
    rw [hframes] at hg
    obtain rfl : top = g := by simpa using hg
    exact hargs
  | callInterpreter callee args =>
    simp only [ThreadStack.apply] at h
    split_ifs at h with hroom
    have hnext : ∀ top ∈ s.frames.head?, top.stack ≤ thr.nextFrameStart s.frames := by
      rcases s.frames with _ | ⟨top, frames⟩
      · simp
      · intro g hg
        obtain rfl : top = g := by simpa using hg
        exact Nat.le_add_right ..
    have hstart : thr.frameBuffer ≤ thr.nextFrameStart s.frames := by
      rcases hframes : s.frames with _ | ⟨top, frames⟩
      · exact le_rfl
      · have hok := hinv.frame top (by simp [hframes])
        rw [hframes] at hnext
        exact (hok.start.trans (hok.le_addr.trans (Nat.le_add_right ..))).trans (hnext top rfl)
    have hstored : StackInv thr ({ s with
        mem := VmThread.storeArgs s.mem (thr.nextFrameStart s.frames) args } : ThreadStack).frames :=
      hinv
    exact pushFrame_inv hstored hstart (hinv.le_stack hnext) h
  | goto pc =>
    rcases hframes : s.frames with _ | ⟨top, frames⟩
    · simp [ThreadStack.apply, hframes] at h
    simp only [ThreadStack.apply, hframes] at h
    split_ifs at h with hn
    obtain rfl := Option.some.inj h
    rw [hframes] at hinv
    have hok := hinv.frame top List.mem_cons_self
    refine ⟨fun g hg => ?_, List.pairwise_cons.mpr (List.pairwise_cons.mp hinv.order)⟩
    rcases List.mem_cons.mp hg with rfl | hg
    · exact ⟨hok.start, hok.le_addr, hok.plain, hok.native⟩
    · exact hinv.frame g (List.mem_cons_of_mem _ hg)
  | write mem =>
    obtain rfl := Option.some.inj h
    exact hinv
  | pop =>
    rcases hframes : s.frames with _ | ⟨top, frames⟩
    · simp [ThreadStack.apply, hframes] at h
    simp only [ThreadStack.apply, hframes] at h
    obtain rfl := Option.some.inj h
    rw [hframes] at hinv
    exact ⟨fun g hg => hinv.frame g (List.mem_cons_of_mem _ hg), hinv.order.of_cons⟩

theorem StackRun.inv (run : StackRun thr s) : StackInv thr s.frames := by
  induction run with
  | start mem => exact ⟨fun f hf => absurd hf List.not_mem_nil, .nil⟩
  | step _ h hop ih => exact apply_inv ih hop h

/-! ### The scan -/

/-- What the scan of the thread pushes. -/
def ThreadStack.scan (vm : Vm) (thr : VmThread) (s : ThreadStack) : List Nat :=
  (({ vm with mem := s.mem } : Vm).pushThreadRoots {} (thr.withFrames s.frames)).elems

/-- A slot that holds a reference by the analysis of its frame.  What lies behind the beginning of
the locals of an interpreted frame is that frame's, or a later one's. -/
def HoldsReference (frames : List PushedFrame) (a : Nat) : Prop :=
  ∃ inner f outer, frames = inner ++ f :: outer ∧ f.isNative = false ∧
    (∀ g ∈ inner, g.isNative = false → a < g.locals) ∧ a ∈ f.references

/-- The fields of a thread are distinct, and none is in a frame; operand stacks end at addresses. -/
structure ThreadApart (thr : VmThread) (frames : List PushedFrame) : Prop where
  distinct : thr.slots.Nodup
  apart : ∀ a ∈ thr.slots, ∀ f ∈ frames, a ∉ f.references
  addresses : ∀ f ∈ frames, f.sp ≤ uintptrMax

/-- The scan pushes the live slots of the thread and the slots of its frames, each once. -/
structure ScanExact (vm : Vm) (thr : VmThread) (s : ThreadStack) : Prop where
  once : (s.scan vm thr).Nodup
  exact : ∀ a, a ∈ s.scan vm thr ↔
    ({ vm with mem := s.mem } : Vm).live a = true ∧ (a ∈ thr.slots ∨ HoldsReference s.frames a)
  handles : ∀ f ∈ s.frames, f.isNative = true → ∀ h ∈ f.argumentHandles, h ≠ thr.nullHandle →
    ({ vm with mem := s.mem } : Vm).live h = true → h ∈ s.scan vm thr

theorem mem_references_iff {base : Nat} {kinds : List TypeKind} :
    a ∈ StackFrame.references base kinds ↔
      ∃ j, kinds[j]? = some .reference ∧ a = base + j * sizeofStackValue := by
  simp only [StackFrame.references, List.mem_map, List.mem_filter, Prod.exists,
    List.mem_zipIdx_iff_getElem?, decide_eq_true_eq]
  constructor
  · rintro ⟨k, j, ⟨hj, rfl⟩, rfl⟩
    exact ⟨j, hj, rfl⟩
  · rintro ⟨j, hj, rfl⟩
    exact ⟨_, j, ⟨hj, rfl⟩, rfl⟩

theorem holdsReference_cons : HoldsReference (f :: frames) a ↔
    (f.isNative = false ∧ a ∈ f.references) ∨
      ((f.isNative = false → a < f.locals) ∧ HoldsReference frames a) := by
  constructor
  · rintro ⟨inner, g, outer, heq, hn, hlt, ha⟩
    rcases inner with _ | ⟨g', inner⟩
    · obtain ⟨rfl, rfl⟩ := List.cons.inj heq
      exact .inl ⟨hn, ha⟩
    · obtain ⟨rfl, rfl⟩ := List.cons.inj heq
      exact .inr ⟨hlt f List.mem_cons_self, inner, g, outer, rfl, hn,
        fun g' hg => hlt g' (List.mem_cons_of_mem _ hg), ha⟩
  · rintro (⟨hn, ha⟩ | ⟨hlt, inner, g, outer, rfl, hn, hlts, ha⟩)
    · exact ⟨[], f, frames, rfl, hn, fun _ hg => absurd hg List.not_mem_nil, ha⟩
    · refine ⟨f :: inner, g, outer, rfl, hn, fun g' hg => ?_, ha⟩
      rcases List.mem_cons.mp hg with rfl | hg
      · exact hlt
      · exact hlts g' hg

theorem StackInv.tail (h : StackInv thr (f :: frames)) : StackInv thr frames :=
  ⟨fun g hg => h.frame g (List.mem_cons_of_mem _ hg), h.order.of_cons⟩

/-- The locals of a frame lie before it. -/
theorem FrameOk.mem_locals (h : FrameOk thr f) (hn : f.isNative = false)
    (ha : a ∈ StackFrame.references f.locals f.stackSummary.locals) : a < f.stack := by
  obtain ⟨-, hlt⟩ := mem_references ha
  obtain ⟨-, -, -, hle⟩ := h.plain hn
  have := Nat.mul_le_mul_right sizeofStackValue (h.locals_length hn)
  simp only [StackFrame.locals, StackFrame.stack] at hlt ⊢
  omega

/-- The slots that the scan goes through are those of the frames, below the bound. -/
theorem mem_stackSlots : ∀ {frames : List PushedFrame} {bound : Nat}, StackInv thr frames →
    (∀ f ∈ frames, f.stack ≤ bound) →
    (a ∈ stackSlots bound (frames.map (·.toStackFrame)) ↔ a < bound ∧ HoldsReference frames a)
  | [], _, _, _ => by
    simp [stackSlots, HoldsReference]
  | f :: frames, bound, h, hb => by
    have hok := h.frame f List.mem_cons_self
    rw [List.map_cons, stackSlots, holdsReference_cons]
    by_cases hn : f.isNative = true
    · rw [if_pos hn, mem_stackSlots h.tail fun g hg => hb g (List.mem_cons_of_mem _ hg)]
      simp [hn]
    rw [Bool.not_eq_true] at hn
    have hle : ∀ g ∈ frames, g.stack ≤ f.locals := fun g hg => by
      have := (List.pairwise_cons.mp h.order).1 g hg
      rwa [PushedFrame.beginning, hn, if_neg Bool.false_ne_true] at this
    have hbound : f.stack ≤ bound := hb f List.mem_cons_self
    have hlocals : f.locals ≤ f.stack := (Nat.sub_le ..).trans (Nat.le_add_right ..)
    have hlocal : a ∈ StackFrame.references f.locals f.stackSummary.locals → a < bound := fun ha =>
      (hok.mem_locals hn ha).trans_le hbound
    rw [if_neg (by simp [hn])]
    simp only [List.mem_append, List.mem_filter, decide_eq_true_eq, mem_stackSlots h.tail hle, hn,
      PushedFrame.references, true_and, forall_const]
    constructor
    · rintro ((⟨ha, hlt⟩ | ha) | ⟨hlt, ha⟩)
      · exact ⟨hlt, .inl (.inl ha)⟩
      · exact ⟨hlocal ha, .inl (.inr ha)⟩
      · exact ⟨hlt.trans_le (hlocals.trans hbound), .inr ⟨hlt, ha⟩⟩
    · rintro ⟨hlt, (ha | ha) | ⟨hlt', ha⟩⟩
      · exact .inl (.inl ⟨ha, hlt⟩)
      · exact .inl (.inr ha)
      · exact .inr ⟨hlt', ha⟩

/-- A slot of a frame lies before the end of its operand stack. -/
theorem HoldsReference.lt (h : StackInv thr frames) (ha : HoldsReference frames a) :
    ∃ f ∈ frames, a ∈ f.references ∧ a < f.sp := by
  obtain ⟨inner, f, outer, rfl, hn, -, ha⟩ := ha
  have hmem : f ∈ inner ++ f :: outer := by simp
  refine ⟨f, hmem, ha, ?_⟩
  rcases List.mem_append.mp ha with ha | ha
  · exact (mem_references ha).2
  · exact ((h.frame f hmem).mem_locals hn ha).trans_le (Nat.le_add_right ..)

theorem stackSlots_nodup (h : StackInv thr frames) (hsp : ∀ f ∈ frames, f.sp ≤ uintptrMax) :
    (stackSlots uintptrMax (frames.map (·.toStackFrame))).Nodup := by
  have hplain : ∀ g ∈ frames.map (·.toStackFrame), g.isNative = false →
      g.numLocals * sizeofStackValue ≤ g.addr ∧ 0 ≤ g.locals ∧
      g.stack + g.stackSummary.stack.length * sizeofStackValue ≤ uintptrMax ∧
      g.stackSummary.locals.length ≤ g.numLocals := fun g hg hn => by
    obtain ⟨f, hf, rfl⟩ := List.mem_map.mp hg
    obtain ⟨-, -, -, hle⟩ := (h.frame f hf).plain hn
    exact ⟨hle, Nat.zero_le _, hsp f hf, (h.frame f hf).locals_length hn⟩
  refine (stackSlots_spec hplain (fun g hg => ?_) ?_).1
  · obtain ⟨hg, hn⟩ := List.mem_filter.mp hg
    exact (Nat.le_add_right ..).trans (hplain g hg (by simpa using hn)).2.2.1
  · rw [List.filter_map, List.pairwise_map]
    refine ((h.order.filter _).imp_of_mem fun {callee caller} hcallee _ hle => ?_)
    have hn : callee.isNative = false := by simpa using (List.mem_filter.mp hcallee).2
    rwa [PushedFrame.beginning, hn, if_neg Bool.false_ne_true] at hle

theorem scan_eq : s.scan vm thr = (([thr.threadObj, thr.currentException] ++
    stackSlots uintptrMax (s.frames.map (·.toStackFrame)) ++ thr.handles ++
      [thr.outOfMemError, thr.stackOverflowError]).filter
    ({ vm with mem := s.mem } : Vm).live) := by
  have hgrown : StbVec.Grown {} := rfl
  rw [ThreadStack.scan, pushThreadRoots_eq, pushRoots_eq]
  exact (foldl_arrput _ hgrown).1.trans (List.nil_append _)

theorem scanExact (run : StackRun thr s) (hapart : ThreadApart thr s.frames) :
    ScanExact vm thr s := by
  have hinv := run.inv
  have hmem : ∀ a, a ∈ stackSlots uintptrMax (s.frames.map (·.toStackFrame)) ↔
      HoldsReference s.frames a := fun a => by
    rw [mem_stackSlots hinv fun f hf => (Nat.le_add_right ..).trans (hapart.addresses f hf)]
    refine and_iff_right_of_imp fun ha => ?_
    obtain ⟨f, hf, -, hlt⟩ := ha.lt hinv
    exact hlt.trans_le (hapart.addresses f hf)
  have hexact : ∀ a, a ∈ s.scan vm thr ↔ ({ vm with mem := s.mem } : Vm).live a = true ∧
      (a ∈ thr.slots ∨ HoldsReference s.frames a) := fun a => by
    rw [scan_eq, List.mem_filter, and_comm, ← hmem]
    simp only [VmThread.slots, List.mem_append, List.mem_cons, List.not_mem_nil, or_false]
    tauto
  refine ⟨?_, hexact, fun f hf hn h hh hne hl => ?_⟩
  · have hperm : ([thr.threadObj, thr.currentException] ++
        stackSlots uintptrMax (s.frames.map (·.toStackFrame)) ++ thr.handles ++
        [thr.outOfMemError, thr.stackOverflowError]).Perm
        (thr.slots ++ stackSlots uintptrMax (s.frames.map (·.toStackFrame))) := by
      rw [List.perm_iff_count]
      intro x
      simp only [VmThread.slots, List.count_append, List.count_cons, List.count_nil]
      omega
    rw [scan_eq]
    refine List.Nodup.filter _ (hperm.nodup_iff.mpr (List.nodup_append.mpr
      ⟨hapart.distinct, stackSlots_nodup hinv hapart.addresses, ?_⟩))
    rintro x hx y hy rfl
    obtain ⟨f, hf, hx', -⟩ := ((hmem x).mp hy).lt hinv
    exact hapart.apart x hx f hf hx'
  · have hin := ((hinv.frame f hf).native hn).2 h hh hne
    exact (hexact h).mpr ⟨hl, .inl (by simp [VmThread.slots, hin])⟩

/-- The scan, with the arguments of the native frames that interpreted ones have called. -/
structure ScanRight (vm : Vm) (thr : VmThread) (s : ThreadStack) : Prop extends
    ScanExact vm thr s where
  operands : ∀ inner f caller outer, s.frames = inner ++ f :: caller :: outer →
    f.isNative = true → caller.isNative = false → f.CalledBy caller → ∀ a ∈ f.argumentSlots,
    ({ vm with mem := s.mem } : Vm).live a = true → a ∈ s.scan vm thr

theorem argumentKinds_length : (callee.argumentKinds shape).length = callee.argc shape := by
  rw [Callee.argumentKinds, Callee.argc]
  split_ifs <;> simp

/-- The arguments of a called frame are slots of its caller. -/
theorem PushedFrame.CalledBy.holdsReference {inner outer : List PushedFrame}
    (h : StackInv thr (inner ++ f :: caller :: outer)) (hf : f.isNative = true)
    (hn : caller.isNative = false) (hcall : f.CalledBy caller) (ha : a ∈ f.argumentSlots) :
    HoldsReference (inner ++ f :: caller :: outer) a := by
  have hok : FrameOk thr f := h.frame f (by simp)
  obtain ⟨rest, hrest⟩ := (h.frame caller (by simp)).operands hn hcall.1
  rw [List.reverse_reverse] at hrest
  obtain ⟨j, hj, rfl⟩ := mem_references_iff.mp ha
  have hbegin : f.beginning = caller.stack + rest.length * sizeofStackValue := by
    have hsp := hcall.2
    rw [PushedFrame.sp, hrest, List.length_append, argumentKinds_length, Nat.add_mul,
      ← Nat.add_assoc] at hsp
    exact (Nat.add_right_cancel hsp).symm
  refine ⟨inner ++ [f], caller, outer, by simp, hn, fun g hg hgn => ?_, ?_⟩
  · rcases List.mem_append.mp hg with hg | hg
    · -- the frames that the native one has called begin behind it
      have hle : f.stack ≤ g.locals := by
        have := (List.pairwise_append.mp h.order).2.2 g hg f List.mem_cons_self
        rwa [PushedFrame.beginning, hgn, if_neg Bool.false_ne_true] at this
      have hlt := (mem_references ha).2
      rw [argumentKinds_length] at hlt
      have haddr := (hok.native hf).1
      simp only [StackFrame.stack, sizeofStackValue] at hle hlt haddr ⊢
      omega
    · rw [List.mem_singleton.mp hg, hf] at hgn
      cases hgn
  · refine List.mem_append_left _ (mem_references_iff.mpr ⟨rest.length + j, ?_, ?_⟩)
    · rw [hrest, List.getElem?_append_right (Nat.le_add_right ..), Nat.add_sub_cancel_left, hj]
    · rw [hbegin, Nat.add_mul, ← Nat.add_assoc]

/-- In every run, the scan of a thread pushes each live slot of its frames once and nothing dead;
the arguments of a native frame are among them by their handles, and as the operands of the
interpreted frame that called it. -/
theorem scan_right (run : StackRun thr s) (hapart : ThreadApart thr s.frames) :
    ScanRight vm thr s where
  toScanExact := scanExact run hapart
  operands _ _ _ _ hframes hf hn hcall a ha hl :=
    ((scanExact run hapart).exact a).mpr ⟨hl, .inr (hframes ▸
      hcall.holdsReference (hframes ▸ run.inv) hf hn ha)⟩

/-- `static void main(Object o) { take(o); }` -/
def callingMethod : BJvm.CpMethod where
  isStatic := true
  descriptor := { args := [{ baseKind := .reference }], returnType := { baseKind := .void } }
  code :=
    { maxStack := 1
      maxLocals := 1
      code :=
        [{ kind := .aload, originalPc := 0, index := 0 },
          { kind := .invokestatic, originalPc := 1
            descriptor :=
              { args := [{ baseKind := .reference }], returnType := { baseKind := .void } } },
          { kind := .return_, originalPc := 4 }] }

def callingAnalysis : MethodAnalysis where
  code :=
    [{ kind := .aload, tosAfter := .int, originalPc := 0, index := 0, delta := 1 },
      { kind := .invokestatic, tosBefore := .int, originalPc := 1
        descriptor :=
          { args := [{ baseKind := .reference }], returnType := { baseKind := .void } } },
      { kind := .return_, originalPc := 4 }]
  insnIndexToSd := [0, 1, 0]
  stackStates :=
    [{ stack := [], locals := [.reference] }, { stack := [.reference], locals := [.reference] },
      { stack := [], locals := [.reference] }]

def callingCallee : Callee where
  isNative := false
  method := callingMethod
  analysis := callingAnalysis
  analyzed _ := ⟨2, by decide⟩

/-- A native method with the same descriptor. -/
def takingCallee : Callee where
  isNative := true
  method := { callingMethod with code := { maxStack := 0, maxLocals := 0, code := [] } }
  analyzed h := (by cases h)

/-- A thread with two handles. -/
def sampleThread : VmThread where
  frameBuffer := 1000
  frameBufferEnd := 4000
  outOfMemError := 72
  stackOverflowError := 80
  currentException := 88
  threadObj := 96
  putativeSystemCl := 104
  handles := [120, 128]
  nullHandle := 112

/-- The heap of the samples. -/
def sampleVm : Vm where
  mem _ := 0
  heap := 65536
  heapCapacity := 4096
  referencePendingList := 48
  mainThreadGroup := 56

/-- An interpreted frame has called the native method with an object, which is in the slots 1000 and
1048 and in the first handle. -/
theorem callingStack_right : ∃ s, StackRun sampleThread s ∧ ScanRight sampleVm sampleThread s ∧
    s.scan sampleVm sampleThread = [1048, 1000, 120] := by
  obtain ⟨s₁, h₁⟩ : ∃ s₁, ThreadStack.apply sampleThread { mem := fun _ => 0 }
    (.callInterpreter callingCallee [65536]) = some s₁ := ⟨_, rfl⟩
  obtain ⟨s₂, h₂⟩ : ∃ s₂, s₁.apply sampleThread (.goto 1) = some s₂ := by
    cases h₁
    exact ⟨_, rfl⟩
  obtain ⟨s₃, h₃⟩ : ∃ s₃, s₂.apply sampleThread (.write (update s₂.mem 1048 65536)) = some s₃ :=
    ⟨_, rfl⟩
  obtain ⟨s₄, h₄⟩ : ∃ s₄, s₃.apply sampleThread
      (.invoke takingCallee callingMethod.descriptor 0) = some s₄ := by
    cases h₁
    cases h₂
    cases h₃
    exact ⟨_, rfl⟩
  have run₃ : StackRun sampleThread s₃ :=
    .step (.step (.step (.start _) h₁ rfl) h₂ trivial) h₃ trivial
  have run₄ : StackRun sampleThread s₄ := by
    refine .step run₃ h₄ ⟨?_, fun h => (by cases h)⟩
    cases h₁
    cases h₂
    cases h₃
    exact ⟨_, rfl, [.reference], ⟨by decide, [], rfl⟩, rfl⟩
  have hapart : ThreadApart sampleThread s₄.frames := by
    cases h₁
    cases h₂
    cases h₃
    cases h₄
    exact ⟨by decide, by decide, by decide⟩
  refine ⟨s₄, run₄, scan_right run₄ hapart, ?_⟩
  cases h₁
  cases h₂
  cases h₃
  cases h₄
  decide

/-- All arguments of native frames, wherever they were passed. -/
structure ScanArguments (vm : Vm) (thr : VmThread) (s : ThreadStack) : Prop extends
    ScanExact vm thr s where
  arguments : ∀ f ∈ s.frames, f.isNative = true → ∀ a ∈ f.argumentSlots,
    ({ vm with mem := s.mem } : Vm).live a = true → a ∈ s.scan vm thr

/-- A native method calls another with an object.  The copy of the argument in the slot 1120 is not
pushed; the second handle holds the object. -/
theorem nativeCall_notPushed : ∃ s, StackRun sampleThread s ∧ ThreadApart sampleThread s.frames ∧
    s.mem 1120 = 65600 ∧ s.scan sampleVm sampleThread = [120, 128] ∧
    ¬ ScanArguments sampleVm sampleThread s := by
  obtain ⟨s₁, h₁⟩ : ∃ s₁, ThreadStack.apply sampleThread { mem := fun _ => 0 }
    (.callInterpreter takingCallee [65536]) = some s₁ := ⟨_, rfl⟩
  obtain ⟨s₂, h₂⟩ : ∃ s₂, s₁.apply sampleThread (.callInterpreter takingCallee [65600]) = some s₂ := by
    cases h₁
    exact ⟨_, rfl⟩
  have run₂ : StackRun sampleThread s₂ := .step (.step (.start _) h₁ rfl) h₂ rfl
  cases h₁
  cases h₂
  refine ⟨_, run₂, ⟨by decide, by decide, by decide⟩, by decide, by decide, fun h => ?_⟩
  have hmem := h.arguments _ List.mem_cons_self rfl 1120 (by decide) (by decide)
  exact absurd hmem (by decide)

end BJvm.Gc
