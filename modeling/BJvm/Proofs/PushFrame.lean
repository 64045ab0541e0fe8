import BJvm.Gc.PushFrame
import BJvm.Proofs.CallStack
import Mathlib.Order.Interval.Set.LinearOrder

/-!
# Pushing a frame is safe

The header and the stack of a new frame are checked against the end of the buffer, and its arguments
begin in or behind the stack of the frame below (`FrameRun.laid`).  Nothing that frame holds is behind
the arguments (`held_lt`), so the two have nothing else in common.
-/

namespace BJvm.Gc

open StackFrame
open Function (update)

variable {thr : VmThread} {raise : PushError → ThreadStack → Nat → Nat} {s s' : ThreadStack}
  {frames : List PushedFrame} {f below : PushedFrame} {callee : Callee} {shape : MethodDescriptor}
  {args argc : Nat} {op : StackOp} {result : PushResult}

/-! ### Counting -/

theorem u8_le (n : Nat) : u8 n ≤ n := Nat.mod_le ..

theorem u8_eq {n : Nat} (h : n < 2 ^ 8) : u8 n = n := Nat.mod_eq_of_lt h

theorem makeHandlesArray_length : ∀ {kinds : List TypeKind} {arg : Nat} {mem mem' : Nat → Nat}
    {values : List Nat}, thr.makeHandlesArray kinds arg mem = some (values, mem') →
    values.length = kinds.length
  | [], _, _, _, _, h => by
    obtain ⟨rfl, -⟩ := Prod.mk.inj (Option.some.inj h)
    rfl
  | kind :: kinds, arg, mem, mem', values, h => by
    rw [VmThread.makeHandlesArray, Option.bind_eq_bind] at h
    obtain ⟨⟨value, mem₁⟩, -, h⟩ := Option.bind_eq_some_iff.mp h
    obtain ⟨⟨rest, mem₂⟩, hrest, h⟩ := Option.bind_eq_some_iff.mp h
    obtain ⟨rfl, -⟩ := Prod.mk.inj (Option.some.inj h)
    rw [List.length_cons, List.length_cons, makeHandlesArray_length hrest]

theorem countedKinds_eq (h : callee.argc shape < 2 ^ 8) :
    callee.countedKinds shape = callee.argumentKinds shape := by
  have hle : shape.args.length ≤ callee.argc shape := Nat.le_add_right ..
  rw [Callee.countedKinds, Callee.argumentKinds, u8_eq (hle.trans_lt h), List.take_length]

/-! ### One push -/

/-- What the new frame takes up begins with the arguments, or behind them. -/
theorem pushSafe_of_pushed (hf : result.stack.frames = f :: s.frames) (hcallee : f.callee = callee)
    (hstart : thr.frameBuffer ≤ op.args thr s) (hlocals : op.args thr s ≤ f.locals)
    (hend : (if f.isNative then f.stack else f.stackEnd) ≤ thr.frameBufferEnd)
    (hheld : ∀ below ∈ s.frames.head?, ∀ x ∈ below.held,
      x < op.args thr s + callee.argc shape * sizeofStackValue)
    (hargs : f.isNative = true → callee.argc shape < 2 ^ 8 → f.args.length = f.numLocals)
    (hraised : result.raised = none) : PushSafe thr s op callee shape result := by
  refine ⟨fun exc hexc => ?_, fun _ => ⟨f, hf, hcallee, ?_, fun below hb x hx => ?_, hargs⟩⟩
  · rw [hraised] at hexc
    cases hexc
  · exact Set.Ico_subset_Ico (hstart.trans hlocals) hend
  · exact ⟨hlocals.trans hx.1.1, hheld below hb x hx.2⟩

theorem pushSafe_of_raised {exc : PushError} (hr : result = VmThread.raised raise s' exc)
    (hs : s'.frames = s.frames) (hexc : exc = .stackOverflowError ∨ callee.hasBody = false ∧
      exc = if callee.isNative then .unsatisfiedLinkError else .abstractMethodError) :
    PushSafe thr s op callee shape result := by
  subst hr
  refine ⟨fun e he => ?_, fun h => by cases h⟩
  obtain rfl := Option.some.inj he
  exact ⟨hs, hexc⟩

theorem raisingPush_safe (hs : s'.frames = s.frames)
    (hstart : thr.frameBuffer ≤ op.args thr s)
    (hheld : ∀ below ∈ s.frames.head?, ∀ x ∈ below.held,
      x < op.args thr s + callee.argc shape * sizeofStackValue)
    (h : thr.raisingPush raise s' callee shape (op.args thr s) (u8 (callee.argc shape)) =
      some result) : PushSafe thr s op callee shape result := by
  rw [VmThread.raisingPush] at h
  split_ifs at h with hn
  · rw [VmThread.raisingPushNative] at h
    split_ifs at h with hbody hroom
    · exact pushSafe_of_raised (Option.some.inj h).symm hs (.inl rfl)
    · obtain ⟨⟨values, mem⟩, hvalues, rfl⟩ := Option.map_eq_some_iff.mp h
      refine pushSafe_of_pushed (congrArg _ hs) rfl hstart ?_ (not_lt.mp hroom) hheld (fun _ h8 => ?_)
        rfl
      · rw [StackFrame.locals, Nat.add_sub_cancel]
        exact Nat.le_add_right ..
      · rw [makeHandlesArray_length hvalues, countedKinds_eq h8, argumentKinds_length, u8_eq h8]
    · refine pushSafe_of_raised (Option.some.inj h).symm hs (.inr ⟨by simpa using hbody, ?_⟩)
      rw [if_pos hn]
  · obtain rfl := Option.some.inj h
    rw [VmThread.raisingPushPlain]
    split_ifs with hbody hroom
    · exact pushSafe_of_raised rfl hs (.inl rfl)
    · refine pushSafe_of_pushed (congrArg _ hs) rfl hstart ?_ ?_ hheld (fun hp => by cases hp) rfl
      · rw [StackFrame.locals, Nat.add_sub_cancel]
      · rw [if_neg Bool.false_ne_true, PushedFrame.stackEnd, StackFrame.stack, Nat.add_assoc]
        exact not_lt.mp hroom
    · refine pushSafe_of_raised rfl hs (.inr ⟨by simpa using hbody, ?_⟩)
      rw [if_neg hn]

/-! ### Runs -/

/-- The stacks of a thread, also behind pushes that have raised exceptions. -/
inductive FrameRun (thr : VmThread) (raise : PushError → ThreadStack → Nat → Nat) :
    ThreadStack → Prop
  | start (mem : Nat → Nat) : FrameRun thr raise { mem }
  | push {s : ThreadStack} {op : StackOp} {result : PushResult} : FrameRun thr raise s →
      op.Allowed s → s.push thr raise op = some result → FrameRun thr raise result.stack
  | other {s s' : ThreadStack} {op : StackOp} : FrameRun thr raise s → op.call = none →
      s.apply thr op = some s' → FrameRun thr raise s'

/-- A frame lies in the buffer, and a native one has room for its data. -/
structure Laid (thr : VmThread) (f : PushedFrame) : Prop where
  start : thr.frameBuffer ≤ f.addr
  analyzed : f.isNative = false → f.Analyzed
  data : f.isNative = true → sizeofNativeFrameData ≤ f.maxStack * sizeofStackValue

theorem le_nextFrameStart (hlaid : ∀ f ∈ s.frames, Laid thr f) :
    thr.frameBuffer ≤ thr.nextFrameStart s.frames := by
  rcases hframes : s.frames with _ | ⟨top, frames⟩
  · exact le_rfl
  · have htop := (hlaid top (by simp [hframes])).start
    exact htop.trans ((Nat.le_add_right ..).trans (Nat.le_add_right ..))

/-- The operands are on the stack, so the arguments begin there. -/
theorem stack_le_args {extra : Nat} {pops : List TypeKind} (h : f.Analyzed) (hpops : f.Pops pops)
    (hlen : pops.length + extra = callee.argc shape) :
    f.stack ≤ f.sp + extra * sizeofStackValue - u8 (callee.argc shape) * sizeofStackValue := by
  obtain ⟨rest, hrest⟩ := h.operands hpops
  have hle := u8_le (callee.argc shape)
  rw [PushedFrame.sp, hrest, List.length_append, List.length_reverse]
  simp only [sizeofStackValue]
  omega

theorem held_lt_sp {x : Nat} (hn : f.isNative = false) (hx : x ∈ f.held) : x < f.sp := by
  rw [PushedFrame.held, PushedFrame.nativeData, hn] at hx
  simpa using (hx.resolve_right (Set.notMem_empty x)).2.trans_le (min_le_left ..)

theorem held_lt_next {x : Nat} (h : Laid thr f) (hx : x ∈ f.held) :
    x < f.addr + sizeofStackFrame + f.maxStack * sizeofStackValue := by
  rw [PushedFrame.held, PushedFrame.nativeData] at hx
  cases hn : f.isNative <;> rw [hn] at hx
  · exact (hx.resolve_right (Set.notMem_empty x)).2.trans_le (min_le_right ..)
  · rcases hx with hx | hx
    · exact hx.2.trans_le (Nat.le_add_right ..)
    · exact hx.2.trans_le (Nat.add_le_add_left (h.data hn) _)

theorem raisingPush_laid (hlaid : ∀ f ∈ s.frames, Laid thr f) (hstart : thr.frameBuffer ≤ args)
    (h : thr.raisingPush raise s callee shape args argc = some result) :
    ∀ f ∈ result.stack.frames, Laid thr f := by
  have haddr : ∀ n m, thr.frameBuffer ≤ args + n + m := fun n m =>
    hstart.trans ((Nat.le_add_right ..).trans (Nat.le_add_right ..))
  rw [VmThread.raisingPush] at h
  split_ifs at h with hn
  · rw [VmThread.raisingPushNative] at h
    split_ifs at h with hbody hroom
    · obtain rfl := Option.some.inj h
      exact hlaid
    · obtain ⟨⟨values, mem⟩, -, rfl⟩ := Option.map_eq_some_iff.mp h
      refine List.forall_mem_cons.mpr ⟨⟨haddr _ _, fun hp => (by cases hp), fun _ => ?_⟩, hlaid⟩
      exact (by decide : sizeofNativeFrameData ≤ 8 * sizeofStackValue)
    · obtain rfl := Option.some.inj h
      exact hlaid
  · obtain rfl := Option.some.inj h
    rw [VmThread.raisingPushPlain]
    split_ifs with hbody hroom
    · exact hlaid
    · exact List.forall_mem_cons.mpr ⟨⟨haddr _ 0, fun _ => ⟨by simpa using hn, rfl⟩,
        fun hp => (by cases hp)⟩, hlaid⟩
    · exact hlaid

/-- A push is safe where the frames lie in the buffer. -/
theorem push_safe_of_laid (hlaid : ∀ f ∈ s.frames, Laid thr f) (hop : op.Allowed s)
    (hcall : op.call = some (callee, shape)) (h : s.push thr raise op = some result) :
    PushSafe thr s op callee shape result ∧ thr.frameBuffer ≤ op.args thr s := by
  cases op with
  | invoke callee' shape' extra =>
    obtain ⟨rfl, rfl⟩ := Prod.mk.inj (Option.some.inj hcall)
    obtain ⟨top, frames, pops, hframes, hpops, hlen⟩ := frames_of_invoke hop
    have hok : Laid thr top := hlaid top (by simp [hframes])
    simp only [ThreadStack.push, hframes] at h
    split_ifs at h with hn
    rw [Bool.not_eq_true] at hn
    have hargs : (StackOp.invoke callee' shape' extra).args thr s = top.sp +
        extra * sizeofStackValue - u8 (callee'.argc shape') * sizeofStackValue := by
      simp [StackOp.args, hframes]
    have hstack := stack_le_args (hok.analyzed hn) hpops hlen
    have hstart : thr.frameBuffer ≤ (StackOp.invoke callee' shape' extra).args thr s := by
      rw [hargs]
      exact hok.start.trans ((Nat.le_add_right ..).trans hstack)
    refine ⟨raisingPush_safe rfl hstart (fun below hb x hx => ?_) h, hstart⟩
    rw [hframes] at hb
    obtain rfl : top = below := by simpa using hb
    have hlt := held_lt_sp hn hx
    have hle := u8_le (callee'.argc shape')
    rw [hargs]
    simp only [sizeofStackValue]
    omega
  | callInterpreter callee' args =>
    obtain ⟨rfl, rfl⟩ := Prod.mk.inj (Option.some.inj hcall)
    have hstart : thr.frameBuffer ≤ (StackOp.callInterpreter callee' args).args thr s :=
      le_nextFrameStart hlaid
    refine ⟨?_, hstart⟩
    simp only [ThreadStack.push] at h
    split_ifs at h with hroom
    · exact pushSafe_of_raised (Option.some.inj h).symm rfl (.inl rfl)
    · have hframes' : ({ s with mem := VmThread.storeArgs s.mem (StackOp.args thr s
          (.callInterpreter callee' args)) (args.take (u8 (callee'.argc callee'.method.descriptor))) } :
            ThreadStack).frames = s.frames := rfl
      refine raisingPush_safe hframes' hstart (fun below hb x hx => ?_) h
      rcases hframes : s.frames with _ | ⟨top, frames⟩
      · simp [hframes] at hb
      rw [hframes] at hb
      obtain rfl : top = below := by simpa using hb
      have hlt := held_lt_next (hlaid top (by simp [hframes])) hx
      rw [StackOp.args, hframes]
      · exact hlt.trans_le (Nat.le_add_right ..)
      · exact fun _ _ _ h => by cases h
  | goto | write | pop => cases hcall

theorem push_laid (hlaid : ∀ f ∈ s.frames, Laid thr f) (hstart : thr.frameBuffer ≤ op.args thr s)
    (h : s.push thr raise op = some result) : ∀ f ∈ result.stack.frames, Laid thr f := by
  cases op with
  | invoke callee shape extra =>
    simp only [ThreadStack.push] at h
    split at h
    · cases h
    · split_ifs at h
      exact raisingPush_laid hlaid hstart h
  | callInterpreter callee args =>
    simp only [ThreadStack.push] at h
    split_ifs at h
    · obtain rfl := Option.some.inj h
      exact hlaid
    · exact raisingPush_laid
        (s := { s with mem := VmThread.storeArgs s.mem (thr.nextFrameStart s.frames) _ }) hlaid hstart h
  | goto | write | pop => cases h

theorem other_laid (hlaid : ∀ f ∈ s.frames, Laid thr f) (hcall : op.call = none)
    (h : s.apply thr op = some s') : ∀ f ∈ s'.frames, Laid thr f := by
  cases op with
  | invoke | callInterpreter => cases hcall
  | goto pc =>
    rcases hframes : s.frames with _ | ⟨top, frames⟩
    · simp [ThreadStack.apply, hframes] at h
    simp only [ThreadStack.apply, hframes] at h
    split_ifs at h
    obtain rfl := Option.some.inj h
    rw [hframes] at hlaid
    obtain ⟨htop, hlaid⟩ := List.forall_mem_cons.mp hlaid
    exact List.forall_mem_cons.mpr ⟨⟨htop.start, htop.analyzed, htop.data⟩, hlaid⟩
  | write mem =>
    obtain rfl := Option.some.inj h
    exact hlaid
  | pop =>
    rcases hframes : s.frames with _ | ⟨top, frames⟩
    · simp [ThreadStack.apply, hframes] at h
    simp only [ThreadStack.apply, hframes] at h
    obtain rfl := Option.some.inj h
    rw [hframes] at hlaid
    exact (List.forall_mem_cons.mp hlaid).2

theorem call_of_push (h : s.push thr raise op = some result) :
    ∃ callee shape, op.call = some (callee, shape) := by
  cases op with
  | invoke callee shape => exact ⟨callee, shape, rfl⟩
  | callInterpreter callee => exact ⟨callee, _, rfl⟩
  | goto | write | pop => cases h

theorem FrameRun.laid (run : FrameRun thr raise s) : ∀ f ∈ s.frames, Laid thr f := by
  induction run with
  | start mem => exact fun f hf => absurd hf List.not_mem_nil
  | push _ hop h ih =>
    obtain ⟨callee, shape, hcall⟩ := call_of_push h
    exact push_laid ih (push_safe_of_laid ih hop hcall h).2 h
  | other _ hcall h ih => exact other_laid ih hcall h

/-- In every run a push raises an exception with the frames as they were, or puts a frame into the
buffer that has nothing of the one below but the arguments. -/
theorem push_safe (run : FrameRun thr raise s) (hop : op.Allowed s)
    (hcall : op.call = some (callee, shape)) (h : s.push thr raise op = some result) :
    PushSafe thr s op callee shape result :=
  (push_safe_of_laid run.laid hop hcall h).1

/-! ### Native frames -/

/-- The check of a native frame leaves out the data behind its header. -/
theorem nativeData_inside_iff (hn : callee.isNative = true) (hbuffer : thr.frameBuffer ≤ args)
    (h : thr.raisingPush raise s callee shape args argc = some result)
    (hraised : result.raised = none) : (∃ f, result.stack.frames = f :: s.frames ∧
      f.nativeData ⊆ Set.Ico thr.frameBuffer thr.frameBufferEnd) ↔
    args + 2 * argc * sizeofStackValue + sizeofStackFrame + sizeofNativeFrameData ≤
      thr.frameBufferEnd := by
  rw [VmThread.raisingPush, if_pos hn, VmThread.raisingPushNative] at h
  split_ifs at h with hbody hroom
  · obtain rfl := Option.some.inj h
    cases hraised
  · obtain ⟨⟨values, mem⟩, -, rfl⟩ := Option.map_eq_some_iff.mp h
    have haddr : args + argc * sizeofStackValue + argc * sizeofStackValue =
        args + 2 * argc * sizeofStackValue := by
      simp only [sizeofStackValue]
      omega
    have hstart : thr.frameBuffer ≤ args + 2 * argc * sizeofStackValue + sizeofStackFrame :=
      hbuffer.trans ((Nat.le_add_right ..).trans (Nat.le_add_right ..))
    have hdata : ∀ stack, (Set.Ico stack (stack + sizeofNativeFrameData) ⊆
        Set.Ico thr.frameBuffer thr.frameBufferEnd) ↔
        thr.frameBuffer ≤ stack ∧ stack + sizeofNativeFrameData ≤ thr.frameBufferEnd := fun stack =>
      Set.Ico_subset_Ico_iff (Nat.lt_add_of_pos_right (by decide))
    constructor
    · rintro ⟨f, hf, hsub⟩
      obtain ⟨rfl, -⟩ := List.cons.inj hf
      rw [PushedFrame.nativeData, if_pos rfl, hdata, StackFrame.stack, haddr] at hsub
      exact hsub.2
    · intro hle
      refine ⟨_, rfl, ?_⟩
      rw [PushedFrame.nativeData, if_pos rfl, hdata, StackFrame.stack, haddr]
      exact ⟨hstart, hle⟩
  · obtain rfl := Option.some.inj h
    cases hraised

/-! ### The collector's view -/

/-- The stack behind a push that has raised no exception. -/
def PushResult.pushed? (result : PushResult) : Option ThreadStack :=
  if result.raised = none then some result.stack else none

theorem pushFrame_eq (hargc : callee.argc shape < 2 ^ 8) : thr.pushFrame s callee shape args =
    (thr.raisingPush raise s callee shape args (callee.argc shape)).bind PushResult.pushed? := by
  rw [VmThread.pushFrame, VmThread.raisingPush]
  split_ifs with hn
  · rw [VmThread.pushNativeFrame, VmThread.raisingPushNative, countedKinds_eq hargc]
    split_ifs with h1 h2 h3 h3 h4
    · simp only [Bool.and_eq_true, decide_eq_true_eq] at h1
      exact absurd h1.2 (not_le.mpr h3)
    · cases thr.makeHandlesArray (callee.argumentKinds shape) args s.mem <;> rfl
    · exact absurd (Bool.and_eq_true _ _ ▸ h1).1 h2
    · rfl
    · simp only [Bool.and_eq_true, decide_eq_true_eq, not_and] at h1
      exact absurd (not_lt.mp h4) (h1 h3)
    · rfl
  · rw [VmThread.pushPlainFrame, VmThread.raisingPushPlain, Option.bind_some]
    split_ifs with h1 h2 h3 h3 h4
    · simp only [Bool.and_eq_true, decide_eq_true_eq] at h1
      exact absurd h1.2 (not_le.mpr h3)
    · rfl
    · exact absurd (Bool.and_eq_true _ _ ▸ h1).1 h2
    · rfl
    · simp only [Bool.and_eq_true, decide_eq_true_eq, not_and] at h1
      exact absurd (not_lt.mp h4) (h1 h3)
    · rfl

theorem push_callInterpreter {args : List Nat}
    (hlength : args.length = callee.argc callee.method.descriptor) (hargc : args.length < 2 ^ 8) :
    s.push thr raise (.callInterpreter callee args) =
      if thr.nextFrameStart s.frames + args.length * sizeofStackValue ≤ thr.frameBufferEnd then
        thr.raisingPush raise
          { s with mem := VmThread.storeArgs s.mem (thr.nextFrameStart s.frames) args } callee
          callee.method.descriptor (thr.nextFrameStart s.frames) args.length
      else some (VmThread.raised raise s .stackOverflowError) := by
  simp only [ThreadStack.push, ← hlength, u8_eq hargc, List.take_length, ← not_le, ite_not]
  rfl

/-- Where a `u8` counts the arguments, what the collector sees of a push is the stack behind it. -/
theorem apply_eq_push (hop : op.Allowed s) (hcall : op.call = some (callee, shape))
    (hargc : callee.argc shape < 2 ^ 8) :
    s.apply thr op = (s.push thr raise op).bind PushResult.pushed? := by
  cases op with
  | invoke callee' shape' extra =>
    obtain ⟨rfl, rfl⟩ := Prod.mk.inj (Option.some.inj hcall)
    obtain ⟨top, frames, pops, hframes, hpops, hlen⟩ := frames_of_invoke hop
    simp only [ThreadStack.apply, ThreadStack.push, hframes]
    split_ifs with hn
    · rfl
    · rw [pushFrame_eq hargc, u8_eq hargc]
      congr 2
      simp only [StackOp.args, hframes, List.head?_cons, Option.map_some, Option.getD_some,
        u8_eq hargc, sizeofStackValue]
      omega
  | callInterpreter callee' args =>
    obtain ⟨rfl, rfl⟩ := Prod.mk.inj (Option.some.inj hcall)
    have hlength : args.length = callee'.argc callee'.method.descriptor := hop
    rw [push_callInterpreter hlength (hlength ▸ hargc), ThreadStack.apply]
    by_cases hroom : thr.nextFrameStart s.frames + args.length * sizeofStackValue ≤
        thr.frameBufferEnd
    · rw [if_pos hroom, if_pos hroom, pushFrame_eq hargc, hlength]
    · rw [if_neg hroom, if_neg hroom]
      rfl
  | goto | write | pop => cases hcall

/-! ### Samples -/

/-- `static void main(Object o) { take(o); }`, with more room on the operand stack. -/
def roomyCallee : Callee where
  isNative := false
  method := { callingMethod with code := { callingMethod.code with maxStack := 3 } }
  analysis := callingAnalysis
  analyzed _ := ⟨2, by decide⟩

/-- It has no code. -/
def bodilessCallee : Callee := { roomyCallee with hasBody := false }

/-- Raising an exception writes nothing. -/
def quietRaise : PushError → ThreadStack → Nat → Nat := fun _ s => s.mem

/-- The method calls the native one; the object lies at 65536. -/
def roomyStack : ThreadStack where
  mem := update (VmThread.storeArgs (fun _ => 0) 1000 [65536]) 1048 65536
  frames :=
    [{ isNative := false, addr := 1008, numLocals := 1, programCounter := 1
       stackStates := callingAnalysis.stackStates, maxStack := 3, callee := roomyCallee
       shape := callingMethod.descriptor }]

theorem roomyStack_run : FrameRun sampleThread quietRaise roomyStack := by
  have hallowed : (StackOp.callInterpreter roomyCallee [65536]).Allowed { mem := fun _ => 0 } := rfl
  have hpush : FrameRun sampleThread quietRaise _ := .push (.start fun _ => 0) hallowed rfl
  have hgoto : FrameRun sampleThread quietRaise _ :=
    .other hpush (rfl : (StackOp.goto 1).call = none) rfl
  exact .other hgoto (rfl : (StackOp.write roomyStack.mem).call = none) rfl

theorem roomyStack_allowed :
    (StackOp.invoke takingCallee callingMethod.descriptor 0).Allowed roomyStack :=
  ⟨⟨_, rfl, [.reference], ⟨by decide, [], rfl⟩, rfl⟩, fun h => by cases h⟩

/-- The call of the native method. -/
theorem push_safe_roomyStack : ∃ result,
    roomyStack.push sampleThread quietRaise (.invoke takingCallee callingMethod.descriptor 0) =
      some result ∧
    PushSafe sampleThread roomyStack (.invoke takingCallee callingMethod.descriptor 0) takingCallee
      callingMethod.descriptor result :=
  ⟨_, rfl, push_safe roomyStack_run roomyStack_allowed rfl rfl⟩

/-- A method without code is not pushed for want of code, and the frame of the native method begins
on the operand stack of the caller, where that is free. -/
theorem not_pushSafeInFull :
    (∃ s result, FrameRun sampleThread quietRaise s ∧
      (StackOp.callInterpreter bodilessCallee [65536]).Allowed s ∧
      s.push sampleThread quietRaise (.callInterpreter bodilessCallee [65536]) = some result ∧
      ¬ PushSafeInFull sampleThread s (.callInterpreter bodilessCallee [65536]) bodilessCallee
        callingMethod.descriptor result) ∧
    ∃ s result, FrameRun sampleThread quietRaise s ∧
      (StackOp.invoke takingCallee callingMethod.descriptor 0).Allowed s ∧
      s.push sampleThread quietRaise (.invoke takingCallee callingMethod.descriptor 0) =
        some result ∧
      ¬ PushSafeInFull sampleThread s (.invoke takingCallee callingMethod.descriptor 0) takingCallee
        callingMethod.descriptor result := by
  refine ⟨⟨_, _, .start fun _ => 0, rfl, rfl, fun h => ?_⟩,
    _, _, roomyStack_run, roomyStack_allowed, rfl, fun h => ?_⟩
  · have hexc := (h.raised .abstractMethodError rfl).2
    cases hexc
  · obtain ⟨f, hf, -, hoverlap⟩ := h.pushed rfl
    obtain ⟨rfl, -⟩ := List.cons.inj hf
    have hfree : (1056 : Nat) ∈ argumentBytes 1048 1 := by
      refine hoverlap _ rfl ⟨.inl ?_, .inl ?_⟩
      · exact ⟨by decide, by decide⟩
      · exact ⟨by decide, by decide⟩
    exact absurd hfree.2 (by decide)

end BJvm.Gc
