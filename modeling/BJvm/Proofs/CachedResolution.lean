import BJvm.Proofs.CachedHandlers

/-!
# What resolution and calls leave

An instruction that is resolved, in both interpreters in the same way, is run again with the stack as
it was.  A call takes its arguments from the slots that hold them.
-/

namespace BJvm.Interpreter

open ClassFile StackValue Function

variable {W : Type} {vm : Vm W} {fm : FrameMethod} {P : TypedCode} {m : Machine W} {s s' : Plain W} {tos : Tos}
  {a b v : Value} {vs rest : List Value} {back : Config W → Prop} {pushes : List TypeKind}
  {k : TypeKind}

/-! ### Resolution -/

/-- A jump to the instruction itself, with the operands in memory. -/
theorem sim_againPolymorphic (h : Spilled m s) :
    Sim vm fm back (stackPolymorphicJmp m) (Plain.finish vm fm pushes rest (.again s)) :=
  .polymorphicTo h

/-- A jump to the instruction itself, with the top of the stack in the register. -/
theorem sim_againCached (h : Cached m s v vs) (htos : tos = .fill (reduced v.kind) v.word) :
    Sim vm fm back (.jump m tos) (Plain.finish vm fm pushes rest (.again s)) := by
  intro p hp _
  cases Option.some.inj hp
  exact ⟨_, rfl, .inl (htos ▸ related_cached h)⟩

theorem sim_againInt (h : Spilled m s) (hs : s.stack = v :: vs) (hv : reduced v.kind = .int) :
    Sim vm fm back (jmpInt m (m.stack (m.sp - 1)))
      (Plain.finish vm fm pushes rest (.again s)) := by
  obtain ⟨⟨hv', -⟩, hsp⟩ := h.holds hs
  refine sim_againCached (h.cached hs) ?_
  rw [canonical_of_ne (reduced_eq_int.mp hv).1] at hv'
  rw [hsp, hv, ← hv']
  rfl

theorem tryResolve_static {k : Machine W → Next W}
    (hc : m.insn.code = .parsed .getstatic ∨ m.insn.code = .parsed .putstatic) :
    tryResolve vm m k =
      perform vm (.resolveStatic m.pc) m fun m address => k (m.finishStatic address) := by
  unfold tryResolve resolveInsn perform
  rcases hreq : vm.request (.resolveStatic m.pc) m.heap with ⟨heap, e | v⟩ <;>
    rcases hc with hc | hc <;> simp only [hc, hreq]

theorem tryResolve_field {k : Machine W → Next W} {putfield : Bool}
    (hc : m.insn.code = .parsed (if putfield then .putfield else .getfield)) :
    tryResolve vm m k =
      (if m.stack (m.sp - if putfield then 2 else 1) = 0 then throwExn vm .nullPointer m
        else perform vm (.resolveField m.pc) m fun m offset => k (m.finishField putfield offset)) := by
  unfold tryResolve resolveInsn perform throwExn
  rcases hreq : vm.request (.resolveField m.pc) m.heap with ⟨heap, e | v⟩ <;> cases putfield <;>
    simp only [hc, hreq, Bool.false_eq_true, if_false, if_true] <;> split_ifs <;> rfl

theorem tryResolve_new {k : Machine W → Next W} (hc : m.insn.code = .parsed .new) :
    tryResolve vm m k =
      perform vm (.initializeNew m.pc) m fun m classdesc => k (m.finishNew classdesc) := by
  unfold tryResolve resolveInsn perform
  rcases hreq : vm.request (.initializeNew m.pc) m.heap with ⟨heap, e | v⟩ <;> simp only [hc, hreq]

theorem tryResolve_invokestatic {k : Machine W → Next W} (hc : m.insn.code = .parsed .invokestatic) :
    tryResolve vm m k =
      perform vm (.resolveMethodref m.pc) m fun m method => k (m.finishInvokestatic method) := by
  unfold tryResolve resolveInsn perform
  rcases hreq : vm.request (.resolveMethodref m.pc) m.heap with ⟨heap, e | v⟩ <;> simp only [hc, hreq]

/-- `getstatic` and `putstatic` before their class is initialized. -/
theorem sim_resolveStatic {k : Machine W → Next W} (h : Spilled m s)
    (hc : s.insn.code = .parsed .getstatic ∨ s.insn.code = .parsed .putstatic)
    (hk : ∀ heap v m' s', vm.request (.resolveStatic s.pc) s.heap = (heap, .ok v) →
      Spilled m' s' → s'.insn.code = .resolved
        (if (heap.code s.pc).code = .parsed .putstatic then
          .putstatic (resolvedKind (heap.code s.pc).field.reprKind)
        else .getstatic (resolvedKind (heap.code s.pc).field.reprKind)) →
      Sim vm fm back (k m') (Plain.finish vm fm pushes rest (.again s')))
    (ops : List StackValue) :
    Sim vm fm back (tryResolve vm m.spillVoid k)
      (Plain.finish vm fm pushes rest (resolveStatic vm s ops)) := by
  have hs := h.spillVoid
  rw [tryResolve_static (by rw [hs.insn]; exact hc), hs.pc]
  unfold resolveStatic
  refine .perform hs.toSameFrame rfl fun heap v hreq => ?_
  have hset := hs.setHeap heap
  refine hk heap v _ _ hreq ?_ ?_
  · unfold Machine.finishStatic
    rw [hset.insn]
    exact hset.rewrite _
  · rw [Plain.rewrite_insn]
    rfl

/-- `getfield` and `putfield` before their field is resolved. -/
theorem sim_resolveField {k : Machine W → Next W} {i : Nat} {ops : List StackValue}
    (putfield : Bool) (h : Spilled m s) (hpc : m.programCounter = m.pc)
    (hc : s.insn.code = .parsed (if putfield then .putfield else .getfield))
    (hobj : m.stack (m.sp - if putfield then 2 else 1) = operand ops i)
    (hk : ∀ m' s', Spilled m' s' → s'.stack = s.stack →
      Sim vm fm back (k m') (Plain.finish vm fm pushes rest (.again s'))) :
    Sim vm fm back (tryResolve vm m k)
      (Plain.finish vm fm pushes rest (resolveField vm putfield i s ops)) := by
  rw [tryResolve_field (by rw [h.insn]; exact hc), hobj, h.pc]
  unfold resolveField nonNull
  by_cases hnull : operand ops i = 0
  · rw [if_pos hnull, if_pos hnull]
    exact .throwExn h.toSameFrame hpc
  · rw [if_neg hnull, if_neg hnull]
    refine .perform h.toSameFrame hpc fun heap v _ => hk _ _ ?_ rfl
    exact (h.setHeap heap).rewrite _

/-- `new` before its class is initialized. -/
theorem sim_resolveNew (h : Spilled m s)
    (hnew : ∀ heap v, vm.request (.resolveClass s.pc) s.heap = (heap, .ok v) →
      (heap.code s.pc).code = .parsed .new) (ops : List StackValue) :
    Sim vm fm back (newImplVoid vm m) (Plain.finish vm fm pushes rest (resolveNew vm s ops)) := by
  unfold newImplVoid resolveNew
  rw [h.pc]
  refine .perform h.spillVoid.toSameFrame rfl fun heap v hreq => ?_
  have hset := h.spillVoid.setHeap heap
  have hpc : ({ m.spillVoid with heap } : Machine W).programCounter =
      ({ m.spillVoid with heap } : Machine W).pc := rfl
  generalize ({ m.spillVoid with heap } : Machine W) = m' at hset hpc ⊢
  rw [tryResolve_new (by rw [hset.insn]; exact hnew heap v hreq), hset.pc]
  refine .perform hset.toSameFrame hpc fun heap v _ => .again ?_ ?_
  · exact (hset.setHeap heap).rewrite _
  · rw [Plain.rewrite_insn]
    rfl

/-- `anewarray`, `checkcast` and `instanceof` before their class is resolved: the register is spilled
by the last two only. -/
theorem sim_anewarray (h : Cached m s v vs) (hv : reduced v.kind = .int) (ops : List StackValue) :
    Sim vm fm back (anewarrayImplInt vm m v.word)
      (Plain.finish vm fm pushes rest (resolveClassTo vm .anewarray s ops)) := by
  unfold anewarrayImplInt resolveClassTo
  rw [h.pc]
  refine .perform (m := m.spillVoid) ⟨h.heap, h.locals, h.pc⟩ rfl fun heap v' _ => ?_
  have hset : Cached { m.spillVoid with heap } { s with heap } v vs :=
    ⟨⟨rfl, h.locals, h.pc⟩, h.stack_eq, h.sp, h.below, h.top⟩
  exact sim_againCached (hset.rewrite _) (by rw [hv]; rfl)

theorem sim_resolveCheck {code : ResolvedCode} (h : Cached m s v vs) (hv : reduced v.kind = .int)
    (ops : List StackValue) :
    Sim vm fm back (resolveCheck vm code m v.word)
      (Plain.finish vm fm pushes rest (resolveClassTo vm code s ops)) := by
  have hs := (h.setTop (canonical_of_ne (reduced_eq_int.mp hv).1 v.word)).spillVoid
  unfold resolveCheck resolveClassTo
  rw [h.pc]
  refine .perform hs.toSameFrame rfl fun heap v' _ => ?_
  exact sim_againInt ((hs.setHeap heap).rewrite _) h.stack_eq hv

/-! ### Objects -/

/-- A request with a reference for its answer. -/
theorem sim_performPush {r : Request} (h : Spilled m s) (hpc : m.programCounter = m.pc) :
    Sim vm fm back (perform vm r m fun m obj => nextInt { m with sp := m.sp + 1 } obj)
      (Plain.finish vm fm [.reference] s.stack (ask vm r s .next)) :=
  .perform h.toSameFrame hpc fun heap _ _ =>
    .nextInt (m := { m with heap, sp := m.sp + 1 }) ⟨rfl, h.locals, h.pc⟩ (congrArg (· + 1) h.sp)
      h.all rfl (by decide)

theorem sim_newArray {r : Plain W → BitVec 32 → Request} {m' : Machine W} (h : Cached m s v rest)
    (h' : SameFrame m' s) (hpc : m'.programCounter = m'.pc) (hsp : m'.sp = m.sp)
    (hb : Holds m'.stack rest) :
    Sim vm fm back
      (if v.word.low.slt 0 then throwExn vm (.negativeArraySize v.word.low) m'
        else perform vm (r s v.word.low) m' nextInt)
      (Plain.finish vm fm [.reference] rest (newArray vm r s [v.word])) := by
  change Sim vm fm back _ (Plain.finish vm fm [.reference] rest
    (if v.word.low.slt 0 then raise vm (.negativeArraySize v.word.low) s
      else ask vm (r s v.word.low) s .next))
  split_ifs
  · exact .throwExn h' hpc
  · exact .perform h' hpc fun heap _ _ =>
      .nextInt (k := .reference) (m := { m' with heap }) ⟨rfl, h'.locals, h'.pc⟩ (hsp.trans h.sp) hb
        rfl (by decide)

/-! ### Calls -/

/-- The slots of the arguments, the first of them lowest. -/
def slots (stack : Nat → StackValue) (base n : Nat) : List StackValue :=
  (List.range n).map fun i => stack (base + i)

theorem Holds.slots {stack : Nat → StackValue} : ∀ {vs : List Value}, Holds stack (vs ++ rest) →
    List.Forall₂ (fun x v => canonical v.kind x = v.word)
      (slots stack rest.length vs.length) vs.reverse
  | [], _ => .nil
  | v :: vs, ⟨hv, h⟩ => by
    rw [Interpreter.slots, List.length_cons, List.range_succ, List.map_append, List.reverse_cons]
    refine List.rel_append h.slots (.cons ?_ .nil)
    show canonical v.kind (stack (rest.length + vs.length)) = v.word
    rw [← hv, Nat.add_comm, ← List.length_append]
    rfl

theorem zipWith_canonical {xs : List StackValue} {vs : List Value}
    (h : List.Forall₂ (fun x v => canonical v.kind x = v.word) xs vs) :
    List.zipWith canonical (vs.map (·.kind)) xs =
      List.zipWith canonical (vs.map (·.kind)) (vs.map (·.word)) := by
  induction h with
  | nil => rfl
  | cons hx _ ih => rw [List.map_cons, List.map_cons, List.zipWith_cons_cons,
      List.zipWith_cons_cons, ih, ← hx, canonical_canonical]

theorem map_low {xs : List StackValue} {vs : List Value}
    (h : List.Forall₂ (fun x v => canonical v.kind x = v.word) xs vs) :
    xs.map low = (vs.map (·.word)).map low := by
  induction h with
  | nil => rfl
  | cons hx _ ih => rw [List.map_cons, List.map_cons, List.map_cons, ih, ← hx, low_canonical]

theorem sim_multianewarray {n : Nat} (h : Spilled m s) (hpc : m.programCounter = m.pc)
    (hs : s.stack = vs ++ rest) (hn : vs.length = n) (hpos : 0 < n) :
    Sim vm fm back
      (perform vm (.multianewarray m.pc
          ((List.range n).map fun i => low (m.stack (m.sp - n + i)))) m fun m obj =>
        nextInt { m.write (m.sp - n) obj with sp := m.sp - (n - 1) } obj)
      (Plain.finish vm fm [.reference] rest
        (ask vm (.multianewarray s.pc ((vs.map (·.word)).reverse.map low)) s .next)) := by
  subst hn
  have hall := h.all
  rw [hs] at hall
  have hlen : m.sp = vs.length + rest.length := by rw [h.sp, hs, List.length_append]
  have hsp : m.sp - vs.length = rest.length := by omega
  have hlow := map_low hall.slots
  rw [slots, List.map_map, List.map_reverse] at hlow
  rw [hsp, h.pc, ← hlow]
  refine .perform h.toSameFrame hpc fun heap v _ => ?_
  have hrest : Holds m.stack rest := by simpa using hall.drop vs.length
  refine .nextInt (k := .reference) ⟨rfl, h.locals, h.pc⟩ ?_ ?_ rfl (by decide)
  · show m.sp - (vs.length - 1) = rest.length + 1
    omega
  · show Holds (update m.stack (m.sp - vs.length) v) rest
    exact hrest.write (le_of_eq hsp.symm) v

theorem holds_results {stack : Nat → StackValue} {x : StackValue} (h : Holds stack rest)
    (hp : pushes.length ≤ 1) : Holds (update stack rest.length x) (results pushes x ++ rest) := by
  rcases pushes with _ | ⟨k, _ | ⟨k', pushes⟩⟩
  · exact h.write le_rfl x
  · rw [results, List.filter_cons]
    split_ifs
    · exact ⟨congrArg (canonical k) (update_self ..), h.write le_rfl x⟩
    · exact h.write le_rfl x
  · simp at hp

/-- A call, of a method or of a call site. -/
theorem sim_invoke {argc : Nat} (h : Spilled m s) (hpc : m.programCounter = m.pc)
    (hs : s.stack = vs ++ rest) (hkinds : vs.map (·.kind) = (argKinds s.insn).reverse)
    (hargc : argc = vs.length) (hp : pushes.length ≤ 1) :
    Sim vm fm back (.invoke m argc)
      (Plain.finish vm fm pushes rest (invoke vm s (vs.map (·.word)))) := by
  have hsp : m.sp - argc = rest.length := by rw [h.sp, hs, List.length_append, hargc]; omega
  have hall := h.all
  rw [hs] at hall
  have hargs : List.zipWith canonical (argKinds s.insn)
      ((List.range argc).map fun i => m.stack (m.sp - argc + i)) =
      List.zipWith canonical (argKinds s.insn) (vs.map (·.word)).reverse := by
    rw [← List.reverse_reverse (argKinds s.insn), ← hkinds, ← List.map_reverse, ← List.map_reverse,
      hsp, hargc]
    exact zipWith_canonical hall.slots
  intro p' hp' he
  refine ⟨runCallee vm fm m argc, rfl, .inl ?_⟩
  simp only [invoke, ask] at hp'
  simp only [runCallee, h.insn, hargs, h.heap, hpc, h.pc]
  rcases hreq : vm.request (.call s.pc (List.zipWith canonical (argKinds s.insn)
    (vs.map (·.word)).reverse)) s.heap with ⟨heap, e | v⟩
  · simp only [hreq, Plain.finish, Option.some.injEq] at hp' ⊢
    subst hp'
    exact related_unwind rfl h.locals rfl he
  · simp only [hreq, Plain.finish, Option.some.injEq] at hp' ⊢
    subst hp'
    refine related_begin rfl h.locals rfl ?_ (he _ rfl)
    show Holds (update m.stack (m.sp - argc) _) _
    rw [hsp]
    exact holds_results (by simpa using hall.drop vs.length) hp

/-- The receiver is below the arguments. -/
theorem receiver_eq {argc : Nat} (h : Spilled m s) (hs : s.stack = vs ++ rest)
    (hkinds : vs.map (·.kind) = (argKinds s.insn).reverse)
    (hkind : s.insn.kind ≠ .invokestatic ∧ s.insn.kind ≠ .invokedynamic) (hargc : argc = vs.length) :
    m.receiver argc = operand (vs.map (·.word)) (vs.length - 1) := by
  rw [argKinds, if_neg (by simp [hkind]), List.reverse_cons] at hkinds
  obtain ⟨args, last, rfl, -, hlast⟩ := List.map_eq_append_iff.mp hkinds
  obtain ⟨receiver, rfl⟩ : ∃ receiver, last = [receiver] :=
    List.length_eq_one_iff.mp (by simpa using congrArg List.length hlast)
  have hall := h.all
  rw [hs, List.append_assoc] at hall
  have hbelow := hall.drop args.length
  rw [List.drop_left] at hbelow
  have hkind : receiver.kind = .reference := by simpa using hlast
  have hword := hbelow.1
  rw [hkind, canonical_of_ne (by decide)] at hword
  have hsp : m.sp - argc = rest.length := by
    rw [h.sp, hs, hargc, List.length_append]
    omega
  rw [Machine.receiver, hsp]
  simpa [operand] using hword

theorem rewritten_of_virtual {insn : Insn} (h : insn.WellFormed)
    (hk : insn.kind ∈ [.invokevirtual, .invokeinterface]) : rewritten insn.code := by
  simp only [List.mem_cons, List.not_mem_nil, or_false] at hk
  rcases hc : insn.code with k | r
  · rw [Insn.WellFormed, hc] at h
    rcases h with rfl | ⟨rfl, -⟩ | ⟨rfl, -⟩ | ⟨rfl, -⟩
    · rcases hk with hk | hk <;> rw [hk] <;> rfl
    all_goals rfl
  · rw [Insn.WellFormed, hc] at h
    cases r <;> first | rfl | (rcases hk with hk | hk <;> simp [hk] at h)

/-- What a call of a method with a receiver has of the stack. -/
structure CallOn (m : Machine W) (s : Plain W) (vs rest : List Value) : Prop where
  spilled : Spilled m s
  stack : s.stack = vs ++ rest
  kinds : vs.map (·.kind) = (argKinds s.insn).reverse
  virtual : s.insn.kind ≠ .invokestatic ∧ s.insn.kind ≠ .invokedynamic

namespace CallOn

variable (h : CallOn m s vs rest) (hargc : s.insn.argc = vs.length) (hp : pushes.length ≤ 1)

include h

theorem length : vs.length = s.insn.descriptor.args.length + 1 := by
  have hlen := congrArg List.length h.kinds
  rw [argKinds, if_neg (by simp [h.virtual])] at hlen
  simpa using hlen

include hargc

theorem receiver : m.receiver m.insn.argc = operand (vs.map (·.word)) ((vs.map (·.word)).length - 1) := by
  rw [receiver_eq h.spilled h.stack h.kinds h.virtual (by rw [h.spilled.insn, hargc]), List.length_map]

include hp

theorem invoke (hpc : m.programCounter = m.pc) :
    Sim vm fm back (.invoke m m.insn.argc)
      (Plain.finish vm fm pushes rest (Interpreter.invoke vm s (vs.map (·.word)))) :=
  sim_invoke h.spilled hpc h.stack h.kinds (by rw [h.spilled.insn, hargc]) hp

theorem invokeSpilled :
    Sim vm fm back (.invoke m.spillVoid m.insn.argc)
      (Plain.finish vm fm pushes rest (Interpreter.invoke vm s (vs.map (·.word)))) :=
  sim_invoke h.spilled.spillVoid rfl h.stack h.kinds (by rw [h.spilled.insn, hargc]) hp

/-- `invokespecial`, `invokesigpoly` and the polymorphic `invokevirtual`. -/
theorem invokeOn :
    Sim vm fm back (npeOnNull vm (m.receiver m.insn.argc) m (.invoke m.spillVoid m.insn.argc))
      (Plain.finish vm fm pushes rest
        (Interpreter.invokeOn vm (Interpreter.invoke vm) s (vs.map (·.word)))) := by
  rw [h.receiver hargc]
  exact .npeOnNull h.spilled.toSameFrame fun _ => h.invokeSpilled hargc hp

theorem invokeMonomorphic :
    Sim vm fm back (invokeitableVtableMonomorphicImplVoid vm m)
      (Plain.finish vm fm pushes rest (Interpreter.invokeMonomorphic vm s (vs.map (·.word)))) := by
  have hs := h.spilled.spillVoid
  unfold invokeitableVtableMonomorphicImplVoid Interpreter.invokeMonomorphic Interpreter.invokeOn
  rw [h.receiver hargc]
  refine .npeOnNull h.spilled.toSameFrame fun _ => ?_
  have hinsn : m.spillVoid.insn = s.insn := hs.insn
  have hheap : m.spillVoid.heap = s.heap := hs.heap
  simp only [hinsn, hheap]
  split_ifs
  · exact .again (hs.rewrite _) (by rw [Plain.rewrite_insn]; rfl)
  · exact .again (hs.rewrite _) (by rw [Plain.rewrite_insn]; rfl)
  · exact sim_invoke hs rfl h.stack h.kinds hargc hp

theorem invokeitablePolymorphic :
    Sim vm fm back (invokeitablePolymorphicImplVoid vm m)
      (Plain.finish vm fm pushes rest
        (Interpreter.invokeitablePolymorphic vm s (vs.map (·.word)))) := by
  have hs := h.spilled.spillVoid
  unfold invokeitablePolymorphicImplVoid Interpreter.invokeitablePolymorphic Interpreter.invokeOn
  rw [h.receiver hargc]
  refine .npeOnNull h.spilled.toSameFrame fun _ => ?_
  simp only [h.spilled.insn, h.spilled.heap]
  split_ifs
  · exact .throwExn hs.toSameFrame rfl
  · exact sim_invoke hs rfl h.stack h.kinds hargc hp

omit hargc hp

/-- The common part of the resolution of `invokevirtual`, `invokespecial` and `invokeinterface`. -/
theorem resolveInvoke {k : Machine W → BitVec 64 → BitVec 64 → Next W}
    {k' : Plain W → StackValue → StackValue → Outcome W}
    {code : InsnCode} (hv : vm.Respects P) (hb : Beside P s s) (hlt : s.pc < P.size)
    (hc : s.insn.code = .parsed code)
    (hk : ∀ m' s' receiver method, Spilled m' s' → m'.programCounter = m'.pc → Beside P s s' →
      s'.insn.argc = s'.insn.arity → Sim vm fm back (k m' receiver method) (Plain.finish vm fm pushes rest (k' s' receiver method))) :
    Sim vm fm back (Interpreter.resolveInvoke vm m k)
      (Plain.finish vm fm pushes rest (resolveReceiver vm k' s (vs.map (·.word)))) := by
  have hs := (h.spilled.rewrite fun insn =>
    { insn with argc := insn.descriptor.args.length + 1 }).spillVoid
  have hsame : (m.rewrite fun insn => { insn with argc := s.insn.descriptor.args.length + 1 }) =
      m.rewrite fun insn => { insn with argc := insn.descriptor.args.length + 1 } := by
    simp only [Machine.rewrite, h.spilled.insn]
  have hreceiver : ∀ f, (m.rewrite f).spillVoid.receiver (s.insn.descriptor.args.length + 1) =
      operand (vs.map (·.word)) ((vs.map (·.word)).length - 1) := fun f => by
    rw [List.length_map]
    exact receiver_eq (m := m) h.spilled h.stack h.kinds h.virtual h.length.symm
  unfold Interpreter.resolveInvoke resolveReceiver nonNull
  simp only [h.spilled.insn, hreceiver, hsame]
  by_cases hnull : operand (vs.map (·.word)) ((vs.map (·.word)).length - 1) = 0
  · rw [if_pos hnull, if_pos hnull]
    exact .throwExn hs.toSameFrame rfl
  · rw [if_neg hnull, if_neg hnull]
    have hpc : ∀ f, (m.rewrite f).spillVoid.pc = s.pc := fun _ => h.spilled.pc
    rw [hpc]
    refine .perform hs.toSameFrame rfl fun heap method hreq => ?_
    have hstatic : (P.code s.pc).kind ≠ .invokestatic := hb.kind hlt ▸ h.virtual.1
    obtain ⟨_, rfl, hb', hargc⟩ := receiver_resolved hv hb hlt hstatic hc hreq
    exact hk _ _ _ _ ((hs.setHeap heap).rewrite _) rfl hb' hargc

theorem resolveInvokevirtual (hv : vm.Respects P) (hb : Beside P s s) (hlt : s.pc < P.size)
    (hk : s.insn.kind ∈ [.invokevirtual, .invokeinterface])
    (hc : s.insn.code = .parsed .invokevirtual) :
    Sim vm fm back (invokevirtualImplVoid vm m)
      (Plain.finish vm fm pushes rest (Interpreter.resolveInvokevirtual vm s (vs.map (·.word)))) := by
  refine h.resolveInvoke hv hb hlt hc fun m' s' receiver method hs hpc hb' hargc => ?_
  have hmarked := hs.rewrite markInsnReturns
  have hheap : (m'.rewrite markInsnReturns).heap = (s'.rewrite markInsnReturns).heap := hmarked.heap
  dsimp only
  rw [hheap]
  split_ifs
  · have hpc' : (m'.rewrite markInsnReturns).pc = (s'.rewrite markInsnReturns).pc := hs.pc
    rw [hpc']
    have hsig := hmarked.rewrite fun insn =>
      { insn with code := .resolved .invokesigpoly, ic := method }
    refine .perform hsig.toSameFrame hpc fun heap v hreq =>
      .again ((hsig.setHeap heap).rewrite _) ?_
    have hmarked' : Beside P s (s'.rewrite markInsnReturns) :=
      hb'.rewrite hlt rfl (hb'.wellFormed hlt)
    have hargc' : (s'.rewrite markInsnReturns).insn.argc = (s'.rewrite markInsnReturns).insn.arity := by
      rw [Plain.rewrite_insn]
      exact hargc
    have hsig' := hmarked'.virtual (f := fun insn =>
      { insn with code := .resolved .invokesigpoly, ic := method }) hlt (hb.kind hlt ▸ hk) rfl hargc'
      (by simp)
    have hset := hsig'.setHeap (hv.answer hreq)
    rw [Plain.rewrite_insn]
    exact rewritten_of_virtual (hset.wellFormed hlt) ((hset.kind hlt).trans (hb.kind hlt).symm ▸ hk)
  all_goals exact .again (hmarked.rewrite _) (by rw [Plain.rewrite_insn]; rfl)

theorem resolveInvokespecial (hv : vm.Respects P) (hb : Beside P s s) (hlt : s.pc < P.size)
    (hc : s.insn.code = .parsed .invokespecial) :
    Sim vm fm back (invokespecialImplVoid vm m)
      (Plain.finish vm fm pushes rest (Interpreter.resolveInvokespecial vm s (vs.map (·.word)))) := by
  refine h.resolveInvoke hv hb hlt hc fun m' s' receiver method hs hpc hb' hargc => ?_
  dsimp only
  rw [hs.pc]
  refine .perform hs.toSameFrame hpc fun heap candidate _ => .again ((hs.setHeap heap).rewrite _) ?_
  rw [Plain.rewrite_insn]
  dsimp only [markInsnReturns]
  split_ifs <;> rfl

theorem resolveInvokeinterface (hv : vm.Respects P) (hb : Beside P s s) (hlt : s.pc < P.size)
    (hc : s.insn.code = .parsed .invokeinterface) :
    Sim vm fm back (invokeinterfaceImplVoid vm m)
      (Plain.finish vm fm pushes rest
        (Interpreter.resolveInvokeinterface vm s (vs.map (·.word)))) := by
  refine h.resolveInvoke hv hb hlt hc fun m' s' receiver method hs hpc hb' hargc => ?_
  have hmarked := hs.rewrite markInsnReturns
  have hheap : (m'.rewrite markInsnReturns).heap = (s'.rewrite markInsnReturns).heap := hmarked.heap
  dsimp only
  rw [hheap, hs.heap]
  split_ifs
  · exact .again (hs.rewrite _) (by rw [Plain.rewrite_insn]; rfl)
  · exact .throwExn hmarked.toSameFrame hpc
  all_goals exact .again (hmarked.rewrite _) (by rw [Plain.rewrite_insn]; rfl)

end CallOn

/-- The call of an intrinsic goes on at the intrinsic. -/
theorem sim_intrinsify (h : Spilled m s) (hc : rewritten s.insn.code) :
    Sim vm fm back
      (match intrinsify vm m with
        | some m => stackPolymorphicJmp m
        | none => jmpVoid m)
      (Plain.finish vm fm pushes rest
        (match (vm.methodInfo s.heap s.insn.ic).intrinsic with
          | some code => .again (s.rewrite fun insn => { insn with code := .resolved code })
          | none => .again s)) := by
  unfold intrinsify
  rw [h.insn, h.heap]
  rcases (vm.methodInfo s.heap s.insn.ic).intrinsic with _ | code
  · exact .again h hc
  · exact sim_againPolymorphic (h.rewrite _)

/-- `invokestatic` before its method is resolved. -/
theorem sim_resolveInvokestatic (h : Spilled m s) (hc : s.insn.code = .parsed .invokestatic)
    (ops : List StackValue) :
    Sim vm fm back (invokestaticImplVoid vm m)
      (Plain.finish vm fm pushes rest (resolveInvokestatic vm s ops)) := by
  have hs := h.spillVoid
  unfold invokestaticImplVoid resolveInvokestatic
  rw [tryResolve_invokestatic (by rw [hs.insn]; exact hc), hs.pc]
  refine .perform hs.toSameFrame rfl fun heap v _ => ?_
  exact sim_intrinsify ((hs.setHeap heap).rewrite _) (by rw [Plain.rewrite_insn]; rfl)

theorem sim_resolveInvokedynamic (h : Spilled m s) (ops : List StackValue) :
    Sim vm fm back (invokedynamicImplVoid vm m)
      (Plain.finish vm fm pushes rest (resolveInvokedynamic vm s ops)) := by
  have hs := h.spillVoid
  unfold invokedynamicImplVoid resolveInvokedynamic
  rw [h.pc]
  refine .perform hs.toSameFrame rfl fun heap v _ => .again ((hs.setHeap heap).rewrite _) ?_
  rw [Plain.rewrite_insn]
  rfl

end BJvm.Interpreter
