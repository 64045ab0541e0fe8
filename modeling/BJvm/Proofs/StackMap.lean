import BJvm.StackMap.Frames
import Mathlib.Tactic.Common

/-!
# The iterator reads the frames of a table

Each reader undoes the encoding of what it reads (`readU16_encode` to `readFrame_encode`), so a
step of the iterator goes from one frame state to the next (`next_before`).  What goes wrong is at
the ends: `has_next` is set for a table without frames, and the frame of method entry stays in the
way of an explicit frame at offset 0, unless that is the byte 0 (`readsRight_of_yields`).
-/

namespace BJvm

variable {code : AttributeCode} {locals more : List VerificationType} {rest : List UInt8}
  {m : CpMethod} {frames : List StackMapFrame} {it it' : StackMapFrameIterator}

theorem readU16_encode (n : UInt16) (rest : List UInt8) :
    readU16 (encodeU16 n ++ rest) = .ok (n.toNat, rest) := by
  have hn : n.toNat < 65536 := n.toNat_lt
  have hsum : (n >>> 8).toUInt8.toNat * 256 + n.toUInt8.toNat = n.toNat := by
    simp only [UInt16.toNat_toUInt8, UInt16.toNat_shiftRight]
    have : (8 : UInt16).toNat % 16 = 8 := rfl
    rw [this, Nat.shiftRight_eq_div_pow]
    omega
  simp only [encodeU16, List.cons_append, List.nil_append, readU16, hsum]

theorem readVerificationType_encode (v : VerificationType) :
    readVerificationType (v.encode ++ rest) = .ok ({ kind := v.kind }, rest) := by
  cases v with
  | object i =>
    have := readU16_encode i rest
    simp [VerificationType.encode, readVerificationType, readU8, validationTypeKind, this,
      VerificationType.kind, bind, Except.bind, pure, Except.pure]
  | uninitialized i =>
    have := readU16_encode i rest
    simp [VerificationType.encode, readVerificationType, readU8, validationTypeKind, this,
      VerificationType.kind, bind, Except.bind, pure, Except.pure]
  | _ => rfl

/-! ### Locals -/

@[simp] theorem expand_nil : expand [] = [] := rfl

theorem expand_append : expand (locals ++ more) = expand locals ++ expand more := by
  simp [expand]

theorem expand_singleton (v : VerificationType) : expand [v] = withImplicitTop { kind := v.kind } := by
  simp [expand]

theorem length_expand :
    ∀ locals : List VerificationType, (expand locals).length = (locals.map (·.words)).sum
  | [] => rfl
  | v :: l => by
    have := length_expand l
    simp only [expand, List.flatMap_cons, List.length_append, List.map_cons, List.sum_cons] at this ⊢
    rw [this, VerificationType.words, VerificationType.isWide, withImplicitTop]
    split_ifs <;> rfl

theorem words_pos (v : VerificationType) : 1 ≤ v.words := by
  rw [VerificationType.words]
  split_ifs <;> omega

theorem length_le_words : ∀ l : List VerificationType, l.length ≤ (l.map (·.words)).sum
  | [] => le_rfl
  | v :: l => by
    have := length_le_words l
    have := words_pos v
    simp only [List.length_cons, List.map_cons, List.sum_cons]
    omega

theorem readLocals_encode (overflow : String) (rest : List UInt8) :
    ∀ (more locals : List VerificationType),
      ((locals ++ more).map (·.words)).sum ≤ code.maxLocals →
      readLocals code.maxLocals overflow more.length (expand locals)
        (more.flatMap VerificationType.encode ++ rest) = .ok (expand (locals ++ more), rest)
  | [], locals, _ => by simp [readLocals]
  | v :: more, locals, h => by
    have hone : expand locals ++ withImplicitTop { kind := v.kind } = expand (locals ++ [v]) := by
      rw [expand_append, expand_singleton]
    have hfit : ¬ (expand (locals ++ [v])).length > code.maxLocals := by
      rw [length_expand]
      simp only [List.map_append, List.sum_append, List.map_cons, List.sum_cons] at h ⊢
      simp only [List.map_nil, List.sum_nil]
      omega
    have ih := readLocals_encode overflow rest more (locals ++ [v]) (by rwa [List.append_assoc])
    rw [List.append_assoc] at ih
    simp only [List.length_cons, List.flatMap_cons, List.append_assoc, readLocals,
      readVerificationType_encode, bind, Except.bind, hone, if_neg hfit]
    exact ih

theorem readStack_encode (rest : List UInt8) :
    ∀ (more : List VerificationType) (stack : List ValidationType),
      stack.length + more.length ≤ code.maxStack →
      readStack code.maxStack more.length stack (more.flatMap VerificationType.encode ++ rest) =
        .ok (stack ++ more.map fun v => { kind := v.kind }, rest)
  | [], stack, _ => by simp [readStack]
  | v :: more, stack, h => by
    have hfit : ¬ (stack ++ [({ kind := v.kind } : ValidationType)]).length > code.maxStack := by
      simp only [List.length_append, List.length_cons, List.length_nil] at h ⊢
      omega
    have ih := readStack_encode rest more (stack ++ [({ kind := v.kind } : ValidationType)])
      (by simp only [List.length_append, List.length_cons, List.length_nil] at h ⊢; omega)
    simp only [List.length_cons, List.flatMap_cons, List.append_assoc, readStack,
      readVerificationType_encode, bind, Except.bind, if_neg hfit, ih]
    simp

/-- An implicit top marks the second half of a double or long, so chopping takes whole locals. -/
theorem chopLocals_expand :
    ∀ (n : Nat) (locals : List VerificationType), n ≤ locals.length →
      chopLocals n (expand locals) = .ok (expand (locals.take (locals.length - n)))
  | 0, locals, _ => by simp [chopLocals]
  | n + 1, locals, h => by
    rcases locals.eq_nil_or_concat with rfl | ⟨l, v, rfl⟩
    · simp at h
    rw [List.concat_eq_append, List.length_append, List.length_singleton] at h
    have hrest : (l ++ [v]).take (l.length + 1 - (n + 1)) = l.take (l.length - n) := by
      rw [Nat.add_sub_add_right, List.take_append_of_le_length (by omega)]
    have ih := chopLocals_expand n l (by omega)
    rw [List.concat_eq_append, List.length_append, List.length_singleton, hrest, ← ih,
      expand_append, expand_singleton, withImplicitTop]
    split_ifs with hw
    · have hsplit : expand l ++ [({ kind := v.kind } : ValidationType), implicitTop] =
          (expand l ++ [{ kind := v.kind }]) ++ [implicitTop] := by simp
      have htop : implicitTop.isImplicitTop = true := rfl
      rw [chopLocals, hsplit, List.getLast?_concat]
      simp only [htop, ↓reduceIte, List.dropLast_concat]
      rw [if_neg (by simp)]
    · have htop : ({ kind := v.kind } : ValidationType).isImplicitTop = false := by
        simp [ValidationType.isImplicitTop]
      rw [chopLocals, List.getLast?_concat]
      simp only [htop, Bool.false_eq_true, ↓reduceIte, List.dropLast_concat]

/-! ### Frames -/

theorem toNat_ofNat_lt {n : Nat} (h : n < 256) : (UInt8.ofNat n).toNat = n := by
  simp only [UInt8.toNat_ofNat']
  omega

/-- A frame is read back from its bytes. -/
theorem readFrame_encode (f : StackMapFrame) (hv : f.Valid locals)
    (hl : ((f.apply locals).1.map (·.words)).sum ≤ code.maxLocals)
    (hs : ((f.apply locals).2.map (·.words)).sum ≤ code.maxStack) :
    StackMapFrameIterator.readFrame code.maxLocals code.maxStack (expand locals) (f.encode ++ rest) =
      .ok (f.offsetDelta, (f.apply locals).2.map fun v => { kind := v.kind },
        expand (f.apply locals).1, rest) := by
  rw [StackMapFrameIterator.readFrame]
  cases f with
  | same d =>
    have hk := toNat_ofNat_lt (n := d) (by omega)
    simp only [StackMapFrame.encode, List.cons_append, List.nil_append, readU8, bind, Except.bind,
      hk]
    rw [if_pos (by omega)]
    rfl
  | sameLocals1 d v =>
    have hk := toNat_ofNat_lt (n := 64 + d) (by omega)
    simp only [StackMapFrame.encode, List.cons_append, readU8, bind, Except.bind, hk]
    rw [if_neg (by omega), if_pos (by omega), if_neg (by omega)]
    simp only [pure, Except.pure, readVerificationType_encode, Nat.add_sub_cancel_left]
    rfl
  | sameLocals1Extended d v =>
    simp only [StackMapFrame.encode, List.cons_append, List.append_assoc, readU8, bind, Except.bind,
      UInt8.reduceToNat]
    rw [if_neg (by omega), if_pos (.inr trivial), if_pos trivial]
    simp only [readU16_encode, readVerificationType_encode]
    rfl
  | chop k d =>
    have hk := toNat_ofNat_lt (n := 250 - k) (by omega)
    have hchop := chopLocals_expand (k + 1) locals hv
    simp only [StackMapFrame.encode, List.cons_append, readU8, bind, Except.bind, hk]
    rw [if_neg (by omega), if_neg (by omega), if_neg (by omega), if_pos (by omega),
      show 251 - (250 - (k : Nat)) = k + 1 by omega]
    simp only [hchop, readU16_encode]
    rfl
  | sameExtended d =>
    simp only [StackMapFrame.encode, List.cons_append, readU8, bind, Except.bind,
      UInt8.reduceToNat]
    rw [if_neg (by omega), if_neg (by omega), if_neg (by omega), if_neg (by omega),
      if_pos trivial]
    simp only [readU16_encode]
    rfl
  | append d more =>
    obtain ⟨h1, h3⟩ := hv
    have hk := toNat_ofNat_lt (n := 251 + more.length) (by omega)
    simp only [StackMapFrame.encode, List.cons_append, List.append_assoc, readU8, bind, Except.bind,
      hk]
    rw [if_neg (by omega), if_neg (by omega), if_neg (by omega), if_neg (by omega),
      if_neg (by omega), if_pos (by omega), Nat.add_sub_cancel_left]
    simp only [readU16_encode, readLocals_encode _ _ more locals hl]
    rfl
  | full d ls st =>
    obtain ⟨h1, h2⟩ := hv
    have hls : (UInt16.ofNat ls.length).toNat = ls.length := by
      simp only [UInt16.toNat_ofNat']
      omega
    have hst : (UInt16.ofNat st.length).toNat = st.length := by
      simp only [UInt16.toNat_ofNat']
      omega
    have hlocals := readLocals_encode "full_frame locals overflow"
      (encodeU16 (UInt16.ofNat st.length) ++ (st.flatMap VerificationType.encode ++ rest)) ls [] hl
    have hstack := readStack_encode rest st []
      (by rw [List.length_nil, Nat.zero_add]; exact Nat.le_trans (length_le_words st) hs)
    simp only [expand_nil, List.nil_append] at hlocals hstack
    simp only [StackMapFrame.encode, List.cons_append, List.append_assoc, readU8, bind, Except.bind,
      UInt8.reduceToNat]
    rw [if_neg (by omega), if_neg (by omega), if_neg (by omega), if_neg (by omega),
      if_neg (by omega), if_neg (by omega)]
    simp only [readU16_encode, hls, hlocals, hst, hstack]
    rfl

theorem encode_ne_nil (f : StackMapFrame) : f.encode ≠ [] := by
  cases f <;> simp [StackMapFrame.encode]

/-- The byte 0 begins the frame `same_frame` with offset delta 0 and no other. -/
theorem encode_head_eq_zero {f : StackMapFrame} {locals : List VerificationType}
    (hv : f.Valid locals) : f.encode.head? = some 0 ↔ f = .same 0 := by
  have hbyte : ∀ {n : Nat}, n < 256 → (UInt8.ofNat n = 0 ↔ n = 0) := fun {n} hn => by
    rw [← UInt8.toNat_inj, toNat_ofNat_lt hn]
    simp
  cases f with
  | same d =>
    simp only [StackMapFrame.encode, List.head?_cons, Option.some.injEq, hbyte (by omega : (d : Nat) < 256),
      StackMapFrame.same.injEq, Fin.ext_iff]
    rfl
  | sameLocals1 d v =>
    simp only [StackMapFrame.encode, List.head?_cons, Option.some.injEq, reduceCtorEq, iff_false,
      hbyte (by omega : 64 + (d : Nat) < 256)]
    omega
  | chop k d =>
    simp only [StackMapFrame.encode, List.head?_cons, Option.some.injEq, reduceCtorEq, iff_false,
      hbyte (by omega : 250 - (k : Nat) < 256)]
    omega
  | append d more =>
    obtain ⟨h1, h3⟩ := hv
    simp only [StackMapFrame.encode, List.head?_cons, Option.some.injEq, reduceCtorEq, iff_false,
      hbyte (by omega : 251 + more.length < 256)]
    omega
  | _ => simp [StackMapFrame.encode]

theorem flatMap_isEmpty : ∀ frames : List StackMapFrame,
    (frames.flatMap StackMapFrame.encode).isEmpty = frames.isEmpty
  | [] => rfl
  | f :: fs => by simp [encode_ne_nil f]

/-- Where the next frame's offset delta counts from. -/
def StackMapFrameIterator.base (it : StackMapFrameIterator) : Nat :=
  if it.isFirst then it.pc else it.pc + 1

/-- The iterator stands at `s` with `frames` still to read. -/
structure StackMapFrameIterator.Before (it : StackMapFrameIterator) (s : FrameState)
    (frames : List StackMapFrame) : Prop where
  at_state : it.At s
  data : it.data = frames.flatMap StackMapFrame.encode
  hasNext : it.hasNext = !frames.isEmpty

/-- A step of the iterator goes to the state of the next frame. -/
theorem next_before {f : StackMapFrame} (it : StackMapFrameIterator)
    (locals : List VerificationType) (frames : List StackMapFrame) (hl : it.locals = expand locals)
    (hd : it.data = (f :: frames).flatMap StackMapFrame.encode) (hv : f.Valid locals)
    (hlocals : ((f.apply locals).1.map (·.words)).sum ≤ code.maxLocals)
    (hstack : ((f.apply locals).2.map (·.words)).sum ≤ code.maxStack) :
    ∃ it', it.next code = .ok it' ∧ it'.Before
      { pc := it.base + f.offsetDelta, locals := (f.apply locals).1, stack := (f.apply locals).2 }
      frames ∧ it'.base = it.base + f.offsetDelta + 1 := by
  rw [StackMapFrameIterator.next, hl, hd, List.flatMap_cons,
    readFrame_encode f hv hlocals hstack]
  simp only [bind, Except.bind]
  rw [if_neg]
  · refine ⟨_, rfl, ⟨⟨?_, rfl, rfl⟩, rfl, ?_⟩, ?_⟩
    · simp only [StackMapFrameIterator.base]
      split_ifs <;> omega
    · rw [flatMap_isEmpty]
    · simp only [StackMapFrameIterator.base, Bool.false_eq_true, if_false]
      split_ifs <;> omega
  · rw [not_or, length_expand, List.length_map, not_lt, not_lt]
    exact ⟨Nat.le_trans (length_le_words _) hstack, hlocals⟩

/-- From one frame state on, the iterator yields the states of the frames still to read. -/
theorem Before.yields :
    ∀ {frames : List StackMapFrame} {it : StackMapFrameIterator} {s : FrameState},
      it.Before s frames → FramesFit code s.locals frames →
      Yields code it (s :: frameStates s.locals it.base frames)
  | [], it, s, h, _ => ⟨h.at_state, h.hasNext⟩
  | f :: fs, it, s, h, hfit => by
    obtain ⟨it', hnext, hbefore, hbase⟩ := next_before it s.locals fs h.at_state.locals h.data hfit.1 hfit.2.1
      hfit.2.2.1
    have ih := Before.yields hbefore hfit.2.2.2
    rw [hbase] at ih
    exact ⟨h.at_state, h.hasNext, it', hnext, ih⟩

/-! ### Method entry -/

/-- The locals on method entry as the iterator has them, also for the constructor of `Object`. -/
def CpMethod.entryLocals (m : CpMethod) : List VerificationType :=
  (if m.isStatic then [] else [if m.isCtor then .uninitializedThis else .object 0]) ++
  m.descriptor.args.map FieldDescriptor.verificationType

/-- The constructor of `Object`, in which `this` needs no initialisation. -/
def CpMethod.IsObjectCtor (m : CpMethod) : Prop :=
  m.isStatic = false ∧ m.isCtor = true ∧ m.className = "java/lang/Object"

theorem verificationType_kind {d : FieldDescriptor} (h : d.baseKind ≠ .void) :
    d.verificationType.kind = typeToValidationType d.reprKind := by
  obtain ⟨k, n⟩ := d
  cases k <;> simp only [FieldDescriptor.verificationType, FieldDescriptor.reprKind] <;>
    split_ifs <;> simp_all [TypeKind.representable, typeToValidationType, VerificationType.kind]

theorem initLocals_eq (h : ∀ arg ∈ m.descriptor.args, arg.baseKind ≠ .void) :
    initLocals m = expand m.entryLocals := by
  rw [initLocals, CpMethod.entryLocals, expand_append]
  congr 1
  · split_ifs <;> rfl
  · rw [expand, List.flatMap_map]
    rw [List.flatMap_def, List.flatMap_def]
    refine congrArg _ (List.map_congr_left fun arg harg => ?_)
    rw [verificationType_kind (h arg harg)]

theorem entryLocals_eq_iff : expand m.entryLocals = expand m.initialLocals ↔ ¬ m.IsObjectCtor := by
  rw [CpMethod.entryLocals, CpMethod.initialLocals, expand_append, expand_append,
    List.append_cancel_right_eq, CpMethod.IsObjectCtor]
  by_cases hs : m.isStatic <;> by_cases hc : m.isCtor <;>
    by_cases hn : m.className = "java/lang/Object" <;> simp [hs, hc, hn, expand, withImplicitTop,
      VerificationType.kind, ValidationTypeKind.isWide]

theorem entryLocals_words : m.entryLocals.map (·.words) = m.initialLocals.map (·.words) := by
  rw [CpMethod.entryLocals, CpMethod.initialLocals]
  by_cases hs : m.isStatic <;> by_cases hc : m.isCtor <;>
    by_cases hn : m.className = "java/lang/Object" <;> simp [hs, hc, hn, VerificationType.words,
      VerificationType.isWide, VerificationType.kind, ValidationTypeKind.isWide]

/-- Whether frames fit depends on the widths of the locals only. -/
theorem FramesFit.congr : ∀ {frames : List StackMapFrame} {locals locals' : List VerificationType},
    locals.map (·.words) = locals'.map (·.words) → FramesFit code locals frames →
      FramesFit code locals' frames
  | [], _, _, _, _ => trivial
  | f :: fs, locals, locals', hw, ⟨h1, h2, h3, h4⟩ => by
    have hlen : locals.length = locals'.length := by simpa using congrArg List.length hw
    have happly : (f.apply locals).1.map (·.words) = (f.apply locals').1.map (·.words) := by
      cases f <;> simp [StackMapFrame.apply, hw, hlen]
    refine ⟨?_, happly ▸ h2, ?_, h4.congr happly⟩
    · cases f <;> simp only [StackMapFrame.Valid] at h1 ⊢ <;> first | exact h1 | omega
    · cases f <;> exact h3

/-- The iterator on method entry, before a first frame is skipped. -/
def entryIterator (m : CpMethod) (frames : List StackMapFrame) : StackMapFrameIterator :=
  { locals := expand m.entryLocals
    data := frames.flatMap StackMapFrame.encode
    hasNext := true }

/-- `stack_map_frame_iterator_init` on a table whose first frame is not the byte 0. -/
theorem init_of_ne (h : Conforms m frames) (hne : frames.head? ≠ some (.same 0)) :
    StackMapFrameIterator.init m = .ok (entryIterator m frames) := by
  have hhead : (frames.flatMap StackMapFrame.encode).head? ≠ some 0 := by
    rcases frames with _ | ⟨f, fs⟩
    · simp
    · rw [List.flatMap_cons, List.head?_append, Option.or_of_isSome
        (by simpa using encode_ne_nil f), Ne, encode_head_eq_zero h.fit.1]
      simpa using hne
  simp [StackMapFrameIterator.init, h.table, hhead, initLocals_eq h.args, entryIterator]

/-- A first frame that is the byte 0 is skipped. -/
theorem init_of_same (h : Conforms m (.same 0 :: frames)) :
    ∃ it, StackMapFrameIterator.init m = .ok it ∧ it.base = 1 ∧
      it.Before { pc := 0, locals := m.entryLocals, stack := [] } frames := by
  obtain ⟨it, hnext, hbefore, hbase⟩ := next_before (f := .same 0)
    (entryIterator m (.same 0 :: frames)) m.entryLocals frames rfl rfl trivial
    (by rw [StackMapFrame.apply, entryLocals_words]; exact h.entry) (Nat.zero_le _)
  refine ⟨it, ?_, by simpa [StackMapFrame.offsetDelta, StackMapFrameIterator.base, entryIterator]
    using hbase, by simpa [StackMapFrame.offsetDelta, StackMapFrame.apply,
      StackMapFrameIterator.base, entryIterator] using hbefore⟩
  rw [StackMapFrameIterator.init]
  simp only [h.table, Option.map_some, Option.getD_some, Option.isSome_some, initLocals_eq h.args]
  have hhead : ((StackMapFrame.same 0 :: frames).flatMap StackMapFrame.encode).head? = some 0 := rfl
  rw [entryIterator] at hnext
  rw [if_pos hhead, hnext]

/-- The tables that the iterator reads as they are meant. -/
def ReadsRight (m : CpMethod) (frames : List StackMapFrame) : Prop :=
  ¬ m.IsObjectCtor ∧ ∃ f fs, frames = f :: fs ∧ (f.offsetDelta ≠ 0 ∨ f = .same 0)

theorem yields_of_readsRight (h : Conforms m frames) (hr : ReadsRight m frames) :
    ∃ it, StackMapFrameIterator.init m = .ok it ∧ Yields m.code it (m.frameSequence frames) := by
  obtain ⟨hobj, f, fs, rfl, hf⟩ := hr
  have hentry := entryLocals_eq_iff.mpr hobj
  rcases hf with hf | rfl
  · refine ⟨_, init_of_ne h ?_, ?_⟩
    · rw [List.head?_cons, Ne, Option.some.injEq]
      rintro rfl
      exact hf rfl
    · have hbefore : (entryIterator m (f :: fs)).Before
          { pc := 0, locals := m.initialLocals, stack := [] } (f :: fs) := ⟨⟨rfl, hentry, rfl⟩, rfl, rfl⟩
      have := Before.yields hbefore h.fit
      simpa [CpMethod.frameSequence, frameStates, hf, StackMapFrameIterator.base, entryIterator]
        using this
  · obtain ⟨it, hinit, hbase, hbefore⟩ := init_of_same h
    refine ⟨it, hinit, ?_⟩
    have hbefore' : it.Before { pc := 0, locals := m.initialLocals, stack := [] } fs :=
      ⟨⟨hbefore.at_state.pc, hentry ▸ hbefore.at_state.locals, hbefore.at_state.stack⟩,
        hbefore.data, hbefore.hasNext⟩
    have := Before.yields hbefore' h.fit.2.2.2
    simpa [CpMethod.frameSequence, frameStates, StackMapFrame.apply, StackMapFrame.offsetDelta,
      hbase] using this

theorem Yields.head {s : FrameState} {ss : List FrameState} (h : Yields code it (s :: ss)) :
    it.At s := by
  cases ss with
  | nil => exact h.1
  | cons _ _ => exact h.1

theorem readsRight_of_yields (h : Conforms m frames)
    (hy : ∃ it, StackMapFrameIterator.init m = .ok it ∧ Yields m.code it (m.frameSequence frames)) :
    ReadsRight m frames := by
  obtain ⟨it, hinit, hy⟩ := hy
  rcases frames with _ | ⟨f, fs⟩
  · -- the iterator promises a frame
    rw [init_of_ne h (by simp), Except.ok.injEq] at hinit
    subst hinit
    exact absurd hy.2 (by simp [entryIterator])
  have hlocals : it.locals = expand m.entryLocals := by
    by_cases hf : f = .same 0
    · subst hf
      obtain ⟨it', hinit', -, hbefore⟩ := init_of_same h
      rw [hinit, Except.ok.injEq] at hinit'
      rw [hinit', hbefore.at_state.locals]
    · rw [init_of_ne h (by simpa using hf), Except.ok.injEq] at hinit
      rw [← hinit]
      rfl
  by_cases hf : f.offsetDelta ≠ 0 ∨ f = .same 0
  · refine ⟨entryLocals_eq_iff.mp ?_, f, fs, rfl, hf⟩
    rw [← hlocals]
    rcases hf with hf | rfl
    · simp only [CpMethod.frameSequence, frameStates, Nat.zero_add, hf, if_false] at hy
      exact hy.head.locals
    · simp only [CpMethod.frameSequence, frameStates, StackMapFrame.offsetDelta,
        StackMapFrame.apply] at hy
      exact (if_pos rfl ▸ hy : Yields m.code it (_ :: _)).head.locals
  · -- the state of method entry comes first, and the frame at the same offset after it
    rw [not_or, not_not] at hf
    rw [init_of_ne h (by simpa using hf.2), Except.ok.injEq] at hinit
    subst hinit
    have hfit := h.fit.congr entryLocals_words.symm
    simp only [CpMethod.frameSequence, frameStates, hf.1, Nat.add_zero, ↓reduceIte] at hy
    rcases fs with _ | ⟨g, fs⟩
    · exact absurd hy.2 (by simp [entryIterator])
    · obtain ⟨-, -, it', hnext, hy'⟩ := hy
      obtain ⟨it'', hnext', hbefore, -⟩ := next_before
        (entryIterator m (f :: g :: fs)) m.entryLocals (g :: fs) rfl rfl hfit.1 hfit.2.1 hfit.2.2.1
      rw [hnext, Except.ok.injEq] at hnext'
      subst hnext'
      have hpc := hbefore.at_state.pc
      have hpc' : it'.pc = 0 + 1 + g.offsetDelta := hy'.head.pc
      simp only [StackMapFrameIterator.base, entryIterator, hf.1, ↓reduceIte] at hpc
      omega

end BJvm
