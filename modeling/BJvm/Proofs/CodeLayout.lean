import BJvm.ClassFile.Attributes

/-!
# Where the instructions are

How long an instruction is and which byte offsets it names can be read off the code
(`insnLength`, `byteTargets`).  The parser goes through the code by these lengths, so its table has
the index of every instruction at its offset, and nothing anywhere else.
-/

namespace BJvm

/-- Where an instruction may go to, as the record has it. -/
def BytecodeInsn.targets (insn : BytecodeInsn) : List Nat :=
  if insn.kind = .tableswitch then insn.tableswitch.defaultTarget :: insn.tableswitch.targets
  else if insn.kind = .lookupswitch then
    insn.lookupswitch.defaultTarget :: insn.lookupswitch.targets
  else if insn.kind.isBranch then [insn.index]
  else []

namespace ClassFile

open Parsing Parser
open Function (update)

/-! ### Instructions in the code -/

/-- What is behind an opcode. -/
inductive Shape
  | fixed (length : Nat)
  | offset16
  | offset32
  | tableswitch
  | lookupswitch
  | wide
deriving DecidableEq

/-- The shapes of all opcodes. -/
def shape (opcode : Nat) : Shape :=
  if opcode = 0xaa then .tableswitch
  else if opcode = 0xab then .lookupswitch
  else if opcode = 0xc4 then .wide
  else if 0x99 ≤ opcode ∧ opcode ≤ 0xa8 ∨ opcode = 0xc6 ∨ opcode = 0xc7 then .offset16
  else if opcode = 0xc8 ∨ opcode = 0xc9 then .offset32
  else if opcode ∈ [0x10, 0x12, 0xa9, 0xbc] ∨ 0x15 ≤ opcode ∧ opcode ≤ 0x19 ∨
      0x36 ≤ opcode ∧ opcode ≤ 0x3a then .fixed 2
  else if opcode ∈ [0x11, 0x13, 0x14, 0x84, 0xbb, 0xbd, 0xc0, 0xc1] ∨
      0xb2 ≤ opcode ∧ opcode ≤ 0xb8 then .fixed 3
  else if opcode = 0xc5 then .fixed 4
  else if opcode = 0xb9 ∨ opcode = 0xba then .fixed 5
  else .fixed 1

/-- How many bytes are between the opcode of a switch at an offset and its operands. -/
def padding (pc : Nat) : Nat := (4 - (pc + 1) % 4) % 4

/-- Where the operands of the switch begin. -/
def switchBase (start pc : Nat) : Nat := start + pc + 1 + padding pc

/-- How many targets the `tableswitch` with the operands at an address has besides the default. -/
def tableCount (m : ByteMemory) (b : Nat) : Nat := (beInt m (b + 8) 4 - beInt m (b + 4) 4 + 1).toNat

/-- How many pairs the `lookupswitch` has. -/
def pairCount (m : ByteMemory) (b : Nat) : Nat := (beInt m (b + 4) 4).toNat

/-- The length of the instruction at an offset of the code that starts at an address. -/
def insnLength (m : ByteMemory) (start pc : Nat) : Nat :=
  match shape (beNat m (start + pc) 1) with
  | .fixed length => length
  | .offset16 => 3
  | .offset32 => 5
  | .tableswitch => 1 + padding pc + 12 + 4 * tableCount m (switchBase start pc)
  | .lookupswitch => 1 + padding pc + 8 + 8 * pairCount m (switchBase start pc)
  | .wide => if beNat m (start + pc + 1) 1 = 0x84 then 6 else 4

/-- The offsets that the instruction at an offset may go to. -/
def byteTargets (m : ByteMemory) (start pc : Nat) : List Int :=
  let b := switchBase start pc
  match shape (beNat m (start + pc) 1) with
  | .fixed _ | .wide => []
  | .offset16 => [pc + beInt m (start + pc + 1) 2]
  | .offset32 => [pc + beInt m (start + pc + 1) 4]
  | .tableswitch => (pc + beInt m b 4) ::
      (List.range (tableCount m b)).map fun j => (pc : Int) + beInt m (b + 12 + 4 * j) 4
  | .lookupswitch => (pc + beInt m b 4) ::
      (List.range (pairCount m b)).map fun j => (pc : Int) + beInt m (b + 12 + 8 * j) 4

/-- The offsets of the instructions from an offset on. -/
def insnStarts (m : ByteMemory) (start codeLength : Nat) : Nat → Nat → List Nat
  | 0, _ => []
  | fuel + 1, pc =>
    if pc < codeLength then
      pc :: insnStarts m start codeLength fuel (pc + insnLength m start pc)
    else []

variable {m : ByteMemory} {s s' : Slice} {pool : ConstantPool} {insn insn' : ParsedInsn}
  {maxPc : Int} {start pc opcode codeLength : Nat} {kind : InsnCode} {name : String}

theorem beNat_lt (m : ByteMemory) (a : Nat) : ∀ n, beNat m a n < 256 ^ n
  | 0 => Nat.one_pos
  | n + 1 => by
    have := beNat_lt m a n
    have := (m (a + n)).toNat_lt
    rw [beNat, Nat.pow_succ]
    omega

/-! ### The tables of opcodes -/

/-- An instruction that does not go anywhere else. -/
def plain (kind : InsnCode) : Bool := !kind.isBranch && kind ≠ .tableswitch && kind ≠ .lookupswitch

theorem targets_plain (h : plain insn.kind) : insn.targets = [] := by
  unfold plain at h
  simp only [ne_eq, Bool.and_eq_true, Bool.not_eq_true', decide_eq_true_eq] at h
  unfold BytecodeInsn.targets
  rw [if_neg h.1.2, if_neg h.2, if_neg (by simp [h.1.1])]

/-- What the tables say, read off all opcodes at once. -/
theorem opcode_shapes : ∀ opcode < 256,
    (∀ kind ∈ operandless opcode, shape opcode = .fixed 1 ∧ plain kind) ∧
    (opcode < 16 → 1 < opcode → shape opcode = .fixed 1) ∧
    (∀ insn ∈ localInsn opcode, shape opcode = .fixed 2 ∧ plain insn.1) ∧
    (∀ insn ∈ shortLocalInsn opcode, shape opcode = .fixed 1 ∧ plain insn.1) ∧
    (∀ insn ∈ branchInsn opcode, shape opcode = .offset16 ∧ insn.1.isBranch) ∧
    (∀ insn ∈ wideBranchInsn opcode, shape opcode = .offset32 ∧ insn.1.isBranch) ∧
    (∀ insn ∈ cpInsn opcode, shape opcode = .fixed 3 ∧ plain insn.kind) ∧
    shape opcode ≠ .fixed 0 := by
  decide +kernel

theorem operandless_shape : ∀ opcode < 256, ∀ kind ∈ operandless opcode,
    shape opcode = .fixed 1 ∧ plain kind :=
  fun opcode h => (opcode_shapes opcode h).1

theorem constant_shape : ∀ opcode < 16, 1 < opcode → shape opcode = .fixed 1 :=
  fun opcode h => (opcode_shapes opcode (by omega)).2.1 h

theorem localInsn_shape : ∀ opcode < 256, ∀ insn ∈ localInsn opcode,
    shape opcode = .fixed 2 ∧ plain insn.1 :=
  fun opcode h => (opcode_shapes opcode h).2.2.1

theorem shortLocalInsn_shape : ∀ opcode < 256, ∀ insn ∈ shortLocalInsn opcode,
    shape opcode = .fixed 1 ∧ plain insn.1 :=
  fun opcode h => (opcode_shapes opcode h).2.2.2.1

theorem branchInsn_shape : ∀ opcode < 256, ∀ insn ∈ branchInsn opcode,
    shape opcode = .offset16 ∧ insn.1.isBranch :=
  fun opcode h => (opcode_shapes opcode h).2.2.2.2.1

theorem wideBranchInsn_shape : ∀ opcode < 256, ∀ insn ∈ wideBranchInsn opcode,
    shape opcode = .offset32 ∧ insn.1.isBranch :=
  fun opcode h => (opcode_shapes opcode h).2.2.2.2.2.1

theorem cpInsn_shape : ∀ opcode < 256, ∀ insn ∈ cpInsn opcode,
    shape opcode = .fixed 3 ∧ plain insn.kind :=
  fun opcode h => (opcode_shapes opcode h).2.2.2.2.2.2.1

/-! ### One instruction -/

theorem checkedPc_ok {offset : Int} {target : Nat} (h : checkedPc maxPc pc offset = .ok target) :
    (target : Int) = pc + offset := by
  unfold checkedPc at h
  dsimp only at h
  split_ifs at h with hbound
  cases h
  omega

/-- The parser takes the bytes of the instruction at an offset, and its targets. -/
structure Takes (m : ByteMemory) (start pc : Nat) (s : Slice) (insn : ParsedInsn) (s' : Slice) :
    Prop where
  len : insnLength m start pc ≤ s.len
  rest : s' = s.drop (insnLength m start pc)
  targets : (insn.targets.map fun target : Nat => (target : Int)) = byteTargets m start pc

theorem Takes.fixed {n : Nat} (hshape : shape (beNat m (start + pc) 1) = .fixed n)
    (hn : n ≤ s.len) (hs : s' = s.drop n) (hplain : plain insn.kind) :
    Takes m start pc s insn s' := by
  have hlength : insnLength m start pc = n := by rw [insnLength, hshape]
  refine ⟨hlength ▸ hn, hlength ▸ hs, ?_⟩
  rw [targets_plain hplain, byteTargets, hshape]
  rfl

theorem Takes.wide (hshape : shape (beNat m (start + pc) 1) = .wide)
    (hn : (if beNat m (start + pc + 1) 1 = 0x84 then 6 else 4) ≤ s.len)
    (hs : s' = s.drop (if beNat m (start + pc + 1) 1 = 0x84 then 6 else 4))
    (hplain : plain insn.kind) : Takes m start pc s insn s' := by
  have hlength : insnLength m start pc = if beNat m (start + pc + 1) 1 = 0x84 then 6 else 4 := by
    rw [insnLength, hshape]
  refine ⟨hlength ▸ hn, hlength ▸ hs, ?_⟩
  rw [targets_plain hplain, byteTargets, hshape]
  rfl

theorem targets_branch (h : kind.isBranch) (hkind : insn.kind = kind) :
    insn.targets = [insn.index] := by
  subst hkind
  unfold BytecodeInsn.targets
  rw [if_neg, if_neg, if_pos h]
  · rintro heq
    rw [heq] at h
    cases h
  · rintro heq
    rw [heq] at h
    cases h

theorem Takes.offset16 (hshape : shape (beNat m (start + pc) 1) = .offset16) (hn : 3 ≤ s.len)
    (hs : s' = s.drop 3) (hbranch : insn.kind.isBranch)
    (htarget : (insn.index : Int) = pc + beInt m (start + pc + 1) 2) :
    Takes m start pc s insn s' := by
  have hlength : insnLength m start pc = 3 := by rw [insnLength, hshape]
  refine ⟨hlength ▸ hn, hlength ▸ hs, ?_⟩
  rw [targets_branch hbranch rfl, byteTargets, hshape]
  simp [htarget]

theorem Takes.offset32 (hshape : shape (beNat m (start + pc) 1) = .offset32) (hn : 5 ≤ s.len)
    (hs : s' = s.drop 5) (hbranch : insn.kind.isBranch)
    (htarget : (insn.index : Int) = pc + beInt m (start + pc + 1) 4) :
    Takes m start pc s insn s' := by
  have hlength : insnLength m start pc = 5 := by rw [insnLength, hshape]
  refine ⟨hlength ▸ hn, hlength ▸ hs, ?_⟩
  rw [targets_branch hbranch rfl, byteTargets, hshape]
  simp [htarget]

theorem withDescriptors_kind {info : CpInfo} : (withDescriptors info insn).kind = insn.kind := by
  unfold withDescriptors
  split <;> rfl

theorem ldcInsn_plain {index : Nat} {info : CpInfo} : plain (ldcInsn index info).kind := by
  unfold ldcInsn
  split <;> rfl

theorem yields_nextEntry {indexReason reason : String} {n : Nat} {kinds : List CpKind}
    {x : Nat × CpInfo} (h : (nextEntry pool indexReason n kinds reason).Yields m s x s') :
    n ≤ s.len ∧ s' = s.drop n := by
  unfold nextEntry at h
  simp only [yields_bind, yields_nextNat, yields_lift, yields_pure] at h
  obtain ⟨_, _, ⟨hn, -, rfl⟩, _, _, ⟨-, rfl⟩, -, rfl⟩ := h
  exact ⟨hn, rfl⟩

theorem yields_skipPadding {u : Unit} (hs : s.bytes = start + pc) (hlen : 1 ≤ s.len)
    (h : (skipPadding (pc + 1)).Yields m (s.drop 1) u s') :
    1 + padding pc ≤ s.len ∧ s' = s.drop (1 + padding pc) ∧ s'.bytes = switchBase start pc := by
  unfold skipPadding readerNextU8 at h
  simp only [yields_bind, yields_pure] at h
  obtain ⟨_, _, htimes, -, rfl⟩ := h
  obtain ⟨-, hpad, rfl, -⟩ := yields_times (k := 1) (fun h => by
    obtain ⟨hn, -, rfl⟩ := yields_nextNat.mp h
    exact ⟨hn, rfl⟩) htimes
  rw [Nat.one_mul] at hpad ⊢
  refine ⟨s.add_le_len hlen hpad, s.drop_drop 1 _, ?_⟩
  rw [Slice.bytes_drop, Slice.bytes_drop, hs]
  rfl

/-- A list whose elements are given at every index. -/
theorem eq_map_range {α β : Type} {f : α → β} {g : Nat → β} :
    ∀ {l : List α}, (∀ j a, l[j]? = some a → f a = g j) → l.map f = (List.range l.length).map g := by
  intro l h
  apply List.ext_getElem?
  intro j
  rw [List.getElem?_map, List.getElem?_map]
  by_cases hj : j < l.length
  · rw [List.getElem?_range hj, List.getElem?_eq_getElem hj]
    exact congrArg some (h j _ (List.getElem?_eq_getElem hj))
  · rw [List.getElem?_eq_none (by omega), List.getElem?_eq_none (by simpa using hj)]
    rfl

theorem parseTableswitchInsn_takes (hs : s.bytes = start + pc) (hlen : 1 ≤ s.len)
    (hshape : shape (beNat m (start + pc) 1) = .tableswitch)
    (h : (parseTableswitchInsn maxPc pc).Yields m (s.drop 1) insn s') :
    Takes m start pc s insn s' := by
  unfold parseTableswitchInsn readerNextS32 at h
  simp only [yields_bind, yields_nextInt, yields_lift] at h
  obtain ⟨_, base, hpadding, _, _, ⟨h₁, rfl, rfl⟩, _, _, ⟨hdefault, rfl⟩, h⟩ := h
  obtain ⟨hpad, hbase, hbytes⟩ := yields_skipPadding hs hlen hpadding
  obtain ⟨_, _, ⟨h₂, rfl, rfl⟩, _, _, ⟨h₃, rfl, rfl⟩, h⟩ := h
  split_ifs at h
  · exact absurd h yields_fail
  · exact absurd h yields_fail
  simp only [yields_bind, yields_pure, Slice.drop_drop, Slice.bytes_drop, hbytes, Nat.reduceAdd] at h
  obtain ⟨targets, _, htimes, rfl, rfl⟩ := h
  obtain ⟨hcount, hend, rfl, htargets⟩ := yields_times (k := 4) (fun h => by
    simp only [yields_bind, yields_nextInt, yields_lift] at h
    obtain ⟨_, _, ⟨hn, -, rfl⟩, -, rfl⟩ := h
    exact ⟨hn, rfl⟩) htimes
  have hlength : insnLength m start pc = 1 + padding pc + (12 + 4 * targets.length) := by
    rw [insnLength, hshape, hcount]
    exact Nat.add_assoc _ _ _
  simp only [Slice.len_drop] at h₁ h₂ h₃ hend
  refine ⟨?_, ?_, ?_⟩
  · rw [hlength]
    refine s.add_le_len hpad ?_
    rw [← hbase]
    omega
  · rw [hlength, ← hcount, Slice.drop_drop, hbase, Slice.drop_drop]
  · have hmap := eq_map_range (f := fun target : Nat => (target : Int)) fun j target hj => by
      obtain ⟨_, htarget⟩ := htargets j target hj
      simp only [yields_bind, yields_nextInt, yields_lift] at htarget
      obtain ⟨_, _, ⟨-, rfl, rfl⟩, hchecked, -⟩ := htarget
      simp only [Slice.bytes_drop, hbytes] at hchecked
      exact checkedPc_ok hchecked
    have hself := checkedPc_ok hdefault
    rw [hbytes] at hself
    rw [byteTargets, hshape, tableCount, ← hcount]
    simp only [BytecodeInsn.targets, if_true, List.map_cons, hmap, hself]

theorem parseLookupswitchInsn_takes (hs : s.bytes = start + pc) (hlen : 1 ≤ s.len)
    (hshape : shape (beNat m (start + pc) 1) = .lookupswitch)
    (h : (parseLookupswitchInsn maxPc pc).Yields m (s.drop 1) insn s') :
    Takes m start pc s insn s' := by
  unfold parseLookupswitchInsn readerNextS32 at h
  simp only [yields_bind, yields_nextInt, yields_lift] at h
  obtain ⟨_, base, hpadding, _, _, ⟨h₁, rfl, rfl⟩, _, _, ⟨hdefault, rfl⟩, h⟩ := h
  obtain ⟨hpad, hbase, hbytes⟩ := yields_skipPadding hs hlen hpadding
  obtain ⟨_, _, ⟨h₂, rfl, rfl⟩, h⟩ := h
  split_ifs at h
  · exact absurd h yields_fail
  simp only [yields_bind, yields_pure, Slice.drop_drop, Slice.bytes_drop, hbytes, Nat.reduceAdd] at h
  obtain ⟨pairs, _, htimes, rfl, rfl⟩ := h
  obtain ⟨hcount, hend, rfl, hpairs⟩ := yields_times (k := 8) (fun h => by
    simp only [yields_bind, yields_nextInt, yields_lift, yields_pure] at h
    obtain ⟨_, _, ⟨hn, -, rfl⟩, _, _, ⟨hn', -, rfl⟩, _, _, ⟨-, rfl⟩, -, rfl⟩ := h
    exact ⟨Slice.add_le_len _ hn hn', Slice.drop_drop _ 4 4⟩) htimes
  have hlength : insnLength m start pc = 1 + padding pc + (8 + 8 * pairs.length) := by
    rw [insnLength, hshape, hcount]
    exact Nat.add_assoc _ _ _
  simp only [Slice.len_drop] at h₁ h₂ hend
  refine ⟨?_, ?_, ?_⟩
  · rw [hlength]
    refine s.add_le_len hpad ?_
    rw [← hbase]
    omega
  · rw [hlength, ← hcount, Slice.drop_drop, hbase, Slice.drop_drop]
  · have hmap := eq_map_range (f := fun pair : Int × Nat => (pair.2 : Int)) fun j pair hj => by
      obtain ⟨_, hpair⟩ := hpairs j pair hj
      simp only [yields_bind, yields_nextInt, yields_lift, yields_pure] at hpair
      obtain ⟨_, _, ⟨-, rfl, rfl⟩, _, _, ⟨-, rfl, rfl⟩, _, _, ⟨hchecked, -⟩, rfl, -⟩ := hpair
      rw [Slice.bytes_drop, Slice.bytes_drop, Slice.bytes_drop, hbytes,
        Nat.add_right_comm, Nat.add_assoc (switchBase start pc) 8 4] at hchecked
      exact checkedPc_ok hchecked
    have hself := checkedPc_ok hdefault
    rw [hbytes] at hself
    rw [byteTargets, hshape, pairCount, ← hcount]
    simp only [BytecodeInsn.targets, reduceCtorEq, if_false, if_true, List.map_cons, List.map_map,
      Function.comp_def, hmap, hself]

theorem parseWideInsn_takes (hs : s.bytes = start + pc) (hlen : 1 ≤ s.len)
    (hshape : shape (beNat m (start + pc) 1) = .wide)
    (h : parseWideInsn.Yields m (s.drop 1) insn s') : Takes m start pc s insn s' := by
  unfold parseWideInsn readerNextU8 readerNextU16 readerNextS16 at h
  rw [yields_bind] at h
  obtain ⟨opcode, _, hnext, h⟩ := h
  obtain ⟨hn, hopcode, rfl⟩ := yields_nextNat.mp hnext
  have hlt : opcode < 256 := hopcode ▸ beNat_lt m _ 1
  rw [Slice.bytes_drop, hs] at hopcode
  split at h
  · rename_i kind name hinsn
    obtain ⟨hfixed, hplain⟩ := localInsn_shape opcode hlt _ hinsn
    simp only [yields_bind, yields_nextNat, yields_pure] at h
    obtain ⟨_, _, ⟨hn', -, rfl⟩, rfl, rfl⟩ := h
    have hnot : ¬ beNat m (start + pc + 1) 1 = 0x84 := by
      rw [← hopcode]
      rintro rfl
      cases hfixed
    refine .wide hshape ?_ ?_ hplain
    · rw [if_neg hnot]
      exact s.add_le_len hlen (Slice.add_le_len _ hn hn')
    · rw [if_neg hnot, Slice.drop_drop, Slice.drop_drop]
  · split_ifs at h with hiinc
    · simp only [yields_bind, yields_nextNat, yields_nextInt, yields_pure] at h
      obtain ⟨_, _, ⟨hn', -, rfl⟩, _, _, ⟨hn'', -, rfl⟩, rfl, rfl⟩ := h
      rw [hopcode] at hiinc
      refine .wide hshape ?_ ?_ rfl
      · rw [if_pos hiinc]
        exact s.add_le_len hlen (Slice.add_le_len _ hn (Slice.add_le_len _ hn' hn''))
      · rw [if_pos hiinc, Slice.drop_drop, Slice.drop_drop, Slice.drop_drop]
    · exact absurd h yields_fail

theorem ldc_takes {indexReason reason : String} {n : Nat} {kinds : List CpKind} (hlen : 1 ≤ s.len)
    (hshape : shape (beNat m (start + pc) 1) = .fixed (1 + n))
    (h : (do
      let (index, info) ← nextEntry pool indexReason n kinds reason
      return ldcInsn index info : Parser ParsedInsn).Yields m (s.drop 1) insn s') :
    Takes m start pc s insn s' := by
  simp only [yields_bind, yields_pure] at h
  obtain ⟨_, _, hentry, rfl, rfl⟩ := h
  obtain ⟨hn, rfl⟩ := yields_nextEntry hentry
  exact .fixed hshape (s.add_le_len hlen hn) (s.drop_drop 1 n) ldcInsn_plain

theorem parseOtherInsn_takes (hs : s.bytes = start + pc) (hlen : 1 ≤ s.len)
    (hopcode : beNat m (start + pc) 1 = opcode)
    (h : (parseOtherInsn pool maxPc pc opcode).Yields m (s.drop 1) insn s') :
    Takes m start pc s insn s' := by
  unfold parseOtherInsn readerNextU8 readerNextU16 readerNextS8 readerNextS16 at h
  have hshape {t : Shape} (ht : shape opcode = t) : shape (beNat m (start + pc) 1) = t :=
    hopcode ▸ ht
  split at h
  · simp only [yields_bind, yields_nextInt, yields_pure] at h
    obtain ⟨_, _, ⟨hn, -, rfl⟩, rfl, rfl⟩ := h
    exact .fixed (hshape rfl) (s.add_le_len hlen hn) (s.drop_drop 1 _) rfl
  · simp only [yields_bind, yields_nextInt, yields_pure] at h
    obtain ⟨_, _, ⟨hn, -, rfl⟩, rfl, rfl⟩ := h
    exact .fixed (hshape rfl) (s.add_le_len hlen hn) (s.drop_drop 1 _) rfl
  · exact ldc_takes hlen (hshape rfl) h
  · exact ldc_takes hlen (hshape rfl) h
  · exact ldc_takes hlen (hshape rfl) h
  · simp only [yields_bind, yields_nextNat, yields_nextInt, yields_pure] at h
    obtain ⟨_, _, ⟨hn, -, rfl⟩, _, _, ⟨hn', -, rfl⟩, rfl, rfl⟩ := h
    refine .fixed (hshape rfl) (s.add_le_len hlen (Slice.add_le_len _ hn hn')) ?_ rfl
    rw [Slice.drop_drop, Slice.drop_drop]
  · exact parseTableswitchInsn_takes hs hlen (hshape rfl) h
  · exact parseLookupswitchInsn_takes hs hlen (hshape rfl) h
  · simp only [yields_bind, yields_nextNat, yields_pure] at h
    obtain ⟨_, _, hentry, _, _, ⟨hn', -, rfl⟩, _, _, ⟨hn'', -, rfl⟩, rfl, rfl⟩ := h
    obtain ⟨hn, rfl⟩ := yields_nextEntry hentry
    refine .fixed (hshape rfl)
      (s.add_le_len hlen (Slice.add_le_len _ hn (Slice.add_le_len _ hn' hn''))) ?_ ?_
    · rw [Slice.drop_drop, Slice.drop_drop, Slice.drop_drop]
    · rw [withDescriptors_kind]
      rfl
  · simp only [yields_bind, yields_nextNat, yields_pure] at h
    obtain ⟨_, _, hentry, _, _, ⟨hn', -, rfl⟩, rfl, rfl⟩ := h
    obtain ⟨hn, rfl⟩ := yields_nextEntry hentry
    refine .fixed (hshape rfl) (s.add_le_len hlen (Slice.add_le_len _ hn hn')) ?_ ?_
    · rw [Slice.drop_drop, Slice.drop_drop]
    · rw [withDescriptors_kind]
      rfl
  · simp only [yields_bind, yields_nextNat, yields_lift, yields_pure] at h
    obtain ⟨_, _, ⟨hn, -, rfl⟩, _, _, ⟨-, rfl⟩, rfl, rfl⟩ := h
    exact .fixed (hshape rfl) (s.add_le_len hlen hn) (s.drop_drop 1 _) rfl
  · exact parseWideInsn_takes hs hlen (hshape rfl) h
  · simp only [yields_bind, yields_nextNat, yields_lift, yields_pure] at h
    obtain ⟨_, _, ⟨hn, -, rfl⟩, _, _, ⟨hn', -, rfl⟩, _, _, ⟨-, rfl⟩, rfl, rfl⟩ := h
    refine .fixed (hshape rfl) (s.add_le_len hlen (Slice.add_le_len _ hn hn')) ?_ rfl
    rw [Slice.drop_drop, Slice.drop_drop]
  · exact absurd h yields_fail

theorem parseInsnImpl_takes (hs : s.bytes = start + pc)
    (h : (parseInsnImpl pool maxPc pc).Yields m s insn s') : Takes m start pc s insn s' := by
  unfold parseInsnImpl readerNextU8 readerNextS16 readerNextS32 at h
  rw [yields_bind] at h
  obtain ⟨opcode, s₁, hnext, h⟩ := h
  obtain ⟨hlen, hopcode, rfl⟩ := yields_nextNat.mp hnext
  have hlt : opcode < 256 := hopcode ▸ beNat_lt m s.bytes 1
  rw [hs] at hopcode
  have hshape {t : Shape} (ht : shape opcode = t) : shape (beNat m (start + pc) 1) = t :=
    hopcode ▸ ht
  split at h
  · rename_i kind hkind
    obtain ⟨hfixed, hplain⟩ := operandless_shape opcode hlt kind hkind
    obtain ⟨rfl, rfl⟩ := yields_pure.mp h
    exact .fixed (hshape hfixed) hlen rfl hplain
  split_ifs at h with hiconst hlconst hfconst hdconst
  · obtain ⟨rfl, rfl⟩ := yields_pure.mp h
    exact .fixed (hshape (constant_shape opcode (by omega) (by omega))) hlen rfl rfl
  · obtain ⟨rfl, rfl⟩ := yields_pure.mp h
    exact .fixed (hshape (constant_shape opcode (by omega) (by omega))) hlen rfl rfl
  · obtain ⟨rfl, rfl⟩ := yields_pure.mp h
    exact .fixed (hshape (constant_shape opcode (by omega) (by omega))) hlen rfl rfl
  · obtain ⟨rfl, rfl⟩ := yields_pure.mp h
    exact .fixed (hshape (constant_shape opcode (by omega) (by omega))) hlen rfl rfl
  split at h
  · rename_i kind name hinsn
    obtain ⟨hfixed, hplain⟩ := localInsn_shape opcode hlt _ hinsn
    simp only [yields_bind, yields_nextNat, yields_pure] at h
    obtain ⟨_, _, ⟨hn, -, rfl⟩, rfl, rfl⟩ := h
    exact .fixed (hshape hfixed) (s.add_le_len hlen hn) (s.drop_drop 1 1) hplain
  split at h
  · rename_i kind index hinsn
    obtain ⟨hfixed, hplain⟩ := shortLocalInsn_shape opcode hlt _ hinsn
    obtain ⟨rfl, rfl⟩ := yields_pure.mp h
    exact .fixed (hshape hfixed) hlen rfl hplain
  split at h
  · rename_i kind name hinsn
    obtain ⟨hoffset, hbranch⟩ := branchInsn_shape opcode hlt _ hinsn
    simp only [yields_bind, yields_nextInt, yields_lift, yields_pure] at h
    obtain ⟨_, _, ⟨hn, rfl, rfl⟩, _, _, ⟨htarget, rfl⟩, rfl, rfl⟩ := h
    rw [Slice.bytes_drop, hs] at htarget
    exact .offset16 (hshape hoffset) (s.add_le_len hlen hn) (s.drop_drop 1 2) hbranch
      (checkedPc_ok htarget)
  split at h
  · rename_i kind name hinsn
    obtain ⟨hoffset, hbranch⟩ := wideBranchInsn_shape opcode hlt _ hinsn
    simp only [yields_bind, yields_nextInt, yields_lift, yields_pure] at h
    obtain ⟨_, _, ⟨hn, rfl, rfl⟩, _, _, ⟨htarget, rfl⟩, rfl, rfl⟩ := h
    rw [Slice.bytes_drop, hs] at htarget
    exact .offset32 (hshape hoffset) (s.add_le_len hlen hn) (s.drop_drop 1 4) hbranch
      (checkedPc_ok htarget)
  split at h
  · rename_i cpInsn hinsn
    obtain ⟨hfixed, hplain⟩ := cpInsn_shape opcode hlt _ hinsn
    simp only [yields_bind, yields_pure] at h
    obtain ⟨_, _, hentry, rfl, rfl⟩ := h
    obtain ⟨hn, rfl⟩ := yields_nextEntry hentry
    refine .fixed (hshape hfixed) (s.add_le_len hlen hn) (s.drop_drop 1 2) ?_
    rw [withDescriptors_kind]
    exact hplain
  · exact parseOtherInsn_takes hs hlen hopcode.symm h

theorem insnLength_pos (m : ByteMemory) (start pc : Nat) : 0 < insnLength m start pc := by
  have := (opcode_shapes (beNat m (start + pc) 1) (beNat_lt m _ 1)).2.2.2.2.2.2.2
  unfold insnLength
  split
  case h_1 n h => exact Nat.pos_of_ne_zero (by rintro rfl; exact this h)
  case h_6 => split_ifs <;> omega
  all_goals omega

/-- What `parse_insn` returns at an offset. -/
theorem parseInsn_takes (hs : s.bytes = start + pc)
    (h : (parseInsn pool maxPc pc).Yields m s insn s') :
    Takes m start pc s insn s' ∧ insn.originalPc = pc % 2 ^ 16 := by
  unfold parseInsn at h
  simp only [yields_bind, yields_pure] at h
  obtain ⟨_, _, himpl, rfl, rfl⟩ := h
  obtain ⟨hlen, hrest, htargets⟩ := parseInsnImpl_takes hs himpl
  exact ⟨⟨hlen, hrest, htargets⟩, rfl⟩

/-! ### The loop over the instructions -/

/-- The record of the instruction at an offset, with targets as offsets. -/
structure InsnAt (m : ByteMemory) (start pc : Nat) (insn : ParsedInsn) : Prop where
  originalPc : insn.originalPc = pc % 2 ^ 16
  targets : (insn.targets.map fun target : Nat => (target : Int)) = byteTargets m start pc

theorem le_insnStarts : ∀ {fuel pc p : Nat}, p ∈ insnStarts m start codeLength fuel pc →
    pc ≤ p ∧ p < codeLength
  | 0, _, _, h => by cases h
  | fuel + 1, pc, p, h => by
    unfold insnStarts at h
    split_ifs at h with hpc
    · rcases List.mem_cons.mp h with rfl | h
      · exact ⟨Nat.le_refl _, hpc⟩
      · have := le_insnStarts h
        omega
    · cases h

theorem insnStarts_sorted : ∀ {fuel pc : Nat},
    (insnStarts m start codeLength fuel pc).Pairwise (· < ·)
  | 0, _ => .nil
  | fuel + 1, pc => by
    unfold insnStarts
    split_ifs
    · refine .cons (fun p hp => ?_) insnStarts_sorted
      have := (le_insnStarts hp).1
      have := insnLength_pos m start pc
      omega
    · exact .nil

/-- The table has the index of each instruction at its offset. -/
structure Indexes (l : List Nat) (k : Nat) (before after : PcToInsn) : Prop where
  at_start : ∀ {j p}, l[j]? = some p → after p = some (k + j)
  elsewhere : ∀ {p}, p ∉ l → after p = before p

/-- The parser goes through the code instruction by instruction. -/
theorem parseInsns_layout : ∀ {fuel k pc : Nat} {t t' : PcToInsn} {s : Slice}
    {code : List ParsedInsn}, s.bytes = start + pc → pc + s.len = codeLength → s.len ≤ fuel →
    (parseInsns pool maxPc start fuel k t).Yields m s (code, t') s' →
    code.length = (insnStarts m start codeLength fuel pc).length ∧
      (∀ (j : Nat) insn p, code[j]? = some insn →
        (insnStarts m start codeLength fuel pc)[j]? = some p → InsnAt m start p insn) ∧
      Indexes (insnStarts m start codeLength fuel pc) k t t'
  | 0, k, pc, t, t', s, code, hs, hlen, hfuel, h => by
    obtain ⟨heq, -⟩ := yields_pure.mp h
    cases heq
    exact ⟨rfl, fun j insn p hj => by simp at hj, by simp [insnStarts], fun _ => rfl⟩
  | fuel + 1, k, pc, t, t', s, code, hs, hlen, hfuel, h => by
    unfold parseInsns at h
    simp only [yields_bind, yields_remaining] at h
    obtain ⟨_, _, ⟨rfl, rfl⟩, h⟩ := h
    split_ifs at h with hempty
    · obtain ⟨heq, -⟩ := yields_pure.mp h
      cases heq
      rw [insnStarts, if_neg (by omega)]
      exact ⟨rfl, fun j insn p hj => by simp at hj, by simp, fun _ => rfl⟩
    · simp only [yields_bind, yields_position, yields_pure] at h
      obtain ⟨_, _, ⟨rfl, rfl⟩, insn, _, hinsn, ⟨code', t''⟩, _, hrest, heq, rfl⟩ := h
      obtain ⟨rfl, rfl⟩ := Prod.mk.inj heq
      rw [hs, Nat.add_sub_cancel_left] at hinsn hrest
      obtain ⟨⟨hle, rfl, htargets⟩, hpc⟩ := parseInsn_takes hs hinsn
      have hpos := insnLength_pos m start pc
      rw [insnStarts, if_pos (by omega)]
      obtain ⟨hlength, hat, hindexes⟩ := parseInsns_layout
        (by rw [Slice.bytes_drop, hs, Nat.add_assoc]) (by rw [Slice.len_drop]; omega)
        (by rw [Slice.len_drop]; omega) hrest
      refine ⟨by rw [List.length_cons, List.length_cons, hlength], fun j insn' p hj hp => ?_,
        fun {j p} hj => ?_, fun {p} hp => ?_⟩
      · cases j with
        | zero =>
          cases hj
          cases hp
          exact ⟨hpc, htargets⟩
        | succ j => exact hat j insn' p hj hp
      · cases j with
        | zero =>
          cases hj
          rw [hindexes.elsewhere fun hmem => ?_, Function.update_self]
          · rfl
          · have := (le_insnStarts hmem).1
            omega
        | succ j =>
          exact (hindexes.at_start hj).trans (by rw [Nat.add_assoc, Nat.add_comm 1 j])
      · rw [List.mem_cons, not_or] at hp
        rw [hindexes.elsewhere hp.2, Function.update_of_ne hp.1]

/-- The offsets of all instructions. -/
def codeStarts (m : ByteMemory) (start codeLength : Nat) : List Nat :=
  insnStarts m start codeLength codeLength 0

theorem parseInsns_starts {t : PcToInsn} {code : List ParsedInsn}
    (h : (parseInsns pool maxPc s.bytes s.len 0 fun _ => none).Yields m s (code, t) s') :
    code.length = (codeStarts m s.bytes s.len).length ∧
      (∀ (j : Nat) insn p, code[j]? = some insn → (codeStarts m s.bytes s.len)[j]? = some p →
        InsnAt m s.bytes p insn) ∧
      Indexes (codeStarts m s.bytes s.len) 0 (fun _ => none) t :=
  parseInsns_layout rfl (Nat.zero_add _) (Nat.le_refl _) h

/-! ### Offsets as indices -/

/-- In a table that was empty before, an offset has the index of the instruction there. -/
theorem Indexes.convert {l : List Nat} {t : PcToInsn} {p i : Nat}
    (h : Indexes l 0 (fun _ => none) t) (hp : convertPcToInsn t p = .ok i) : l[i]? = some p := by
  unfold convertPcToInsn at hp
  by_cases hmem : p ∈ l
  · obtain ⟨j, hj⟩ := List.getElem?_of_mem hmem
    rw [h.at_start hj, Nat.zero_add] at hp
    cases hp
    exact hj
  · rw [h.elsewhere hmem] at hp
    cases hp

/-- The record of the instruction at an offset, whose targets are indices. -/
structure Converted (m : ByteMemory) (start : Nat) (l : List Nat) (pc : Nat) (insn : ParsedInsn) :
    Prop where
  originalPc : insn.originalPc = pc % 2 ^ 16
  targets : (insn.targets.map fun i => l[i]?.map fun p : Nat => (p : Int)) =
    (byteTargets m start pc).map some

theorem convertInsn_converted {l : List Nat} {t : PcToInsn} (ht : Indexes l 0 (fun _ => none) t)
    (hinsn : InsnAt m start pc insn) (h : convertInsn t insn = .ok insn') :
    Converted m start l pc insn' := by
  have hpc {p i : Nat} (hp : convertPcToInsn t p = .ok i) :
      (l[i]?.map fun p : Nat => (p : Int)) = some (p : Int) := by
    rw [ht.convert hp]
    rfl
  have hmap {ps is : List Nat} (h : ps.mapM (convertPcToInsn t) = .ok is) :
      (is.map fun i => l[i]?.map fun p : Nat => (p : Int)) =
        (ps.map fun p : Nat => (p : Int)).map some := by
    rw [List.map_map]
    exact map_of_mapM hpc h
  obtain ⟨horiginal, htargets⟩ := hinsn
  unfold BytecodeInsn.targets at htargets
  unfold convertInsn at h
  split_ifs at h with htable hlookup hbranch
  · obtain ⟨d, hd, h⟩ := bind_eq_ok.mp h
    obtain ⟨ts, hts, h⟩ := bind_eq_ok.mp h
    cases pure_eq_ok.mp h
    rw [if_pos htable] at htargets
    refine ⟨horiginal, ?_⟩
    rw [← htargets, BytecodeInsn.targets, if_pos htable, List.map_cons, List.map_cons, List.map_cons,
      hpc hd, hmap hts]
  · obtain ⟨d, hd, h⟩ := bind_eq_ok.mp h
    obtain ⟨ts, hts, h⟩ := bind_eq_ok.mp h
    cases pure_eq_ok.mp h
    rw [if_neg htable, if_pos hlookup] at htargets
    refine ⟨horiginal, ?_⟩
    rw [← htargets, BytecodeInsn.targets, if_neg htable, if_pos hlookup, List.map_cons,
      List.map_cons, List.map_cons, hpc hd, hmap hts]
  · obtain ⟨i, hi, h⟩ := bind_eq_ok.mp h
    cases pure_eq_ok.mp h
    rw [if_neg htable, if_neg hlookup, if_pos hbranch] at htargets
    refine ⟨horiginal, ?_⟩
    rw [← htargets, BytecodeInsn.targets, if_neg htable, if_neg hlookup, if_pos hbranch]
    simp [hpc hi]
  · cases pure_eq_ok.mp h
    rw [if_neg htable, if_neg hlookup, if_neg hbranch] at htargets
    refine ⟨horiginal, ?_⟩
    rw [← htargets, BytecodeInsn.targets, if_neg htable, if_neg hlookup, if_neg hbranch]
    rfl

end ClassFile

end BJvm
