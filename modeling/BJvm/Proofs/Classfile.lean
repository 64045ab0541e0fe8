import BJvm.ClassFile.ParseClassfile
import BJvm.Proofs.ConstantPool

/-!
# References in a class file

A parser cannot read outside its slice, and what `parse_classfile` does behind the constant pool
keeps the links there.  So the references are what the file must have, up to the kinds that method
handles refer to, which are not compared with the kinds of the handles.
-/

namespace BJvm.ClassFile

open Parsing Parser

variable {m : ByteMemory} {s s' : Slice} {pool pool' : ConstantPool} {cf : ParsedClass}

/-! ### The fuel of attributes -/

theorem parseAttributeData_agree {n : Nat} {nested nested' : Parser Attribute} {name : Chars}
    (h : AgreeBelow n nested nested') :
    AgreeBelow n (parseAttributeData pool nested name) (parseAttributeData pool nested' name) := by
  unfold parseAttributeData
  by_cases hcode : utf8Equals name "Code"
  · rw [if_pos hcode, if_pos hcode]
    refine AgreeBelow.bind ?_ fun _ => .refl _ _
    unfold parseCodeAttribute
    refine .behind _ fun _ => .behind _ fun _ => .behind _ fun _ => .behind _ fun _ => ?_
    refine .behind _ fun _ => .behind _ fun _ => .behind _ fun _ => .behind _ fun _ => ?_
    exact .behind _ fun count => (h.times count).bind fun _ => .refl _ _
  · rw [if_neg hcode, if_neg hcode]
    exact .refl _ _

theorem parseAttribute_succ : ∀ fuel,
    AgreeBelow fuel (parseAttribute pool fuel) (parseAttribute pool (fuel + 1))
  | 0 => fun _ _ h => absurd h (Nat.not_lt_zero _)
  | fuel + 1 => by
    unfold parseAttribute
    refine (AgreeBelow.refl _ _).shorten (k := 1) (fun h => ?_) fun _ => ?_
    · unfold nextUtf8 readerNextU16 at h
      simp only [yields_bind, yields_nextNat, yields_lift] at h
      obtain ⟨_, _, ⟨hlen, rfl, rfl⟩, -, rfl⟩ := h
      rw [Slice.len_drop]
      omega
    · refine .behind _ fun length => AgreeBelow.bind ?_ fun _ => .refl _ _
      exact (parseAttributeData_agree (parseAttribute_succ fuel)).withSlice

/-- Attributes are shorter than what they are in, so the length of the file is enough fuel. -/
theorem parseAttribute_fuel {fuel fuel' : Nat} (h : fuel ≤ fuel') :
    AgreeBelow fuel (parseAttribute pool fuel) (parseAttribute pool fuel') := by
  induction h with
  | refl => exact .refl _ _
  | step h ih => exact fun m s hs =>
      (ih m s hs).trans (parseAttribute_succ _ m s (Nat.lt_of_lt_of_le hs h))

/-! ### What the links are -/

theorem linkBootstrapMethod_sameLinks {attributes : List Attribute} {info info' : CpInfo}
    (h : linkBootstrapMethod attributes info = .ok info') : SameLinks info info' := by
  unfold linkBootstrapMethod at h
  split at h
  · split at h
    · cases h
    · split_ifs at h with hindex
      cases h
      refine ⟨rfl, fun {pool pass handleKinds c} hlinks => ?_⟩
      cases c <;> cases hlinks.kind_eq
      obtain ⟨_, _, _, hnat, hinfo⟩ := hlinks
      cases hinfo
      exact ⟨_, _, _, hnat, rfl⟩
  · cases h
    exact .refl _

/-- The constants of the class file in a slice; the pool is behind the magic number and the
versions. -/
def classSlots (m : ByteMemory) (s : Slice) : Slots := fileSlots m (s.bytes + 8)

/-- The major version of the class file. -/
def majorVersion (m : ByteMemory) (s : Slice) : Nat := beNat m (s.bytes + 6) 2

/-- The kinds that a method handle of kind `k` refers to, in class files of a version. -/
def requiredKinds (major k : Nat) : List CpKind :=
  if 1 ≤ k ∧ k ≤ 4 then [.fieldRef]
  else if k = 5 ∨ k = 8 then [.methodRef]
  else if k = 6 ∨ k = 7 then if major < 52 then [.methodRef] else [.methodRef, .interfaceMethodRef]
  else if k = 9 then [.interfaceMethodRef]
  else []

theorem parseClassfile_linked (h : parseClassfile.Yields m s cf s') :
    PoolLinked (classSlots m s) anyMember cf.pool := by
  unfold parseClassfile readerNextU32 readerNextU16 at h
  simp only [yields_bind, yields_remaining, yields_nextNat] at h
  obtain ⟨_, _, ⟨rfl, rfl⟩, magic, _, ⟨-, -, rfl⟩, h⟩ := h
  split_ifs at h
  · exact absurd h yields_fail
  · simp only [yields_bind, yields_nextNat, yields_lift] at h
    obtain ⟨_, _, ⟨-, -, rfl⟩, _, _, ⟨-, -, rfl⟩, pool, _, hpool, h⟩ := h
    obtain ⟨_, _, -, _, _, -, _, _, -, _, _, -, _, _, -, _, _, -, _, _, -, _, _, -, h⟩ := h
    obtain ⟨_, _, -, _, _, -, _, _, -, _, _, -, _, _, -, h⟩ := h
    split_ifs at h
    · exact absurd h yields_fail
    · simp only [yields_bind, yields_lift, yields_pure] at h
      obtain ⟨_, _, ⟨hlink, rfl⟩, rfl, rfl⟩ := h
      have hlinked := parseConstantPool_linked hpool
      rw [Slice.drop_drop, Slice.drop_drop, Slice.bytes_drop] at hlinked
      exact hlinked.mapM linkBootstrapMethod_sameLinks hlink

/-- The kind of the constant at an index. -/
def Slots.kind (slots : Slots) (i : Nat) : CpKind := (slots i).elim .invalid Constant.kind

def HandleMatches (slots : Slots) (major : Nat) : Constant → Prop
  | .methodHandle k r => slots.kind r ∈ requiredKinds major k
  | _ => True

instance decidableHandleMatches (slots : Slots) (major : Nat) (c : Constant) :
    Decidable (HandleMatches slots major c) := by
  unfold HandleMatches
  split <;> infer_instance

/-- Every method handle of the file refers to an entry of the kind that its own kind requires. -/
def HandlesMatch (m : ByteMemory) (s : Slice) : Prop :=
  ∀ i < beNat m (s.bytes + 8) 2, ∀ c ∈ classSlots m s i,
    HandleMatches (classSlots m s) (majorVersion m s) c

instance decidableHandlesMatch (m : ByteMemory) (s : Slice) : Decidable (HandlesMatch m s) := by
  unfold HandlesMatch
  infer_instance

/-- Every reference of the pool points to an entry of the required kind, which has an index of the
pool and is not behind a long or double. -/
structure ReferencesRight (m : ByteMemory) (s : Slice) (pool : ConstantPool) : Prop where
  linked : PoolLinked (classSlots m s) (requiredKinds (majorVersion m s)) pool
  inRange : ∀ {i c}, classSlots m s i = some c → 0 < i ∧ i < beNat m (s.bytes + 8) 2
  wide : ∀ {i c}, classSlots m s i = some c → c.kind.isWide → classSlots m s (i + 1) = none

theorem ReferencesRight.handlesMatch (h : ReferencesRight m s pool) : HandlesMatch m s := by
  intro i _ c hi
  cases c with
  | methodHandle k r =>
    obtain ⟨_, ⟨r', -, rfl, hr⟩, -⟩ := h.linked.links hi
    rw [(h.linked.entries r').kind] at hr
    exact hr
  | _ => trivial

/-- Parsing reads only inside the buffer; and when it succeeds, the references are right if and only
if the method handles are. -/
theorem references_iff (m : ByteMemory) (s : Slice) :
    (∀ a ∈ (parseClassfile.run m s).1, s.Contains a) ∧
      ∀ {cf s'}, parseClassfile.Yields m s cf s' →
        (ReferencesRight m s cf.pool ↔ HandlesMatch m s) := by
  refine ⟨parseClassfile.reads m s, fun {cf s'} h => ?_⟩
  obtain ⟨hentries, hlinks⟩ := parseClassfile_linked h
  refine ⟨ReferencesRight.handlesMatch, fun hmatch => ?_⟩
  refine ⟨⟨hentries, fun {i c} hi => ?_⟩, fun h => fileSlots_range h, fun h => fileSlots_wide h⟩
  have hlink := hlinks hi
  have hc := hmatch i (fileSlots_range hi).2 c hi
  cases c with
  | methodHandle k r =>
    obtain ⟨_, ⟨_, rfl, heq, -⟩, hinfo⟩ := hlink
    rw [heq] at hinfo
    exact ⟨_, ⟨r, rfl, rfl, (hentries r).kind ▸ hc⟩, hinfo⟩
  | _ => exact hlink

/-! ### A class file whose method handle refers to a method -/

/-- The class file of `java/lang/Object` with a method reference and a method handle of a kind. -/
def handleFile (kind : UInt8) : List UInt8 :=
  [0xca, 0xfe, 0xba, 0xbe, 0, 0, 0, 61, 0, 8,
    7, 0, 2,
    1, 0, 16, 106, 97, 118, 97, 47, 108, 97, 110, 103, 47, 79, 98, 106, 101, 99, 116,
    10, 0, 1, 0, 4,
    12, 0, 5, 0, 6,
    1, 0, 1, 97,
    1, 0, 3, 40, 41, 86,
    15, kind, 0, 3,
    0, 0x21, 0, 1, 0, 0, 0, 0, 0, 0, 0, 0, 0, 0]

theorem references_methodHandle : ∃ cf s',
    parseClassfile.Yields (memoryOf (handleFile 5)) (sliceOf (handleFile 5)) cf s' ∧
      ReferencesRight (memoryOf (handleFile 5)) (sliceOf (handleFile 5)) cf.pool := by
  have hok : (parseClassfile.run (memoryOf (handleFile 5)) (sliceOf (handleFile 5))).2.isOk := by
    decide
  obtain ⟨cf, s', h⟩ := exists_yields hok
  exact ⟨cf, s', h, ((references_iff _ _).2 h).mpr (by decide)⟩

/-- A handle of the kind `getField` may refer to a method. -/
theorem fieldHandle_refers_to_method : ∃ cf s',
    parseClassfile.Yields (memoryOf (handleFile 1)) (sliceOf (handleFile 1)) cf s' ∧
      ¬ ReferencesRight (memoryOf (handleFile 1)) (sliceOf (handleFile 1)) cf.pool := by
  have hok : (parseClassfile.run (memoryOf (handleFile 1)) (sliceOf (handleFile 1))).2.isOk := by
    decide
  obtain ⟨cf, s', h⟩ := exists_yields hok
  exact ⟨cf, s', h, fun hright => absurd hright.handlesMatch (by decide)⟩

end BJvm.ClassFile
