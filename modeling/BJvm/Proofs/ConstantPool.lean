import BJvm.ClassFile.ConstantPool

/-!
# Links in the constant pool

Both passes read the same constants (`constantAt`), so when the second pass links an entry, the
first one has left what has the right kind at every index, before and behind it.  The kinds and the
UTF-8 entries then stay (`SameTargets`), and so do the links.
-/

namespace BJvm.ClassFile

open Parsing Parser

/-- A constant as it is in the file. -/
inductive Constant
  | utf8 (bytes : Chars)
  | integer (value : Int)
  | float (bits : Nat)
  | long (value : Int)
  | double (bits : Nat)
  | classInfo (name : Nat)
  | module (name : Nat)
  | package (name : Nat)
  | string (chars : Nat)
  | fieldref (classInfo nat : Nat)
  | methodref (classInfo nat : Nat)
  | interfaceMethodref (classInfo nat : Nat)
  | nameAndType (name descriptor : Nat)
  | methodHandle (kind reference : Nat)
  | methodType (descriptor : Nat)
  | dynamic (bootstrap nat : Nat)
  | invokeDynamic (bootstrap nat : Nat)
deriving DecidableEq, Repr

/-- The constant at an address, and how many bytes it takes. -/
def constantAt (m : ByteMemory) (a : Nat) : Option (Constant × Nat) :=
  match beNat m a 1 with
  | 1 => some (.utf8 (bytesAt m (a + 3) (beNat m (a + 1) 2)), 3 + beNat m (a + 1) 2)
  | 3 => some (.integer (beInt m (a + 1) 4), 5)
  | 4 => some (.float (beNat m (a + 1) 4), 5)
  | 5 => some (.long (beInt m (a + 1) 8), 9)
  | 6 => some (.double (beNat m (a + 1) 8), 9)
  | 7 => some (.classInfo (beNat m (a + 1) 2), 3)
  | 8 => some (.string (beNat m (a + 1) 2), 3)
  | 9 => some (.fieldref (beNat m (a + 1) 2) (beNat m (a + 3) 2), 5)
  | 10 => some (.methodref (beNat m (a + 1) 2) (beNat m (a + 3) 2), 5)
  | 11 => some (.interfaceMethodref (beNat m (a + 1) 2) (beNat m (a + 3) 2), 5)
  | 12 => some (.nameAndType (beNat m (a + 1) 2) (beNat m (a + 3) 2), 5)
  | 15 => some (.methodHandle (beNat m (a + 1) 1) (beNat m (a + 2) 2), 4)
  | 16 => some (.methodType (beNat m (a + 1) 2), 3)
  | 17 => some (.dynamic (beNat m (a + 1) 2) (beNat m (a + 3) 2), 5)
  | 18 => some (.invokeDynamic (beNat m (a + 1) 2) (beNat m (a + 3) 2), 5)
  | 19 => some (.module (beNat m (a + 1) 2), 3)
  | 20 => some (.package (beNat m (a + 1) 2), 3)
  | _ => none

namespace Constant

def kind : Constant → CpKind
  | utf8 _ => .utf8
  | integer _ => .integer
  | float _ => .float
  | long _ => .long
  | double _ => .double
  | classInfo _ => .classInfo
  | module _ => .module
  | package _ => .package
  | string _ => .string
  | fieldref .. => .fieldRef
  | methodref .. => .methodRef
  | interfaceMethodref .. => .interfaceMethodRef
  | nameAndType .. => .nameAndType
  | methodHandle .. => .methodHandle
  | methodType _ => .methodType
  | dynamic .. => .dynamicConstant
  | invokeDynamic .. => .invokeDynamic

end Constant

/-- The constants at an address with their indices, the first of which is `i`; a long or double takes
two indices. -/
def constantsAt (m : ByteMemory) (cpCount : Nat) : Nat → Nat → Nat → List (Nat × Constant)
  | 0, _, _ => []
  | fuel + 1, i, a =>
    if i < cpCount then
      match constantAt m a with
      | some (c, n) =>
        (i, c) :: constantsAt m cpCount fuel (if c.kind.isWide then i + 2 else i + 1) (a + n)
      | none => []
    else []

/-- What a pass has linked. -/
def CpResolutionPass.Linked {α : Type} (pass : CpResolutionPass) (P : α → Prop) (o : Option α) :
    Prop :=
  match pass with
  | .read => o = none
  | .link => ∃ a, o = some a ∧ P a

/-- The entry is what a pass makes of the constant: what it links to is in the pool, and of the right
kind.  A method handle of kind `k` may refer to `handleKinds k`. -/
def ConstantPool.Links (pool : ConstantPool) (pass : CpResolutionPass)
    (handleKinds : Nat → List CpKind) : Constant → CpInfo → Prop
  | .utf8 bytes, info => info = .utf8 bytes
  | .integer value, info => info = .integer value
  | .float bits, info => info = .float bits
  | .long value, info => info = .long value
  | .double bits, info => info = .double bits
  | .classInfo i, info => ∃ name, Name i name ∧ info = .classInfo name
  | .module i, info => ∃ name, Name i name ∧ info = .module name
  | .package i, info => ∃ name, Name i name ∧ info = .package name
  | .string i, info => ∃ chars, Name i chars ∧ info = .string chars
  | .fieldref c n, info => ∃ classInfo nat d, Entry c [.classInfo] classInfo ∧
      Entry n [.nameAndType] nat ∧ info = .field classInfo nat d
  | .methodref c n, info => ∃ classInfo nat d, Entry c [.classInfo] classInfo ∧
      Entry n [.nameAndType] nat ∧ info = .methodref classInfo nat d
  | .interfaceMethodref c n, info => ∃ classInfo nat d, Entry c [.classInfo] classInfo ∧
      Entry n [.nameAndType] nat ∧ info = .interfaceMethodref classInfo nat d
  | .nameAndType n d, info => ∃ name descriptor, Name n name ∧ Name d descriptor ∧
      info = .nameAndType name descriptor
  | .methodHandle k r, info => ∃ reference, Entry r (handleKinds k) reference ∧
      info = .methodHandle k reference
  | .methodType d, info => ∃ descriptor parsed, Name d descriptor ∧
      info = .methodType descriptor parsed
  | .dynamic b n, info => ∃ nat, Entry n [.nameAndType] nat ∧ info = .dynamicConstant b nat
  | .invokeDynamic b n, info => ∃ nat d method, Entry n [.nameAndType] nat ∧
      info = .invokeDynamic b nat d method
where
  Name (i : Nat) : Option Chars → Prop := pass.Linked fun name => pool.info i = .utf8 name
  Entry (i : Nat) (kinds : List CpKind) : Option Nat → Prop :=
    pass.Linked fun r => r = i ∧ (pool.info i).kind ∈ kinds

/-- The kinds that `parse_constant_pool_entry` lets a method handle refer to. -/
def anyMember (_ : Nat) : List CpKind := [.fieldRef, .methodRef, .interfaceMethodRef]

variable {m : ByteMemory} {s s' : Slice} {pool pool' : ConstantPool} {info : CpInfo} {c : Constant}
  {i j count fuel a : Nat} {reason : String} {kinds : List CpKind} {pass : CpResolutionPass}
  {l : List (Nat × Constant)}

/-! ### One entry -/

theorem checkedCpEntry_ok (h : checkedCpEntry pool i kinds reason = .ok info) :
    pool.info i = info ∧ info.kind ∈ kinds := by
  unfold checkedCpEntry at h
  split at h
  · cases h
  · rename_i entry hentry
    unfold checkCpEntry at h
    split_ifs at h with hkind
    · cases h
      unfold ConstantPool.info
      rw [hentry]
      exact ⟨rfl, hkind⟩

theorem checkedRef_ok {r : Nat} (h : checkedRef pool i kinds reason = .ok r) :
    r = i ∧ (pool.info i).kind ∈ kinds := by
  obtain ⟨info, hinfo, rfl⟩ := map_eq_ok.mp h
  obtain ⟨rfl, hkind⟩ := checkedCpEntry_ok hinfo
  exact ⟨rfl, hkind⟩

theorem utf8_of_kind (h : info.kind = .utf8) : info = .utf8 info.utf8Chars := by
  cases info <;> simp [CpInfo.kind, CpInfo.utf8Chars] at h ⊢

theorem checkedGetUtf8_ok {chars : Chars} (h : checkedGetUtf8 pool i reason = .ok chars) :
    pool.info i = .utf8 chars := by
  obtain ⟨info, hinfo, rfl⟩ := map_eq_ok.mp h
  obtain ⟨rfl, hkind⟩ := checkedCpEntry_ok hinfo
  exact utf8_of_kind (List.mem_singleton.mp hkind)

theorem yields_link? {α : Type} {x : Except String α} {o : Option α}
    (h : (pass.link? x).Yields m s o s') : pass.Linked (x = .ok ·) o ∧ s' = s := by
  unfold CpResolutionPass.link? at h
  unfold CpResolutionPass.Linked
  cases pass with
  | read => simpa using h
  | link =>
    simp only [yields_bind, yields_lift, yields_pure] at h
    obtain ⟨a, _, ⟨hx, rfl⟩, rfl, rfl⟩ := h
    exact ⟨⟨a, rfl, hx⟩, rfl⟩

theorem CpResolutionPass.Linked.mono {α : Type} {P Q : α → Prop} {o : Option α}
    (h : pass.Linked P o) (hPQ : ∀ a, P a → Q a) : pass.Linked Q o := by
  unfold CpResolutionPass.Linked at *
  cases pass with
  | read => exact h
  | link =>
    obtain ⟨a, ha, hP⟩ := h
    exact ⟨a, ha, hPQ a hP⟩

theorem yields_name {x : Option Chars}
    (h : (pass.link? (checkedGetUtf8 pool i reason)).Yields m s x s') :
    ConstantPool.Links.Name pool pass i x ∧ s' = s :=
  ⟨(yields_link? h).1.mono fun _ => checkedGetUtf8_ok, (yields_link? h).2⟩

theorem yields_entry {x : Option Nat}
    (h : (pass.link? (checkedRef pool i kinds reason)).Yields m s x s') :
    ConstantPool.Links.Entry pool pass i kinds x ∧ s' = s :=
  ⟨(yields_link? h).1.mono fun _ => checkedRef_ok, (yields_link? h).2⟩

theorem yields_parseClassName {x : Option Chars} (h : (parseClassName pool pass).Yields m s x s') :
    2 ≤ s.len ∧ s' = s.drop 2 ∧ ConstantPool.Links.Name pool pass (beNat m s.bytes 2) x := by
  unfold parseClassName readerNextU16 at h
  simp only [yields_bind, yields_nextNat] at h
  obtain ⟨_, _, ⟨hlen, rfl, rfl⟩, h⟩ := h
  obtain ⟨hx, rfl⟩ := yields_name h
  exact ⟨hlen, rfl, hx⟩

theorem yields_parseMemberRef {x : Option Nat × Option Nat}
    (h : (parseMemberRef pool pass).Yields m s x s') :
    4 ≤ s.len ∧ s' = s.drop 4 ∧
      ConstantPool.Links.Entry pool pass (beNat m s.bytes 2) [.classInfo] x.1 ∧
      ConstantPool.Links.Entry pool pass (beNat m (s.bytes + 2) 2) [.nameAndType] x.2 := by
  unfold parseMemberRef readerNextU16 at h
  simp only [yields_bind, yields_nextNat, yields_pure] at h
  obtain ⟨_, _, ⟨hlen, rfl, rfl⟩, _, _, ⟨hlen', rfl, rfl⟩, _, _, hc, _, _, hn, rfl, rfl⟩ := h
  obtain ⟨hclass, rfl⟩ := yields_entry hc
  obtain ⟨hnat, rfl⟩ := yields_entry hn
  exact ⟨s.add_le_len hlen hlen', s.drop_drop 2 2, hclass, hnat⟩

theorem yields_parseDynamic {x : Nat × Option Nat} (h : (parseDynamic pool pass).Yields m s x s') :
    4 ≤ s.len ∧ s' = s.drop 4 ∧ x.1 = beNat m s.bytes 2 ∧
      ConstantPool.Links.Entry pool pass (beNat m (s.bytes + 2) 2) [.nameAndType] x.2 := by
  unfold parseDynamic readerNextU16 at h
  simp only [yields_bind, yields_nextNat, yields_pure] at h
  obtain ⟨_, _, ⟨hlen, rfl, rfl⟩, _, _, ⟨hlen', rfl, rfl⟩, _, _, hn, rfl, rfl⟩ := h
  obtain ⟨hnat, rfl⟩ := yields_entry hn
  exact ⟨s.add_le_len hlen hlen', s.drop_drop 2 2, rfl, hnat⟩

theorem ConstantPool.Links.kind_eq {handleKinds : Nat → List CpKind}
    (h : pool.Links pass handleKinds c info) : info.kind = c.kind := by
  cases c with
  | utf8 | integer | float | long | double =>
    rw [show info = _ from h]
    rfl
  | classInfo | module | package | string | methodHandle | dynamic =>
    obtain ⟨_, _, rfl⟩ := h
    rfl
  | methodType =>
    obtain ⟨_, _, _, rfl⟩ := h
    rfl
  | nameAndType | invokeDynamic =>
    obtain ⟨_, _, _, _, rfl⟩ := h
    rfl
  | _ =>
    obtain ⟨_, _, _, _, _, rfl⟩ := h
    rfl

/-- What is behind the tag is the constant's. -/
theorem entry_found {n : Nat} (hlen : 1 ≤ s.len) (hn : n ≤ (s.drop 1).len)
    (hs : s' = (s.drop 1).drop n) (h : pool.Links pass anyMember c info) :
    ∃ c' n', some (c, 1 + n) = some (c', n') ∧ n' ≤ s.len ∧ s' = s.drop n' ∧ info.kind = c'.kind ∧
      (info.kind ≠ .utf8 ∨ pass = .read → pool.Links pass anyMember c' info) := by
  rw [Slice.drop_drop] at hs
  exact ⟨c, 1 + n, rfl, s.add_le_len hlen hn, hs, h.kind_eq, fun _ => h⟩

/-- Both passes read the constant that is in the file; the second one skips UTF-8 data. -/
theorem yields_parseConstantPoolEntry (h : (parseConstantPoolEntry pool pass).Yields m s info s') :
    ∃ c n, constantAt m s.bytes = some (c, n) ∧ n ≤ s.len ∧ s' = s.drop n ∧ info.kind = c.kind ∧
      (info.kind ≠ .utf8 ∨ pass = .read → pool.Links pass anyMember c info) := by
  unfold parseConstantPoolEntry readerNextU8 at h
  rw [yields_bind] at h
  obtain ⟨tag, s₁, htag, h⟩ := h
  rw [yields_nextNat] at htag
  obtain ⟨hlen, rfl, rfl⟩ := htag
  unfold constantAt
  split at h
  case h_1 | h_2 | h_3 =>
    rename_i htag
    simp only [htag, yields_bind, yields_pure] at h ⊢
    obtain ⟨_, _, hname, rfl, rfl⟩ := h
    obtain ⟨hn, hs, hname⟩ := yields_parseClassName hname
    exact entry_found hlen hn hs ⟨_, hname, rfl⟩
  case h_4 | h_5 | h_6 =>
    rename_i htag
    simp only [htag, yields_bind, yields_pure] at h ⊢
    obtain ⟨_, _, hmember, rfl, rfl⟩ := h
    obtain ⟨hn, hs, hclass, hnat⟩ := yields_parseMemberRef hmember
    exact entry_found hlen hn hs ⟨_, _, _, hclass, hnat, rfl⟩
  · rename_i htag
    simp only [htag, readerNextU16, yields_bind, yields_nextNat, yields_pure] at h ⊢
    obtain ⟨_, _, ⟨hn, rfl, hs⟩, _, _, hname, rfl, rfl⟩ := h
    obtain ⟨hname', rfl⟩ := yields_name hname
    exact entry_found hlen hn hs ⟨_, hname', rfl⟩
  · rename_i htag
    simp only [htag, readerNextS32, yields_bind, yields_nextInt, yields_pure] at h ⊢
    obtain ⟨_, _, ⟨hn, rfl, hs⟩, rfl, rfl⟩ := h
    exact entry_found hlen hn hs rfl
  · rename_i htag
    simp only [htag, readerNextU32, yields_bind, yields_nextNat, yields_pure] at h ⊢
    obtain ⟨_, _, ⟨hn, rfl, hs⟩, rfl, rfl⟩ := h
    exact entry_found hlen hn hs rfl
  · rename_i htag
    simp only [htag, readerNextS64, yields_bind, yields_nextInt, yields_pure] at h ⊢
    obtain ⟨_, _, ⟨hn, rfl, hs⟩, rfl, rfl⟩ := h
    exact entry_found hlen hn hs rfl
  · rename_i htag
    simp only [htag, readerNextU64, yields_bind, yields_nextNat, yields_pure] at h ⊢
    obtain ⟨_, _, ⟨hn, rfl, hs⟩, rfl, rfl⟩ := h
    exact entry_found hlen hn hs rfl
  · rename_i htag
    simp only [htag, readerNextU16, yields_bind, yields_nextNat, yields_pure] at h ⊢
    obtain ⟨_, _, ⟨hn, rfl, rfl⟩, _, _, ⟨hd, rfl, hs⟩, _, _, hname, _, _, hdescriptor, rfl, rfl⟩ := h
    obtain ⟨hname', rfl⟩ := yields_name hname
    obtain ⟨hdescriptor', rfl⟩ := yields_name hdescriptor
    exact entry_found hlen (Slice.add_le_len _ hn hd) (hs.trans (Slice.drop_drop _ 2 2))
      ⟨_, _, hname', hdescriptor', rfl⟩
  · rename_i htag
    simp only [htag, readerNextU16, yields_bind, yields_nextNat] at h ⊢
    obtain ⟨_, _, ⟨hn, rfl, rfl⟩, h⟩ := h
    have hlen₃ : 3 ≤ s.len := s.add_le_len hlen hn
    cases pass with
    | read =>
      simp only [yields_bind, yields_withSlice, yields_allBytes, yields_pure] at h
      obtain ⟨_, _, ⟨hbytes, rfl, _, rfl, -⟩, rfl, rfl⟩ := h
      exact ⟨_, _, rfl, s.add_le_len hlen₃ hbytes, s.drop_drop 3 _, rfl, fun _ => rfl⟩
    | link =>
      simp only [yields_bind, yields_withSlice, yields_pure] at h
      obtain ⟨_, _, ⟨hbytes, rfl, -⟩, rfl, rfl⟩ := h
      refine ⟨_, _, rfl, s.add_le_len hlen₃ hbytes, s.drop_drop 3 _, rfl, ?_⟩
      simp [CpInfo.kind]
  · rename_i htag
    simp only [htag, readerNextU16, yields_bind, yields_nextNat, yields_pure] at h ⊢
    obtain ⟨_, _, ⟨hk, rfl, rfl⟩, _, _, ⟨hr, rfl, rfl⟩, _, _, hentry, rfl, rfl⟩ := h
    obtain ⟨hentry', rfl⟩ := yields_entry hentry
    exact entry_found hlen (Slice.add_le_len _ hk hr) (Slice.drop_drop _ 1 2) ⟨_, hentry', rfl⟩
  · rename_i htag
    simp only [htag, readerNextU16, yields_bind, yields_nextNat, yields_pure] at h ⊢
    obtain ⟨_, _, ⟨hn, rfl, rfl⟩, _, _, hname, rfl, rfl⟩ := h
    obtain ⟨hname', rfl⟩ := yields_name hname
    exact entry_found hlen hn rfl ⟨_, _, hname', rfl⟩
  · rename_i htag
    simp only [htag, yields_bind, yields_pure] at h ⊢
    obtain ⟨_, _, hdynamic, rfl, rfl⟩ := h
    obtain ⟨hn, hs, hmethod, hnat⟩ := yields_parseDynamic hdynamic
    rw [hmethod]
    exact entry_found hlen hn hs ⟨_, hnat, rfl⟩
  · rename_i htag
    simp only [htag, yields_bind, yields_pure] at h ⊢
    obtain ⟨_, _, hdynamic, rfl, rfl⟩ := h
    obtain ⟨hn, hs, hmethod, hnat⟩ := yields_parseDynamic hdynamic
    rw [hmethod]
    exact entry_found hlen hn hs ⟨_, _, _, hnat, rfl⟩
  · simp at h

/-! ### A pass -/

@[simp] theorem length_storeEntry : (storeEntry pass i info pool).length = pool.length := by
  unfold storeEntry
  split_ifs <;> simp

@[simp] theorem length_invalidate : (invalidate i pool).length = pool.length := by
  simp [invalidate]

theorem info_set {entry : CpEntry} (hi : i < pool.length) :
    ConstantPool.info (pool.set i entry) j = if j = i then entry.info else pool.info j := by
  unfold ConstantPool.info
  by_cases h : j = i
  · subst h
    simp [hi]
  · rw [List.getElem?_set_ne (Ne.symm h), if_neg h]

theorem info_storeEntry (hi : i < pool.length) : (storeEntry pass i info pool).info j =
    if j = i ∧ (info.kind ≠ .utf8 ∨ pass = .read) then info else pool.info j := by
  unfold storeEntry
  split_ifs with hstore hj hj
  · rw [info_set hi, if_pos hj.1]
  · rw [info_set hi, if_neg fun h => hj ⟨h, hstore⟩]
  · exact absurd hj.2 hstore
  · rw [info_set hi]
    split_ifs with h
    · rw [h]
    · rfl

theorem info_invalidate :
    (invalidate i pool).info j = if j = i then .invalid else pool.info j := by
  unfold invalidate ConstantPool.info
  rw [List.getElem?_modify]
  by_cases h : i = j
  · subst h
    cases pool[i]? <;> simp
  · simp [h, Ne.symm h]

/-- What the body of the loop does to the pool. -/
def storeAt (pass : CpResolutionPass) (i : Nat) (info : CpInfo) (pool : ConstantPool) :
    ConstantPool :=
  if info.kind.isWide then invalidate (i + 1) (storeEntry pass i info pool)
  else storeEntry pass i info pool

@[simp] theorem length_storeAt : (storeAt pass i info pool).length = pool.length := by
  unfold storeAt
  split_ifs <;> simp

theorem info_storeAt (hi : i < pool.length) : (storeAt pass i info pool).info j =
    if j = i ∧ (info.kind ≠ .utf8 ∨ pass = .read) then info
    else if j = i + 1 ∧ info.kind.isWide then .invalid else pool.info j := by
  unfold storeAt
  split_ifs with hwide hj hj' hj hj'
  · rw [info_invalidate, if_neg (by omega), info_storeEntry hi, if_pos hj]
  · rw [info_invalidate, if_pos hj'.1]
  · rw [info_invalidate, if_neg (fun h => hj' ⟨h, hwide⟩), info_storeEntry hi, if_neg hj]
  · rw [info_storeEntry hi, if_pos hj]
  · exact absurd hj'.2 hwide
  · rw [info_storeEntry hi, if_neg hj]

/-- The index behind a constant. -/
def Constant.next (c : Constant) (i : Nat) : Nat := if c.kind.isWide then i + 2 else i + 1

theorem yields_runPass_succ (hi : i < count)
    (h : (runPass pass count (fuel + 1) i pool).Yields m s pool' s') :
    ∃ info c n, constantAt m s.bytes = some (c, n) ∧ info.kind = c.kind ∧
      (info.kind ≠ .utf8 ∨ pass = .read → pool.Links pass anyMember c info) ∧
      (runPass pass count fuel (c.next i) (storeAt pass i info pool)).Yields m (s.drop n)
        pool' s' := by
  unfold runPass at h
  rw [if_pos hi, yields_bind] at h
  obtain ⟨info, _, hentry, h⟩ := h
  obtain ⟨c, n, hc, -, rfl, hkind, hlinks⟩ := yields_parseConstantPoolEntry hentry
  refine ⟨info, c, n, hc, hkind, hlinks, ?_⟩
  unfold storeAt Constant.next
  rw [← hkind]
  split_ifs at h ⊢ with hwide
  · exact h
  · exact h

theorem runPass_end (hi : ¬ i < count) :
    runPass pass count fuel i pool = pure pool := by
  cases fuel with
  | zero => rfl
  | succ fuel =>
    unfold runPass
    rw [if_neg hi]

theorem constantsAt_end (hi : ¬ i < count) : constantsAt m count fuel i a = [] := by
  cases fuel with
  | zero => rfl
  | succ fuel =>
    unfold constantsAt
    rw [if_neg hi]

theorem constantsAt_succ {n : Nat} (hi : i < count) (hc : constantAt m a = some (c, n)) :
    constantsAt m count (fuel + 1) i a =
      (i, c) :: constantsAt m count fuel (c.next i) (a + n) := by
  rw [constantsAt, if_pos hi, hc]
  rfl

theorem lt_next : i < c.next i := by
  unfold Constant.next
  split_ifs <;> omega

theorem lookup_constantsAt_of_lt :
    ∀ {fuel i a : Nat}, j < i → (constantsAt m count fuel i a).lookup j = none
  | 0, _, _, _ => rfl
  | fuel + 1, i, a, hj => by
    unfold constantsAt
    split_ifs with hi
    · cases hc : constantAt m a with
      | none => rfl
      | some x =>
        rw [List.lookup_cons, beq_eq_false_iff_ne.mpr (Nat.ne_of_lt hj)]
        exact lookup_constantsAt_of_lt (Nat.lt_trans hj lt_next)
    · rfl

theorem lookup_constantsAt_next (hi : i < count) {n : Nat} (hc : constantAt m a = some (c, n))
    (hj : i < j) : (constantsAt m count (fuel + 1) i a).lookup j =
      (constantsAt m count fuel (c.next i) (a + n)).lookup j := by
  rw [constantsAt_succ hi hc, List.lookup_cons, beq_eq_false_iff_ne.mpr (Nat.ne_of_gt hj)]

/-- A constant has an index of the pool, and a long or double nothing behind it. -/
theorem lookup_constantsAt : ∀ {fuel i a : Nat},
    (constantsAt m count fuel i a).lookup j = some c → i ≤ j ∧ j < count ∧
      (c.kind.isWide → (constantsAt m count fuel i a).lookup (j + 1) = none)
  | 0, _, _, h => by cases h
  | fuel + 1, i, a, h => by
    by_cases hi : i < count
    · cases hc : constantAt m a with
      | none =>
        rw [constantsAt, if_pos hi, hc] at h
        cases h
      | some x =>
        obtain ⟨c', n⟩ := x
        have hi' : i < c'.next i := lt_next
        rw [constantsAt_succ hi hc] at h ⊢
        by_cases hj : j = i
        · rw [hj, List.lookup_cons_self, Option.some.injEq] at h
          refine ⟨by omega, by omega, fun hwide => ?_⟩
          rw [List.lookup_cons, beq_eq_false_iff_ne.mpr (by omega)]
          refine lookup_constantsAt_of_lt ?_
          rw [Constant.next, h, if_pos hwide]
          omega
        · rw [List.lookup_cons, beq_eq_false_iff_ne.mpr hj] at h
          obtain ⟨hle, hlt, hwide⟩ := lookup_constantsAt h
          refine ⟨by omega, hlt, fun h => ?_⟩
          rw [List.lookup_cons, beq_eq_false_iff_ne.mpr (by omega)]
          exact hwide h
    · rw [constantsAt_end hi] at h
      cases h

/-- The entry has the kind of the constant, and the bytes of a UTF-8 one. -/
structure Stands (c : Option Constant) (info : CpInfo) : Prop where
  kind : info.kind = c.elim .invalid Constant.kind
  utf8 : ∀ {bytes}, c = some (.utf8 bytes) → info = .utf8 bytes

theorem eq_invalid (h : info.kind = .invalid) : info = .invalid := by
  cases info <;> simp [CpInfo.kind] at h ⊢

theorem stands_none : Stands none .invalid :=
  ⟨rfl, by simp⟩

theorem Stands.of_links {handleKinds : Nat → List CpKind}
    (h : pool.Links pass handleKinds c info) : Stands (some c) info := by
  refine ⟨h.kind_eq, fun hc => ?_⟩
  cases hc
  exact h

theorem Stands.utf8_iff {o : Option Constant} {bytes : Chars} (h : Stands o info) :
    info = .utf8 bytes ↔ o = some (.utf8 bytes) := by
  refine ⟨fun hinfo => ?_, h.utf8⟩
  have hkind : CpKind.utf8 = o.elim .invalid Constant.kind := by rw [← h.kind, hinfo, CpInfo.kind]
  cases o with
  | none => cases hkind
  | some c =>
    cases c with
    | utf8 bytes' =>
      rw [h.utf8 rfl] at hinfo
      cases hinfo
      rfl
    | _ => cases hkind

/-- The first pass leaves an entry for each constant. -/
theorem runPass_read : ∀ {fuel i : Nat} {pool : ConstantPool} {s : Slice},
    (runPass .read count fuel i pool).Yields m s pool' s' → count < pool.length →
    (∀ j, i ≤ j → pool.info j = .invalid) → count < pool'.length ∧
      (∀ j < i, pool'.info j = pool.info j) ∧
      ∀ j, i ≤ j → Stands ((constantsAt m count fuel i s.bytes).lookup j) (pool'.info j)
  | 0, i, pool, s, h, hlen, hpool => by
    obtain ⟨rfl, -⟩ := yields_pure.mp h
    refine ⟨hlen, fun j _ => rfl, fun j hj => ?_⟩
    rw [hpool j hj]
    exact stands_none
  | fuel + 1, i, pool, s, h, hlen, hpool => by
    by_cases hi : i < count
    · obtain ⟨info, c, n, hc, hkind, hlinks, h⟩ := yields_runPass_succ hi h
      have hi' : i < c.next i := lt_next
      obtain ⟨hlen', hsame, hrest⟩ := runPass_read h (by rwa [length_storeAt]) fun j hj => by
        rw [info_storeAt (by omega), if_neg (by omega), hpool j (by omega)]
        split_ifs <;> rfl
      refine ⟨hlen', fun j hj => ?_, fun j hj => ?_⟩
      · rw [hsame j (by omega), info_storeAt (by omega), if_neg (by omega), if_neg (by omega)]
      · rcases Nat.eq_or_lt_of_le hj with rfl | hj
        · rw [hsame i hi', info_storeAt (by omega), if_pos ⟨rfl, .inr rfl⟩, constantsAt_succ hi hc,
            List.lookup_cons_self]
          exact .of_links (hlinks (.inr rfl))
        · rw [lookup_constantsAt_next hi hc hj]
          rcases Nat.lt_or_ge j (c.next i) with hj' | hj'
          · rw [lookup_constantsAt_of_lt hj', hsame j hj', info_storeAt (by omega),
              if_neg (by omega), hpool j (by omega)]
            split_ifs <;> exact stands_none
          · exact hrest j hj'
    · rw [runPass_end hi] at h
      obtain ⟨rfl, -⟩ := yields_pure.mp h
      rw [constantsAt_end hi]
      refine ⟨hlen, fun j _ => rfl, fun j hj => ?_⟩
      rw [hpool j hj]
      exact stands_none

/-- A constant for each index that has one. -/
abbrev Slots := Nat → Option Constant

/-- What the pool stands for. -/
def ConstantPool.StandsFor (pool : ConstantPool) (slots : Slots) : Prop :=
  ∀ j, Stands (slots j) (pool.info j)

theorem ConstantPool.Links.transfer {handleKinds : Nat → List CpKind} {slots : Slots}
    (h : pool.Links pass handleKinds c info) (hpool : pool.StandsFor slots)
    (hpool' : pool'.StandsFor slots) : pool'.Links pass handleKinds c info := by
  have hname {i o} (h : Links.Name pool pass i o) : Links.Name pool' pass i o :=
    h.mono fun _ hutf8 => (hpool' i).utf8_iff.mpr ((hpool i).utf8_iff.mp hutf8)
  have hentry {i kinds o} (h : Links.Entry pool pass i kinds o) :
      Links.Entry pool' pass i kinds o := by
    refine h.mono fun r hr => ?_
    rw [(hpool i).kind, ← (hpool' i).kind] at hr
    exact hr
  cases c with
  | utf8 | integer | float | long | double => exact h
  | classInfo | module | package | string =>
    obtain ⟨_, h, rfl⟩ := h
    exact ⟨_, hname h, rfl⟩
  | methodHandle | dynamic =>
    obtain ⟨_, h, rfl⟩ := h
    exact ⟨_, hentry h, rfl⟩
  | methodType =>
    obtain ⟨_, _, h, rfl⟩ := h
    exact ⟨_, _, hname h, rfl⟩
  | nameAndType =>
    obtain ⟨_, _, h, h', rfl⟩ := h
    exact ⟨_, _, hname h, hname h', rfl⟩
  | invokeDynamic =>
    obtain ⟨_, _, _, h, rfl⟩ := h
    exact ⟨_, _, _, hentry h, rfl⟩
  | _ =>
    obtain ⟨_, _, _, h, h', rfl⟩ := h
    exact ⟨_, _, _, hentry h, hentry h', rfl⟩

/-- The second pass links an entry for each constant. -/
theorem runPass_link {slots : Slots} : ∀ {fuel i : Nat} {pool : ConstantPool} {s : Slice},
    (runPass .link count fuel i pool).Yields m s pool' s' → count < pool.length →
    pool.StandsFor slots →
    (∀ j, i ≤ j → slots j = (constantsAt m count fuel i s.bytes).lookup j) →
    pool'.StandsFor slots ∧ (∀ j < i, pool'.info j = pool.info j) ∧
      ∀ j c, i ≤ j → slots j = some c → pool'.Links .link anyMember c (pool'.info j)
  | 0, i, pool, s, h, hlen, hpool, hslots => by
    obtain ⟨rfl, -⟩ := yields_pure.mp h
    refine ⟨hpool, fun j _ => rfl, fun j c hj hc => ?_⟩
    rw [hslots j hj] at hc
    cases hc
  | fuel + 1, i, pool, s, h, hlen, hpool, hslots => by
    by_cases hi : i < count
    · obtain ⟨info, c, n, hc, hkind, hlinks, h⟩ := yields_runPass_succ hi h
      have hi' : i < c.next i := lt_next
      have hslot : slots i = some c := by
        rw [hslots i (Nat.le_refl i), constantsAt_succ hi hc, List.lookup_cons_self]
      have hnext (j) (hj : i < j) :
          slots j = (constantsAt m count fuel (c.next i) (s.bytes + n)).lookup j := by
        rw [hslots j (Nat.le_of_lt hj), lookup_constantsAt_next hi hc hj]
      have hgap (j) (hj : i < j) (hj' : j < c.next i) : slots j = none := by
        rw [hnext j hj, lookup_constantsAt_of_lt hj']
      have hstored : (storeAt .link i info pool).StandsFor slots := fun j => by
        rw [info_storeAt (by omega)]
        by_cases hj : j = i ∧ (info.kind ≠ .utf8 ∨ CpResolutionPass.link = .read)
        · rw [if_pos hj, hj.1, hslot]
          exact .of_links (hlinks hj.2)
        · rw [if_neg hj]
          by_cases hwide : j = i + 1 ∧ info.kind.isWide
          · have hj' : j < c.next i := by
              rw [Constant.next, if_pos (hkind ▸ hwide.2)]
              omega
            rw [if_pos hwide, hgap j (by omega) hj']
            exact stands_none
          · rw [if_neg hwide]
            exact hpool j
      obtain ⟨hpool', hsame, hrest⟩ := runPass_link h (by rwa [length_storeAt]) hstored
        fun j hj => hnext j (by omega)
      refine ⟨hpool', fun j hj => ?_, fun j c' hj hc' => ?_⟩
      · rw [hsame j (by omega), info_storeAt (by omega), if_neg (by omega), if_neg (by omega)]
      · rcases Nat.lt_or_ge j (c.next i) with hj' | hj'
        · rcases Nat.eq_or_lt_of_le hj with rfl | hj
          · rw [hslot] at hc'
            cases hc'
            by_cases hutf8 : info.kind = .utf8
            · rw [hkind] at hutf8
              cases c with
              | utf8 bytes => exact (hpool' i).utf8 hslot
              | _ => cases hutf8
            · rw [hsame i hi', info_storeAt (by omega), if_pos ⟨rfl, .inl hutf8⟩]
              exact (hlinks (.inl hutf8)).transfer hpool hpool'
          · rw [hgap j hj hj'] at hc'
            cases hc'
        · exact hrest j c' hj' hc'
    · rw [runPass_end hi] at h
      obtain ⟨rfl, -⟩ := yields_pure.mp h
      rw [constantsAt_end hi] at hslots
      refine ⟨hpool, fun j _ => rfl, fun j c hj hc => ?_⟩
      rw [hslots j hj] at hc
      cases hc

/-! ### The whole pool -/

/-- The pool is what the constants of the file stand for, and everything in it refers to an entry of
the required kind. -/
structure PoolLinked (slots : Slots) (handleKinds : Nat → List CpKind) (pool : ConstantPool) :
    Prop where
  entries : pool.StandsFor slots
  links : ∀ {i c}, slots i = some c → pool.Links .link handleKinds c (pool.info i)

/-- Nothing is lost of the kind and of the links. -/
structure SameLinks (info info' : CpInfo) : Prop where
  kind : info'.kind = info.kind
  links : ∀ {pool : ConstantPool} {pass : CpResolutionPass} {handleKinds : Nat → List CpKind}
    {c : Constant}, pool.Links pass handleKinds c info → pool.Links pass handleKinds c info'

theorem SameLinks.refl (info : CpInfo) : SameLinks info info :=
  ⟨rfl, id⟩

theorem PoolLinked.refine {slots : Slots} {handleKinds : Nat → List CpKind}
    (h : PoolLinked slots handleKinds pool)
    (hsame : ∀ j, SameLinks (pool.info j) (pool'.info j)) : PoolLinked slots handleKinds pool' := by
  have hstands : pool'.StandsFor slots := fun j => by
    cases hj : slots j with
    | none =>
      rw [eq_invalid ((hsame j).kind.trans ((h.entries j).kind.trans (by rw [hj]; rfl)))]
      exact stands_none
    | some c => exact .of_links ((hsame j).links (h.links hj))
  exact ⟨hstands, fun hi => ((hsame _).links (h.links hi)).transfer h.entries hstands⟩

theorem finishConstantPoolEntry_sameLinks {info' : CpInfo}
    (h : finishConstantPoolEntry pool info = .ok info') : SameLinks info info' := by
  unfold finishConstantPoolEntry at h
  split at h
  case h_6 => exact pure_eq_ok.mp h ▸ .refl _
  all_goals
    obtain ⟨d, -, h⟩ := bind_eq_ok.mp h
    cases pure_eq_ok.mp h
    refine ⟨rfl, fun {pool pass handleKinds c} hlinks => ?_⟩
    cases c <;> cases hlinks.kind_eq
  case h_2 =>
    obtain ⟨_, _, _, hnat, hinfo⟩ := hlinks
    cases hinfo
    exact ⟨_, _, _, hnat, rfl⟩
  case h_5 =>
    obtain ⟨_, _, hname, hinfo⟩ := hlinks
    cases hinfo
    exact ⟨_, _, hname, rfl⟩
  all_goals
    obtain ⟨_, _, _, hclass, hnat, hinfo⟩ := hlinks
    cases hinfo
    exact ⟨_, _, _, hclass, hnat, rfl⟩

/-- A loop over the pool that keeps the links of each entry. -/
theorem PoolLinked.mapM {slots : Slots} {handleKinds : Nat → List CpKind}
    {f : CpInfo → Except String CpInfo} (h : PoolLinked slots handleKinds pool)
    (hf : ∀ {info info'}, f info = .ok info' → SameLinks info info')
    (hpool' : pool.mapM (fun entry => (f entry.info).map fun info => { entry with info }) =
      .ok pool') : PoolLinked slots handleKinds pool' := by
  refine h.refine fun j => ?_
  have hj := mapM_eq_ok hpool' j
  unfold ConstantPool.info
  cases hentry : pool[j]? with
  | none =>
    rw [hentry] at hj
    cases hentry' : pool'[j]? with
    | none => exact .refl _
    | some entry' => simp [hentry'] at hj
  | some entry =>
    rw [hentry] at hj
    cases hentry' : pool'[j]? with
    | none => simp [hentry'] at hj
    | some entry' =>
      rw [hentry'] at hj
      obtain ⟨info, hinfo, rfl⟩ := map_eq_ok.mp (Option.some.inj hj)
      exact hf hinfo

/-- The constants of the file, whose number is in the two bytes at an address. -/
def fileSlots (m : ByteMemory) (a : Nat) : Slots :=
  fun j => (constantsAt m (beNat m a 2) (beNat m a 2) 1 (a + 2)).lookup j

theorem parseConstantPool_linked (h : parseConstantPool.Yields m s pool s') :
    PoolLinked (fileSlots m s.bytes) anyMember pool := by
  unfold parseConstantPool readerNextU16 at h
  simp only [yields_bind, yields_nextNat, yields_lookahead, yields_lift] at h
  obtain ⟨_, _, ⟨-, rfl, rfl⟩, pool₁, _, ⟨rfl, s₁, hread⟩, pool₂, s₂, hlink, hfinish, rfl⟩ := h
  have hinit (j) : (initConstantPool (beNat m s.bytes 2)).info j = .invalid := by
    unfold initConstantPool ConstantPool.info
    rw [List.getElem?_replicate]
    split_ifs <;> rfl
  have hlen : beNat m s.bytes 2 < (initConstantPool (beNat m s.bytes 2)).length := by
    unfold initConstantPool
    rw [List.length_replicate]
    exact Nat.lt_succ_self _
  obtain ⟨hlen₁, hzero, hread⟩ := runPass_read hread hlen fun j _ => hinit j
  have hstands : pool₁.StandsFor (fileSlots m s.bytes) := fun j => by
    rcases Nat.eq_zero_or_pos j with rfl | hj
    · rw [hzero 0 Nat.one_pos, hinit, fileSlots, lookup_constantsAt_of_lt Nat.one_pos]
      exact stands_none
    · exact hread j hj
  obtain ⟨hstands', -, hlinks⟩ := runPass_link hlink hlen₁ hstands fun j _ => rfl
  have hlinked : PoolLinked (fileSlots m s.bytes) anyMember pool₂ := by
    refine ⟨hstands', fun {i c} hi => hlinks i c ?_ hi⟩
    by_contra h0
    rw [fileSlots, lookup_constantsAt_of_lt (by omega)] at hi
    cases hi
  exact hlinked.mapM finishConstantPoolEntry_sameLinks hfinish

theorem fileSlots_range (h : fileSlots m a j = some c) : 0 < j ∧ j < beNat m a 2 :=
  ⟨(lookup_constantsAt h).1, (lookup_constantsAt h).2.1⟩

theorem fileSlots_wide (h : fileSlots m a j = some c) (hwide : c.kind.isWide) :
    fileSlots m a (j + 1) = none :=
  (lookup_constantsAt h).2.2 hwide

end BJvm.ClassFile
