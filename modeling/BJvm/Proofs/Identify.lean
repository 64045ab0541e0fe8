import BJvm.ClassFile.Descriptors
import BJvm.Linkage.FunctionTables
import BJvm.Linkage.Identify

/-!
# The keys of methods

The scratch string gets the length of the key that it holds, so the next key is cut to one more than
the last method's size.
-/

namespace BJvm.Linkage

open CBuffers StackString

variable {buffer : List UInt8} {m m' : MethodIdentity} {ms : List MethodIdentity} {cap : Nat}

/-! ### One call -/

/-- What fits of a key into a scratch string of the given length. -/
def MethodIdentity.cut (cap : Nat) (m : MethodIdentity) : List UInt8 :=
  (cstr m.name).take cap ++
    ':'.toUInt8 :: (cstr m.unparsedDescriptor).take (cap - ((cstr m.name).take cap).length)

theorem MethodIdentity.length_cut_le : (m.cut cap).length ≤ cap + 1 := by
  simp only [cut, List.length_append, List.length_cons, List.length_take]
  omega

/-- The call writes one byte more than the length of the scratch string. -/
theorem identify_of_le (hbuffer : buffer.length = 1025) (hcap : cap ≤ 1024) :
    ∃ buffer', m.identify buffer ⟨0, cap⟩ = some (buffer', ⟨0, (m.cut cap).length⟩) ∧
      buffer'.length = 1025 ∧ buffer'.take (m.cut cap).length = m.cut cap := by
  have hname : ((cstr m.name).take cap).length ≤ cap := by
    rw [List.length_take]
    exact Nat.min_le_left _ _
  obtain ⟨b₁, h₁, hlength₁, htake₁⟩ := stpncpy_fits m.name
    (show 0 + cap ≤ buffer.length by omega)
  rw [Nat.zero_add] at h₁ htake₁
  obtain ⟨b₂, h₂, hlength₂, htake₂⟩ := write_fits
    (show ((cstr m.name).take cap).length + [':'.toUInt8].length ≤ b₁.length by
      rw [List.length_singleton]
      omega)
  rw [List.length_singleton] at htake₂
  obtain ⟨b₃, h₃, hlength₃, htake₃⟩ := stpncpy_fits m.unparsedDescriptor
    (show ((cstr m.name).take cap).length + 1 + (cap - ((cstr m.name).take cap).length) ≤
      b₂.length by omega)
  have hsize : 0 + cap + 1 - (((cstr m.name).take cap).length + 1) =
      cap - ((cstr m.name).take cap).length := by omega
  have hcut : ((cstr m.name).take cap).length + 1 +
      ((cstr m.unparsedDescriptor).take (cap - ((cstr m.name).take cap).length)).length =
      (m.cut cap).length := by
    rw [MethodIdentity.cut, List.length_append, List.length_cons]
    omega
  refine ⟨b₃, ?_, by omega, ?_⟩
  · simp only [MethodIdentity.identify, h₁, Option.bind_eq_bind, Option.bind_some, h₂, hsize, h₃, hcut]
    rfl
  · rw [hcut] at htake₃
    rw [htake₃, htake₂, htake₁, List.take_zero, List.nil_append, List.append_assoc,
      MethodIdentity.cut]
    rfl

/-- A scratch string longer than the one that the buffer was made for. -/
theorem identify_of_lt (hbuffer : buffer.length = 1025) (hcap : 1024 < cap) :
    m.identify buffer ⟨0, cap⟩ = none := by
  have hname : ((cstr m.name).take cap).length ≤ cap := by
    rw [List.length_take]
    exact Nat.min_le_left _ _
  rcases Nat.lt_or_ge 1025 cap with hlong | hcap'
  · have hnone : stpncpy buffer 0 m.name cap = none := stpncpy_eq_none (by omega) (by omega)
    simp only [MethodIdentity.identify, hnone, Option.bind_eq_bind, Option.bind_none]
  obtain ⟨b₁, h₁, hlength₁, -⟩ := stpncpy_fits m.name (show 0 + cap ≤ buffer.length by omega)
  rw [Nat.zero_add] at h₁
  simp only [MethodIdentity.identify, h₁, Option.bind_eq_bind, Option.bind_some]
  rcases hcolon : write b₁ ((cstr m.name).take cap).length [':'.toUInt8] with _ | b₂
  · rfl
  · have hlength₂ := length_write hcolon
    have hle := (write_eq_some hcolon).2.resolve_left (List.cons_ne_nil _ _)
    rw [List.length_singleton] at hle
    have hnone : stpncpy b₂ (((cstr m.name).take cap).length + 1) m.unparsedDescriptor
        (0 + cap + 1 - (((cstr m.name).take cap).length + 1)) = none :=
      stpncpy_eq_none (by omega) (by omega)
    simp only [Option.bind_some, hnone, Option.bind_none]

/-- All of the key, where it fits and C sees the whole name and descriptor. -/
theorem MethodIdentity.cut_eq_key_iff :
    m.cut cap = m.key ↔ m.size ≤ cap ∧ 0 ∉ m.name ∧ 0 ∉ m.unparsedDescriptor := by
  rw [cut, key, size]
  constructor
  · intro h
    have hlength := congrArg List.length h
    simp only [List.length_append, List.length_cons, List.length_take] at hlength
    have hname := length_cstr_le m.name
    have hdescriptor := length_cstr_le m.unparsedDescriptor
    exact ⟨by omega, cstr_eq_self_iff.mp (cstr_eq_self_of_length (by omega)),
      cstr_eq_self_iff.mp (cstr_eq_self_of_length (by omega))⟩
  · rintro ⟨hsize, hname, hdescriptor⟩
    rw [cstr_eq_self_iff.mpr hname, cstr_eq_self_iff.mpr hdescriptor,
      List.take_of_length_le (by omega), List.take_of_length_le (by omega)]

theorem MethodIdentity.length_key (m : MethodIdentity) : m.key.length = m.size + 1 := by
  rw [key, size, List.length_append, List.length_cons]
  omega

/-! ### The sequence of calls -/

theorem identifyAll_cons (hbuffer : buffer.length = 1025) (hcap : cap ≤ 1024)
    (m : MethodIdentity) (ms : List MethodIdentity) :
    ∃ buffer', buffer'.length = 1025 ∧ identifyAll buffer ⟨0, cap⟩ (m :: ms) =
      (identifyAll buffer' ⟨0, (m.cut cap).length⟩ ms).map (m.cut cap :: ·) := by
  obtain ⟨buffer', hidentify, hlength, htake⟩ := identify_of_le (m := m) hbuffer hcap
  have hkey : (⟨0, (m.cut cap).length⟩ : Slice).chars buffer' = some (m.cut cap) := by
    have hle : (m.cut cap).length ≤ buffer'.length :=
      MethodIdentity.length_cut_le.trans (by omega)
    rw [Slice.chars, read_zero hle, htake]
  refine ⟨buffer', hlength, ?_⟩
  rw [identifyAll, hidentify]
  simp only [Option.bind_eq_bind, Option.bind_some, hkey]
  cases identifyAll buffer' ⟨0, (m.cut cap).length⟩ ms <;> rfl

/-- The keys that a scratch string of the given length holds, one after the other. -/
def cutKeys : Nat → List MethodIdentity → List (List UInt8)
  | _, [] => []
  | cap, m :: ms => m.cut cap :: cutKeys (m.cut cap).length ms

theorem identifyAll_cut : ∀ {ms : List MethodIdentity} {buffer : List UInt8} {cap : Nat},
    buffer.length = 1025 → cap ≤ 1024 → (∀ key ∈ cutKeys cap ms, key.length ≤ 1024) →
      identifyAll buffer ⟨0, cap⟩ ms = some (cutKeys cap ms)
  | [], _, _, _, _, _ => rfl
  | m :: ms, buffer, cap, hbuffer, hcap, hkeys => by
    obtain ⟨buffer', hbuffer', hcons⟩ := identifyAll_cons hbuffer hcap m ms
    rw [cutKeys, List.forall_mem_cons] at hkeys
    rw [hcons, identifyAll_cut hbuffer' hkeys.1 hkeys.2, Option.map_some, cutKeys]

/-- Each key fits into what the one before has left. -/
def FitsFrom : Nat → List MethodIdentity → Prop
  | _, [] => True
  | cap, m :: ms =>
    cap ≤ 1024 ∧ (m.size ≤ cap ∧ 0 ∉ m.name ∧ 0 ∉ m.unparsedDescriptor) ∧ FitsFrom (m.size + 1) ms

theorem identifyAll_iff : ∀ {ms : List MethodIdentity} {buffer : List UInt8} {cap : Nat},
    buffer.length = 1025 →
      (identifyAll buffer ⟨0, cap⟩ ms = some (ms.map (·.key)) ↔ FitsFrom cap ms)
  | [], _, _, _ => iff_of_true rfl trivial
  | m :: ms, buffer, cap, hbuffer => by
    rw [FitsFrom]
    by_cases hcap : cap ≤ 1024
    · obtain ⟨buffer', hbuffer', hcons⟩ := identifyAll_cons hbuffer hcap m ms
      rw [hcons, List.map_cons, Option.map_eq_some_iff, and_iff_right hcap,
        ← MethodIdentity.cut_eq_key_iff]
      constructor
      · rintro ⟨keys, hkeys, heq⟩
        obtain ⟨hcut, rfl⟩ := List.cons.inj heq
        rw [hcut, m.length_key] at hkeys
        exact ⟨hcut, (identifyAll_iff hbuffer').mp hkeys⟩
      · rintro ⟨hcut, hfits⟩
        rw [hcut, m.length_key]
        exact ⟨_, (identifyAll_iff hbuffer').mpr hfits, rfl⟩
    · rw [identifyAll, identify_of_lt hbuffer (not_le.mp hcap)]
      exact iff_of_false (fun h => nomatch h) fun h => hcap h.1

theorem fitsFrom_iff : ∀ {ms : List MethodIdentity} {m : MethodIdentity} {cap : Nat},
    FitsFrom cap (m :: ms) ↔ (cap ≤ 1024 ∧ m.size ≤ cap) ∧
      (m :: ms).IsChain (fun m m' => m.size < 1024 ∧ m'.size ≤ m.size + 1) ∧
      ∀ m' ∈ m :: ms, 0 ∉ m'.name ∧ 0 ∉ m'.unparsedDescriptor
  | [], m, cap => by
    simp only [FitsFrom, List.IsChain.singleton, List.mem_singleton, forall_eq]
    tauto
  | m' :: ms, m, cap => by
    rw [FitsFrom, fitsFrom_iff, List.isChain_cons_cons, Nat.succ_le_iff]
    simp only [List.forall_mem_cons]
    tauto

/-! ### Different keys -/

/-- Where two keys are equal, the methods are the same or a colon in a name makes them so. -/
theorem key_eq_iff : m.key = m'.key ↔ m = m' ∨
    (∃ s, m.name = m'.name ++ ':'.toUInt8 :: s ∧
      m'.unparsedDescriptor = s ++ ':'.toUInt8 :: m.unparsedDescriptor) ∨
    ∃ s, m'.name = m.name ++ ':'.toUInt8 :: s ∧
      m.unparsedDescriptor = s ++ ':'.toUInt8 :: m'.unparsedDescriptor := by
  obtain ⟨name, descriptor⟩ := m
  obtain ⟨name', descriptor'⟩ := m'
  simp only [MethodIdentity.key, List.append_eq_append_iff, MethodIdentity.mk.injEq]
  constructor
  · rintro (⟨s, rfl, hs⟩ | ⟨s, rfl, hs⟩)
    · rcases s with _ | ⟨c, s⟩
      · simp at hs
        simp [hs]
      · obtain ⟨rfl, rfl⟩ := List.cons.inj hs
        exact .inr (.inr ⟨s, rfl, rfl⟩)
    · rcases s with _ | ⟨c, s⟩
      · simp at hs
        simp [hs]
      · obtain ⟨rfl, rfl⟩ := List.cons.inj hs
        exact .inr (.inl ⟨s, rfl, rfl⟩)
  · rintro (⟨rfl, rfl⟩ | ⟨s, rfl, rfl⟩ | ⟨s, rfl, rfl⟩)
    · exact .inl ⟨[], (List.append_nil _).symm, rfl⟩
    · exact .inr ⟨':'.toUInt8 :: s, rfl, rfl⟩
    · exact .inl ⟨':'.toUInt8 :: s, rfl, rfl⟩

/-- The keys of a sequence of calls are right just when each is at most one byte longer than the key
before it, and no colon is misunderstood. -/
theorem keysRight_iff (ms : List MethodIdentity) : KeysRight ms ↔ KeysFit ms := by
  have hkeys : identifyWithScratch ms = some (ms.map (·.key)) ↔ FitsFrom 1024 ms :=
    identifyAll_iff List.length_replicate
  have hfits : FitsFrom 1024 ms ↔ (∀ m ∈ ms.head?, m.size ≤ 1024) ∧
      ms.IsChain (fun m m' => m.size < 1024 ∧ m'.size ≤ m.size + 1) ∧
      ∀ m ∈ ms, 0 ∉ m.name ∧ 0 ∉ m.unparsedDescriptor := by
    rcases ms with _ | ⟨m, ms⟩
    · exact iff_of_true trivial ⟨nofun, .nil, nofun⟩
    · rw [fitsFrom_iff, and_iff_right le_rfl]
      simp
  constructor
  · rintro ⟨keys, hrun, rfl, hdistinct⟩
    obtain ⟨hfirst, hnext, hzero⟩ := hfits.mp (hkeys.mp hrun)
    refine ⟨hfirst, hnext, hzero, fun m hm m' hm' s hname hdescriptor => ?_⟩
    obtain ⟨i, hi, hi'⟩ := List.getElem_of_mem hm
    obtain ⟨j, hj, hj'⟩ := List.getElem_of_mem hm'
    have hkey : m.key = m'.key := key_eq_iff.mpr (.inr (.inl ⟨s, hname, hdescriptor⟩))
    have heq : ms[i]? = ms[j]? := (hdistinct i hi j hj).mp (by
      simp only [List.getElem?_map, List.getElem?_eq_getElem hi, List.getElem?_eq_getElem hj, hi',
        hj', Option.map_some, hkey])
    rw [List.getElem?_eq_getElem hi, List.getElem?_eq_getElem hj, hi', hj', Option.some.injEq] at heq
    have hlength := congrArg List.length hname
    rw [heq, List.length_append, List.length_cons] at hlength
    omega
  · intro h
    refine ⟨_, hkeys.mpr (hfits.mpr ⟨h.first, h.next, h.noZero⟩), rfl, fun i hi j hj => ?_⟩
    rw [List.getElem?_map, List.getElem?_map, List.getElem?_eq_getElem hi,
      List.getElem?_eq_getElem hj, Option.map_some, Option.map_some, Option.some.injEq,
      Option.some.injEq]
    refine ⟨fun hkey => ?_, congrArg _⟩
    rcases key_eq_iff.mp hkey with heq | ⟨s, hname, hdescriptor⟩ | ⟨s, hname, hdescriptor⟩
    · exact heq
    · exact absurd hdescriptor (h.noColon _ (List.getElem_mem hi) _ (List.getElem_mem hj) s hname)
    · exact absurd hdescriptor (h.noColon _ (List.getElem_mem hj) _ (List.getElem_mem hi) s hname)

/-- Methods of an interface: a short one, and two that differ in what is cut off. -/
def shortened : List MethodIdentity :=
  [['f'], ['a', 'b', 'c', 'd', 'e', 'X'], ['f'], ['a', 'b', 'c', 'd', 'e', 'Y']].map fun name =>
    { name := name.map Char.toUInt8, unparsedDescriptor := ['(', ')', 'V'].map Char.toUInt8 }

/-- The second and the fourth get the same key. -/
theorem shortened_collide :
    identifyWithScratch shortened = some
        ([['f', ':', '(', ')', 'V'], ['a', 'b', 'c', 'd', 'e', ':'], ['f', ':', '(', ')', 'V'],
          ['a', 'b', 'c', 'd', 'e', ':']].map (·.map Char.toUInt8)) ∧
      shortened[1]? ≠ shortened[3]? ∧ ¬ KeysRight shortened := by
  have hrun : identifyWithScratch shortened = some (cutKeys 1024 shortened) :=
    identifyAll_cut List.length_replicate le_rfl (by decide)
  refine ⟨hrun.trans (congrArg some (by decide)), by decide, ?_⟩
  rintro ⟨keys, hkeys, rfl, -⟩
  exact absurd (Option.some.inj (hrun.symm.trans hkeys)) (by decide)

/-! ### The keys of the function tables -/

/-- In characters, the key is what `identify` makes of the method. -/
theorem map_cut (classes : Nat → Classdesc) {p : MethodPtr}
    (hname : (methodAt classes p).name = m.name.map ClassFile.charOf)
    (hdescriptor : (methodAt classes p).unparsedDescriptor =
      m.unparsedDescriptor.map ClassFile.charOf)
    (hzero : 0 ∉ m.name ∧ 0 ∉ m.unparsedDescriptor) :
    (m.cut cap).map ClassFile.charOf = identify classes cap p := by
  rw [MethodIdentity.cut, identify, hname, hdescriptor, cstr_eq_self_iff.mpr hzero.1,
    cstr_eq_self_iff.mpr hzero.2, List.map_append, List.map_cons, List.map_take, List.map_take,
    ← List.map_take, List.length_map, List.map_take]
  rfl

end BJvm.Linkage
