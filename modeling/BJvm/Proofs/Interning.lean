import BJvm.Proofs.StringHashTable
import BJvm.Strings.Interning

/-!
# Interned strings

What comes back from interning depends on the bytes of the string alone, so it is right as long as
no bytes are met under both coders, and no string of units in both codings.
-/

namespace BJvm.Strings

open Adt StringHashTable

variable {s t : NativeString} {heap : StringHeap} {log : List Interned}
  {m : Finmap fun _ : Key => Object} {o : Object}

/-! ### Bytes and units -/

theorem units_latin1 (h : s.coder = .latin1) : s.units = s.value.map UInt8.toUInt16 := by
  rw [NativeString.units, h]

theorem units_utf16 (h : s.coder = .utf16) : s.units = utf16Units s.value := by
  rw [NativeString.units, h]

theorem length_utf16Units : ∀ bytes : List UInt8, (utf16Units bytes).length = bytes.length / 2
  | [] => rfl
  | [_] => by simp [utf16Units]
  | _ :: _ :: rest => by
    rw [utf16Units, List.length_cons, length_utf16Units rest, List.length_cons, List.length_cons]
    omega

theorem unit_inj {lo hi lo' hi' : UInt8}
    (h : lo.toUInt16 + hi.toUInt16 * 256 = lo'.toUInt16 + hi'.toUInt16 * 256) :
    lo = lo' ∧ hi = hi' := by
  have h := congrArg UInt16.toNat h
  simp only [UInt16.toNat_add, UInt16.toNat_mul, UInt8.toNat_toUInt16, UInt16.reduceToNat] at h
  have := lo.toNat_lt
  have := hi.toNat_lt
  have := lo'.toNat_lt
  have := hi'.toNat_lt
  exact ⟨UInt8.toNat.inj (by omega), UInt8.toNat.inj (by omega)⟩

theorem utf16Units_inj : ∀ {bytes bytes' : List UInt8}, bytes.length % 2 = 0 →
    bytes'.length % 2 = 0 → utf16Units bytes = utf16Units bytes' → bytes = bytes'
  | [], [], _, _, _ => rfl
  | [_], _, h, _, _ => absurd h (by simp)
  | _, [_], _, h, _ => absurd h (by simp)
  | [], _ :: _ :: _, _, _, h => by simp [utf16Units] at h
  | _ :: _ :: _, [], _, _, h => by simp [utf16Units] at h
  | lo :: hi :: rest, lo' :: hi' :: rest', h1, h2, h => by
    rw [utf16Units, utf16Units] at h
    rw [List.length_cons, List.length_cons] at h1 h2
    obtain ⟨hunit, hrest⟩ := List.cons.inj h
    obtain ⟨rfl, rfl⟩ := unit_inj hunit
    rw [utf16Units_inj (by omega) (by omega) hrest]

/-- With one coder, the bytes are the same if and only if the units are. -/
theorem units_eq_iff_of_coder (h : s.coder = t.coder) : s.units = t.units ↔ s.value = t.value := by
  cases hs : s.coder with
  | latin1 =>
    rw [units_latin1 hs, units_latin1 (h ▸ hs)]
    refine (List.map_injective_iff.mpr fun a b hab => ?_).eq_iff
    simpa using congrArg UInt16.toUInt8 hab
  | utf16 =>
    have ht : t.coder = .utf16 := h ▸ hs
    rw [units_utf16 hs, units_utf16 ht]
    exact ⟨utf16Units_inj (s.even hs) (t.even ht), fun h => by rw [h]⟩

/-- The two strings are not empty, and have the same bytes or the same units in different
codings. -/
def Clash (s t : NativeString) : Prop :=
  s.coder ≠ t.coder ∧ s.value ≠ [] ∧ (s.value = t.value ∨ s.units = t.units)

theorem length_units (s : NativeString) :
    s.units.length = match s.coder with
      | .latin1 => s.value.length
      | .utf16 => s.value.length / 2 := by
  cases h : s.coder with
  | latin1 => rw [units_latin1 h, List.length_map]
  | utf16 => rw [units_utf16 h, length_utf16Units]

theorem units_eq_nil_iff (s : NativeString) : s.units = [] ↔ s.value = [] := by
  rw [← List.length_eq_zero_iff, ← List.length_eq_zero_iff, length_units]
  cases h : s.coder with
  | latin1 => rfl
  | utf16 =>
    have := s.even h
    show s.value.length / 2 = 0 ↔ _
    omega

/-- The bytes decide, unless the strings clash. -/
theorem value_eq_iff_units_eq_iff :
    (s.value = t.value ↔ s.units = t.units) ↔ ¬ Clash s t := by
  by_cases hc : s.coder = t.coder
  · simp [Clash, hc, units_eq_iff_of_coder hc]
  by_cases hs : s.value = []
  · have hsu := (units_eq_nil_iff s).mpr hs
    rw [hs, hsu, eq_comm, @eq_comm _ [] t.units, units_eq_nil_iff]
    simp [Clash, hs]
  · -- the units are as many as the bytes in one coding, and half as many in the other
    have hlen : ¬ (s.value = t.value ∧ s.units = t.units) := by
      rintro ⟨hv, hu⟩
      have hpos := List.length_pos_of_ne_nil hs
      have h1 := length_units s
      have h2 := length_units t
      rw [← hu, ← hv] at h2
      cases hsc : s.coder <;> cases htc : t.coder <;> rw [hsc] at h1 hc <;> rw [htc] at h2 hc
      · exact hc rfl
      · replace h1 : s.units.length = s.value.length := h1
        replace h2 : s.units.length = s.value.length / 2 := h2
        omega
      · replace h1 : s.units.length = s.value.length / 2 := h1
        replace h2 : s.units.length = s.value.length := h2
        omega
      · exact hc rfl
    unfold Clash
    tauto

/-! ### Runs -/

theorem keyOf_length (bytes : List UInt8) : keyOf bytes bytes.length = bytes := by
  rw [keyOf, if_neg (by omega), Int.toNat_natCast, List.take_length]

/-- The table maps the bytes of each string interned to what came back, which is the object of a
string interned. -/
structure Inv (heap : StringHeap) (log : List Interned) (m : Finmap fun _ : Key => Object) :
    Prop where
  table : Represents heap.internedStrings m
  object : ∀ key o, m.lookup key = some o →
    ∃ e ∈ log, heap.string o = some e.argument ∧ e.argument.value = key
  logged : ∀ e ∈ log, m.lookup e.argument.value = some e.result

theorem string_ne_zero (h : heap.string o = some s) : o ≠ 0 := by
  rintro rfl
  cases h

theorem Inv.lookup (h : Inv heap log m) (s : NativeString) :
    heap.lookupInternedJstring s = (m.lookup s.value).getD 0 := by
  rw [StringHeap.lookupInternedJstring, keyOf_length, lookup_spec h.table]
  rfl

theorem Inv.lookup_eq_zero (h : Inv heap log m) :
    heap.lookupInternedJstring s = 0 ↔ m.lookup s.value = none := by
  rw [h.lookup]
  cases hm : m.lookup s.value with
  | none => simp
  | some o =>
    obtain ⟨e, -, he, -⟩ := h.object _ _ hm
    simpa using string_ne_zero he

/-- A string whose bytes are in the table is logged with what the table has. -/
theorem Inv.found (h : Inv heap log m) (hm : m.lookup s.value = some o) :
    Inv heap (log ++ [{ argument := s, result := o }]) m := by
  refine ⟨h.table, fun key o' ho => ?_, fun e he => ?_⟩
  · obtain ⟨e, he, hs⟩ := h.object key o' ho
    exact ⟨e, by simp [he], hs⟩
  · rcases List.mem_append.mp he with he | he
    · exact h.logged e he
    · rw [List.mem_singleton.mp he]
      exact hm

theorem Inv.internJString (h : Inv heap log m) (ho : heap.string o = some s) :
    ∃ p m', heap.internJString s o = some p ∧ p.1.strings = heap.strings ∧
      Inv p.1 (log ++ [{ argument := s, result := p.2 }]) m' := by
  rw [StringHeap.internJString]
  by_cases hz : heap.lookupInternedJstring s = 0
  · have hm := h.lookup_eq_zero.mp hz
    obtain ⟨tbl, heq, htbl⟩ := insert_spec h.table s.value o
    refine ⟨({ heap with internedStrings := tbl }, o), m.insert s.value o, ?_, rfl, htbl,
      fun key o' hk => ?_, fun e he => ?_⟩
    · simp only [hz, ne_eq, not_true_eq_false, if_false]
      rw [StringHeap.insertInternedJstring, keyOf_length, heq]
      rfl
    · by_cases hkey : key = s.value
      · subst hkey
        rw [Finmap.lookup_insert, Option.some.injEq] at hk
        subst hk
        exact ⟨_, List.mem_append_right _ (List.mem_singleton.mpr rfl), ho, rfl⟩
      · rw [Finmap.lookup_insert_of_ne m hkey] at hk
        obtain ⟨e, he, hs⟩ := h.object key o' hk
        exact ⟨e, by simp [he], hs⟩
    · rcases List.mem_append.mp he with he | he
      · have hne : e.argument.value ≠ s.value := fun heq' => by
          have := h.logged e he
          rw [heq', hm] at this
          cases this
        rw [Finmap.lookup_insert_of_ne m hne]
        exact h.logged e he
      · rw [List.mem_singleton.mp he, Finmap.lookup_insert]
  · obtain ⟨o', ho'⟩ := Option.ne_none_iff_exists'.mp (mt h.lookup_eq_zero.mpr hz)
    have hres : heap.lookupInternedJstring s = o' := by rw [h.lookup, ho', Option.getD_some]
    refine ⟨(heap, o'), m, ?_, rfl, h.found ho'⟩
    simp only [ne_eq, hz, not_false_eq_true, if_true]
    rw [hres]

theorem string_alloc (ho : heap.string o = some s) : (heap.alloc t).1.string o = some s := by
  cases o with
  | zero => cases ho
  | succ n =>
    simp only [StringHeap.string, stringAt, StringHeap.alloc] at ho ⊢
    rw [List.getElem?_append_left (List.getElem?_eq_some_iff.mp ho).1]
    exact ho

theorem Inv.alloc (h : Inv heap log m) (t : NativeString) : Inv (heap.alloc t).1 log m := by
  refine ⟨h.table, fun key o ho => ?_, h.logged⟩
  obtain ⟨e, he, hs, hv⟩ := h.object key o ho
  exact ⟨e, he, string_alloc hs, hv⟩

theorem string_alloc_self (heap : StringHeap) (s : NativeString) :
    (heap.alloc s).1.string (heap.alloc s).2 = some s := by
  simp [StringHeap.alloc, StringHeap.string, stringAt]

theorem makeJString_true (heap : StringHeap) (s : NativeString) :
    heap.makeJString s true = (heap.alloc s).1.internJString s (heap.alloc s).2 := rfl

/-- A string that is made, and interned if it is to be. -/
theorem Inv.makeJString (h : Inv heap log m) (s : NativeString) (keep : Bool) :
    ∃ st' m', (heap.makeJString s keep).map (noteInterned log s keep) = some st' ∧
      Inv st'.1 st'.2 m' ∧ st'.1.strings = heap.strings ++ [s] ∧
      st'.2.map (·.argument) = log.map (·.argument) ++ if keep then [s] else [] := by
  cases keep with
  | true =>
    obtain ⟨p, m', hp, hs, h'⟩ := (h.alloc s).internJString (string_alloc_self heap s)
    exact ⟨_, m', by rw [makeJString_true, hp, Option.map_some], h', hs, by simp [noteInterned]⟩
  | false =>
    have hnot : ∃ o, heap.makeJString s false = some ((heap.alloc s).1, o) := by
      unfold StringHeap.makeJString
      by_cases hz : (heap.alloc s).1.lookupInternedJstring s = 0
      · exact ⟨(heap.alloc s).2, by simp [hz]⟩
      · exact ⟨(heap.alloc s).1.lookupInternedJstring s, by simp [hz]⟩
    obtain ⟨o, ho⟩ := hnot
    exact ⟨_, m, by rw [ho, Option.map_some], h.alloc s, rfl, by simp [noteInterned]⟩

/-- What one operation keeps. -/
theorem Op.apply_inv (h : Inv heap log m) {op : Op} (hop : op.Exists heap.strings) :
    ∃ st' m', op.apply (heap, log) = some st' ∧ Inv st'.1 st'.2 m' ∧
      st'.1.strings = heap.strings ++ op.made ∧
      st'.2.map (·.argument) = log.map (·.argument) ++ op.passed heap.strings := by
  cases op with
  | alloc s => exact ⟨_, m, rfl, h.alloc s, rfl, by simp [Op.passed]⟩
  | intern o =>
    obtain ⟨s, hs⟩ := Option.isSome_iff_exists.mp hop
    replace hs : heap.string o = some s := hs
    obtain ⟨p, m', hp, hstr, h'⟩ := h.internJString hs
    refine ⟨noteInterned log s true p, m', ?_, h', ?_, ?_⟩
    · simp only [Op.apply, hs, Option.bind_eq_bind, Option.bind_some, hp, Option.map_some]
    · simp [noteInterned, hstr, Op.made]
    · simp [noteInterned, Op.passed, show stringAt heap.strings o = some s from hs]
  | modifiedUtf8 bytes keep =>
    rw [Op.apply, Op.made, Op.passed]
    cases hs : modifiedUtf8String bytes with
    | none => exact ⟨_, m, rfl, h, by simp, by simp⟩
    | some s => exact h.makeJString s keep
  | cString bytes keep => exact h.makeJString (cStringString bytes) keep

theorem run_inv : ∀ (ops : List Op) {heap : StringHeap} {log : List Interned}
    {m : Finmap fun _ : Key => Object}, Inv heap log m → AllExist heap.strings ops →
    ∃ st' m', run (heap, log) ops = some st' ∧ Inv st'.1 st'.2 m' ∧
      st'.2.map (·.argument) = log.map (·.argument) ++ passedAll heap.strings ops
  | [], _, _, m, h, _ => ⟨_, m, rfl, h, by simp [passedAll]⟩
  | op :: ops, _, _, _, h, hops => by
    obtain ⟨st, m1, h1, hinv, hstr, hlog⟩ := op.apply_inv h hops.1
    obtain ⟨st', m2, h2, hinv', hlog'⟩ := run_inv ops hinv (hstr ▸ hops.2)
    refine ⟨st', m2, ?_, hinv', ?_⟩
    · rw [run] at h2 ⊢
      rw [List.foldlM_cons, h1]
      exact h2
    · rw [hlog', hlog, hstr, passedAll, List.append_assoc]

theorem inv_empty : Inv {} [] ∅ :=
  ⟨represents_make _ (by decide), fun key o h => by simp at h, by simp⟩

/-! ### What interning is for -/

/-- Two strings intern to one object if and only if they are equal, and the object has the content
of the argument. -/
def InternsRight (heap : StringHeap) (log : List Interned) : Prop :=
  (∀ e ∈ log, ∀ e' ∈ log, e.result = e'.result ↔ e.argument.units = e'.argument.units) ∧
    ∀ e ∈ log, ∃ s, heap.string e.result = some s ∧ s.units = e.argument.units

/-- What comes back is decided by the bytes. -/
theorem Inv.result_eq_iff (h : Inv heap log m) {e e' : Interned} (he : e ∈ log) (he' : e' ∈ log) :
    e.result = e'.result ↔ e.argument.value = e'.argument.value := by
  have hm := h.logged e he
  have hm' := h.logged e' he'
  constructor
  · intro heq
    obtain ⟨e1, -, hs, hv⟩ := h.object _ _ hm
    obtain ⟨e2, -, hs', hv'⟩ := h.object _ _ hm'
    rw [← heq, hs, Option.some.injEq] at hs'
    rw [← hv, ← hv', hs']
  · intro heq
    rw [heq, hm', Option.some.injEq] at hm
    exact hm.symm

theorem Inv.rightOf_iff (h : Inv heap log m) :
    InternsRight heap log ↔ ∀ e ∈ log, ∀ e' ∈ log, ¬ Clash e.argument e'.argument := by
  have hpairs : (∀ e ∈ log, ∀ e' ∈ log, ¬ Clash e.argument e'.argument) ↔
      ∀ e ∈ log, ∀ e' ∈ log, e.result = e'.result ↔ e.argument.units = e'.argument.units := by
    refine forall₂_congr fun e he => forall₂_congr fun e' he' => ?_
    rw [h.result_eq_iff he he', value_eq_iff_units_eq_iff]
  rw [InternsRight, hpairs]
  refine and_iff_left_of_imp fun hright e he => ?_
  obtain ⟨e', he', hs, hv⟩ := h.object _ _ (h.logged e he)
  have hres : e'.result = e.result := (h.result_eq_iff he' he).mpr hv
  exact ⟨_, hs, (hright e' he' e he).mp hres⟩

theorem run_empty {ops : List Op} (hops : AllExist [] ops) :
    ∃ heap log m, run ({}, []) ops = some (heap, log) ∧ Inv heap log m ∧
      log.map (·.argument) = passedAll [] ops := by
  obtain ⟨⟨heap, log⟩, m, hrun, hinv, hlog⟩ := run_inv ops inv_empty hops
  exact ⟨heap, log, m, hrun, hinv, by simpa using hlog⟩

/-- The operations return, and what was interned is right if and only if no two of the strings
passed to interning clash. -/
theorem internsRight_iff {ops : List Op} (hops : AllExist [] ops) :
    ∃ heap log, run ({}, []) ops = some (heap, log) ∧
      log.map (·.argument) = passedAll [] ops ∧
      (InternsRight heap log ↔
        ∀ s ∈ passedAll [] ops, ∀ t ∈ passedAll [] ops, ¬ Clash s t) := by
  obtain ⟨heap, log, m, hrun, hinv, hlog⟩ := run_empty hops
  refine ⟨heap, log, hrun, hlog, ?_⟩
  rw [hinv.rightOf_iff, ← hlog]
  simp

theorem internsRight_iff_hi :
    ∃ heap log, run ({}, []) [.cString [104, 105] true, .intern 1] = some (heap, log) ∧
      log.map (·.argument) = passedAll [] [.cString [104, 105] true, .intern 1] ∧
      (InternsRight heap log ↔
        ∀ s ∈ passedAll [] [.cString [104, 105] true, .intern 1],
          ∀ t ∈ passedAll [] [.cString [104, 105] true, .intern 1], ¬ Clash s t) :=
  internsRight_iff ⟨trivial, rfl, trivial⟩

/-- The constants `"\u0001\u0002"` and `"\u0201"` have the same bytes. -/
def clashingConstants : List Op :=
  [.modifiedUtf8 [0x01, 0x02] true, .modifiedUtf8 [0xC8, 0x81] true]

theorem clashingConstants_wrong :
    AllExist [] clashingConstants ∧
      ∃ heap log, run ({}, []) clashingConstants = some (heap, log) ∧ ¬ InternsRight heap log := by
  have hall : AllExist [] clashingConstants := ⟨trivial, trivial, trivial⟩
  obtain ⟨heap, log, m, hrun, hinv, hlog⟩ := run_empty hall
  refine ⟨hall, heap, log, hrun, fun hright => ?_⟩
  have hpassed : passedAll [] clashingConstants =
      [⟨[1, 2], .latin1, by simp⟩, ⟨[1, 2], .utf16, by simp⟩] := by decide
  have hmem : ∀ s ∈ passedAll [] clashingConstants, ∃ e ∈ log, e.argument = s := fun s hs =>
    List.mem_map.mp (hlog ▸ hs)
  obtain ⟨e, he, harg⟩ := hmem ⟨[1, 2], .latin1, by simp⟩ (by simp [hpassed])
  obtain ⟨e', he', harg'⟩ := hmem ⟨[1, 2], .utf16, by simp⟩ (by simp [hpassed])
  refine hinv.rightOf_iff.mp hright e he e' he' ?_
  rw [harg, harg']
  exact ⟨by decide, by decide, .inl rfl⟩

end BJvm.Strings
