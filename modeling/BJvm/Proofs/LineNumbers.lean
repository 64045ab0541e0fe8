import BJvm.ClassFile.LineNumbers
import Mathlib.Data.Prod.Lex
import Mathlib.Data.Finset.Max
import Mathlib.Data.List.GetD
import Mathlib.Tactic.Common

/-!
# Line numbers

A bisection comes to the entry that governs a place if and only if each entry it looks at before
sends it on there (`searchEntry_eq_some_iff`).  In a table with increasing starts each does
(`searchable_of_increasing`).
-/

namespace BJvm.ClassFile

variable {starts : List Nat} {entries : List (Nat × Nat)} {p e i fuel low high : Nat}

/-! ### The search for an entry -/

/-- `searchLine`, up to the entry. -/
def searchEntry (starts : List Nat) (p : Nat) : Nat → Nat → Nat → Option Nat
  | 0, _, _ => none
  | fuel + 1, low, high =>
    if low < high then
      let mid := (low + (high - 1)) / 2
      match starts[mid]? with
      | none => none
      | some start =>
        if start ≤ p ∧ starts[mid + 1]?.all (p < ·) then some mid
        else if start < p then searchEntry starts p fuel (mid + 1) high
        else searchEntry starts p fuel low mid
    else none

theorem searchLine_eq : ∀ {fuel low high : Nat}, searchLine entries p fuel low high =
    (searchEntry (entries.map Prod.fst) p fuel low high).bind (entries[·]?.map Prod.snd)
  | 0, _, _ => rfl
  | fuel + 1, low, high => by
    rw [searchLine, searchEntry]
    split_ifs with hlt
    · simp only [List.getElem?_map, Option.all_map]
      rcases hmid : entries[(low + (high - 1)) / 2]? with _ | entry
      · rfl
      · simp only [Option.map_some, searchLine_eq]
        split_ifs
        · simp [hmid]
        · rfl
        · rfl
    · rfl

theorem searchEntry_sound : ∀ {fuel low high : Nat}, searchEntry starts p fuel low high = some i →
    low ≤ i ∧ i < high ∧ ∃ start, starts[i]? = some start ∧ start ≤ p
  | fuel + 1, low, high, h => by
    rw [searchEntry] at h
    split_ifs at h with hlt
    simp only at h
    split at h
    · cases h
    · next start hstart =>
      split_ifs at h with hfound hless
      · obtain rfl := Option.some.inj h
        exact ⟨by omega, by omega, start, hstart, hfound.1⟩
      · obtain ⟨hl, hh, hs⟩ := searchEntry_sound h
        exact ⟨by omega, hh, hs⟩
      · obtain ⟨hl, hh, hs⟩ := searchEntry_sound h
        exact ⟨hl, by omega, hs⟩

/-! ### The entry that governs -/

theorem Governs.unique (h : Governs starts p e) (h' : Governs starts p i) : e = i := by
  obtain ⟨start, hstart, hle, hall⟩ := h
  obtain ⟨start', hstart', hle', hall'⟩ := h'
  have h1 := hall i start' hstart' hle'
  have h2 := hall' e start hstart hle
  omega

/-- Where an entry does not start behind the place, one governs it. -/
theorem exists_governs {start : Nat} (hi : starts[i]? = some start) (hle : start ≤ p) :
    ∃ e, Governs starts p e := by
  have hlt : ∀ {j s}, starts[j]? = some s → j < starts.length := fun h =>
    (List.getElem?_eq_some_iff.1 h).1
  have hgetD : ∀ {j s}, starts[j]? = some s → starts.getD j 0 = s := fun h => by
    rw [List.getD, h, Option.getD_some]
  obtain ⟨e, he, hmax⟩ := Finset.exists_max_image
    ((Finset.range starts.length).filter (starts.getD · 0 ≤ p))
    (fun j => toLex (starts.getD j 0, j))
    ⟨i, Finset.mem_filter.2 ⟨Finset.mem_range.2 (hlt hi), (hgetD hi).trans_le hle⟩⟩
  obtain ⟨herange, hep⟩ := Finset.mem_filter.1 he
  refine ⟨e, starts.getD e 0, ?_, hep, fun j s hj hs => ?_⟩
  · rw [List.getD_eq_getElem _ _ (Finset.mem_range.1 herange), List.getElem?_eq_getElem]
  · have hj' := hmax j (Finset.mem_filter.2
      ⟨Finset.mem_range.2 (hlt hj), (hgetD hj).trans_le hs⟩)
    rw [Prod.Lex.toLex_le_toLex, hgetD hj] at hj'
    exact hj'

/-! ### The way of a bisection -/

/-- The entry that governs the place is followed by a greater one or by none. -/
def Followed (starts : List Nat) (p e : Nat) : Prop := ∀ start ∈ starts[e + 1]?, p < start

theorem all_lt_iff : starts[e + 1]?.all (p < ·) = true ↔ Followed starts p e := by
  rw [Followed]
  cases starts[e + 1]? <;> simp

theorem searchEntry_ne_left (h : e < low) : searchEntry starts p fuel low high ≠ some e :=
  fun hs => absurd (searchEntry_sound hs).1 (not_le.2 h)

theorem searchEntry_ne_right (h : high ≤ e) : searchEntry starts p fuel low high ≠ some e :=
  fun hs => absurd (searchEntry_sound hs).2.1 (not_lt.2 h)

theorem stops_iff {s : Nat} (hs : starts[i]? = some s) :
    Stops starts p i ↔ s ≤ p ∧ starts[i + 1]?.all (p < ·) := by
  rw [all_lt_iff]
  simp [Stops, Followed, hs]

theorem passes_iff {mid s : Nat} (hs : starts[mid]? = some s) :
    Passes starts p i mid ↔
      ¬ (s ≤ p ∧ starts[mid + 1]?.all (p < ·)) ∧ (mid < i ↔ s < p) := by
  rw [Passes, stops_iff hs]
  simp [hs]

theorem searchEntry_eq_some_iff : ∀ {fuel low high : Nat},
    high - low < fuel → low ≤ i → i < high → high ≤ starts.length →
    (searchEntry starts p fuel low high = some i ↔
      Stops starts p i ∧ ∀ mid ∈ bisectTo i fuel low high, Passes starts p i mid)
  | fuel + 1, low, high, hf, hl, hh, hlen => by
    obtain ⟨s, hs⟩ : ∃ s, starts[(low + (high - 1)) / 2]? = some s :=
      ⟨_, List.getElem?_eq_getElem (by omega)⟩
    rw [searchEntry, if_pos (by omega), bisectTo]
    simp only [hs]
    have hmid : low ≤ (low + (high - 1)) / 2 ∧ (low + (high - 1)) / 2 < high := by omega
    generalize (low + (high - 1)) / 2 = mid at hs hmid ⊢
    have hpass := passes_iff (p := p) (i := i) hs
    rcases Nat.lt_trichotomy i mid with hlt | rfl | hgt
    · rw [if_pos hlt, List.forall_mem_cons, hpass]
      split_ifs with hstop hless
      · simp only [Option.some.injEq]
        exact iff_of_false (by omega) fun h => h.2.1.1 hstop
      · exact iff_of_false (searchEntry_ne_left (by omega)) fun h =>
          absurd (h.2.1.2.2 hless) (by omega)
      · rw [searchEntry_eq_some_iff (by omega) hl hlt (by omega)]
        exact and_congr_right' ⟨fun h => ⟨⟨hstop, by omega⟩, h⟩, And.right⟩
    · rw [if_neg (lt_irrefl i), if_neg (lt_irrefl i), stops_iff hs]
      split_ifs with hstop hless
      · exact iff_of_true rfl ⟨hstop, fun mid hmid => absurd hmid List.not_mem_nil⟩
      · exact iff_of_false (searchEntry_ne_left (by omega)) fun h => hstop h.1
      · exact iff_of_false (searchEntry_ne_right (by omega)) fun h => hstop h.1
    · rw [if_neg hgt.asymm, if_pos hgt, List.forall_mem_cons, hpass]
      split_ifs with hstop hless
      · simp only [Option.some.injEq]
        exact iff_of_false (by omega) fun h => h.2.1.1 hstop
      · rw [searchEntry_eq_some_iff (by omega) (by omega) hh hlen]
        exact and_congr_right' ⟨fun h => ⟨⟨hstop, by omega⟩, h⟩, And.right⟩
      · exact iff_of_false (searchEntry_ne_right (by omega)) fun h => hless (h.2.1.2.1 hgt)

theorem reaches_iff (hi : i < starts.length) : Reaches starts p i ↔
    searchEntry starts p (starts.length + 1) 0 starts.length = some i :=
  (searchEntry_eq_some_iff (by omega) (Nat.zero_le i) hi le_rfl).symm

theorem mem_bisectTo {mid : Nat} : ∀ {fuel low high : Nat}, low ≤ e → e < high →
    mid ∈ bisectTo e fuel low high → mid ≠ e ∧ mid < high
  | 0, _, _, _, _, h => absurd h List.not_mem_nil
  | fuel + 1, low, high, hl, hh, h => by
    simp only [bisectTo] at h
    split_ifs at h with hlt hgt
    · rcases List.mem_cons.1 h with rfl | h
      · omega
      · have := mem_bisectTo hl hlt h
        omega
    · rcases List.mem_cons.1 h with rfl | h
      · omega
      · exact mem_bisectTo hgt hh h
    · exact absurd h List.not_mem_nil

/-- Other entries than the one that governs the place do not start at it if they are behind. -/
theorem Governs.passes_iff_sendsOn {mid : Nat} (hgov : Governs starts p e) (hne : mid ≠ e)
    (hmid : mid < starts.length) : Passes starts p e mid ↔ SendsOn starts p e mid := by
  obtain ⟨start, hstart, hle, hall⟩ := hgov
  have helt := (List.getElem?_eq_some_iff.1 hstart).1
  have hs : starts[mid]? = some starts[mid] := List.getElem?_eq_getElem hmid
  rw [passes_iff hs, SendsOn, hs]
  split_ifs with hlt
  · have hnext : starts[mid + 1]? = some starts[mid + 1] := List.getElem?_eq_getElem (by omega)
    simp only [hnext, Option.all_some, decide_eq_true_eq, Option.some.injEq, exists_eq_left', hlt,
      true_iff]
    omega
  · have hne' : starts[mid] ≠ p := fun heq => by
      have := hall mid _ hs heq.le
      omega
    simp only [Option.some.injEq, exists_eq_left', hlt, false_iff]
    omega

theorem Governs.reaches_iff_followed (hgov : Governs starts p e) :
    Reaches starts p e ↔ Followed starts p e ∧
      ∀ mid ∈ bisectTo e (starts.length + 1) 0 starts.length, SendsOn starts p e mid := by
  obtain ⟨start, hstart, hle, -⟩ := id hgov
  have helt := (List.getElem?_eq_some_iff.1 hstart).1
  rw [Reaches, stops_iff hstart, all_lt_iff, and_iff_right hle]
  refine and_congr_right' (forall₂_congr fun mid hmid => ?_)
  obtain ⟨hne, hlt⟩ := mem_bisectTo (Nat.zero_le e) helt hmid
  exact hgov.passes_iff_sendsOn hne hlt

/-! ### Lines -/

theorem getLineNumber_eq_some {code : List BytecodeInsn} {pc l : Nat} :
    getLineNumber (some entries) code pc = some l ↔ ∃ insn i entry, code[pc]? = some insn ∧
      entries[i]? = some entry ∧ Reaches (entries.map Prod.fst) insn.originalPc i ∧
        entry.2 = l := by
  have hreach : ∀ {p i entry}, entries[i]? = some entry → (Reaches (entries.map Prod.fst) p i ↔
      searchEntry (entries.map Prod.fst) p (entries.length + 1) 0 entries.length = some i) := by
    intro p i entry hi
    rw [reaches_iff (by simpa using (List.getElem?_eq_some_iff.1 hi).1), List.length_map]
  rcases hcode : code[pc]? with _ | insn
  · simp [getLineNumber, hcode]
  · simp only [getLineNumber, hcode, searchLine_eq, Option.bind_eq_some_iff,
      Option.map_eq_some_iff]
    constructor
    · rintro ⟨i, hi, entry, hentry, rfl⟩
      exact ⟨insn, i, entry, rfl, hentry, (hreach hentry).2 hi, rfl⟩
    · rintro ⟨_, i, entry, hinsn, hentry, hi, rfl⟩
      obtain rfl := Option.some.inj hinsn
      exact ⟨i, (hreach hentry).1 hi, entry, hentry, rfl⟩

theorem Reaches.unique (h : Reaches starts p i) (h' : Reaches starts p e) : i = e := by
  have hlt : ∀ {j}, Reaches starts p j → j < starts.length := by
    rintro j ⟨⟨start, hj, -⟩, -⟩
    exact (List.getElem?_eq_some_iff.1 hj).1
  have hi := (reaches_iff (hlt h)).1 h
  rw [(reaches_iff (hlt h')).1 h'] at hi
  exact (Option.some.inj hi).symm

/-- The instruction gets the line it should if and only if a bisection finds it. -/
theorem specifiedLine_iff_findsLine {code : List BytecodeInsn} {pc : Nat} :
    SpecifiedLine entries code pc (getLineNumber (some entries) code pc) ↔
      ∀ insn ∈ code[pc]?, FindsLine entries insn.originalPc := by
  constructor
  · intro h insn hinsn e entry hgov hentry
    have hline := (h entry.2).2 ⟨insn, e, entry, hinsn, hentry, hgov, rfl⟩
    obtain ⟨insn', i, found, hinsn', hi, hreach, hl⟩ := getLineNumber_eq_some.1 hline
    obtain rfl := Option.some.inj (hinsn'.symm.trans hinsn)
    exact ⟨i, found, hreach, hi, hl⟩
  · intro h l
    rw [getLineNumber_eq_some]
    constructor
    · rintro ⟨insn, i, found, hinsn, hfound, hreach, rfl⟩
      obtain ⟨start, hstart, hle, -⟩ := hreach.1
      obtain ⟨e, hgov⟩ := exists_governs hstart hle
      obtain ⟨_, he, -⟩ := id hgov
      rw [List.getElem?_map] at he
      obtain ⟨entry, hentry, -⟩ := Option.map_eq_some_iff.1 he
      obtain ⟨i', found', hreach', hfound', hl⟩ := h insn hinsn e entry hgov hentry
      obtain rfl := hreach.unique hreach'
      obtain rfl := Option.some.inj (hfound.symm.trans hfound')
      exact ⟨insn, e, entry, hinsn, hentry, hgov, hl.symm⟩
    · rintro ⟨insn, e, entry, hinsn, hentry, hgov, rfl⟩
      obtain ⟨i, found, hreach, hfound, hl⟩ := h insn hinsn e entry hgov hentry
      exact ⟨insn, i, found, hinsn, hfound, hreach, hl⟩

theorem Searchable.findsLine (h : Searchable (entries.map Prod.fst) p) : FindsLine entries p :=
  fun e entry hgov hentry => ⟨e, entry, hgov.reaches_iff_followed.2 (h e hgov), hentry, rfl⟩

/-- Whatever the lines, the instruction gets the one it should if and only if a bisection of the
starts comes to the entry that governs it. -/
theorem getLineNumber_specified_iff (starts : List Nat) (code : List BytecodeInsn) (pc : Nat) :
    (∀ entries : List (Nat × Nat), entries.map Prod.fst = starts →
      SpecifiedLine entries code pc (getLineNumber (some entries) code pc)) ↔
    ∀ insn ∈ code[pc]?, Searchable starts insn.originalPc := by
  constructor
  · intro h insn hinsn e hgov
    -- the line of each entry is its index
    obtain ⟨start, hstart, -⟩ := id hgov
    have hmap : starts.zipIdx.map Prod.fst = starts := List.zipIdx_map_fst 0 starts
    have hentry : starts.zipIdx[e]? = some (start, e) := by
      rw [List.getElem?_zipIdx, hstart, Option.map_some, Nat.zero_add]
    obtain ⟨i, found, hreach, hi, hidx⟩ := specifiedLine_iff_findsLine.1 (h _ hmap) insn hinsn e _
      (hmap.symm ▸ hgov) hentry
    rw [List.getElem?_zipIdx, Nat.zero_add] at hi
    obtain ⟨_, -, rfl⟩ := Option.map_eq_some_iff.1 hi
    obtain rfl : i = e := hidx
    rw [hmap] at hreach
    exact hgov.reaches_iff_followed.1 hreach
  · rintro h entries rfl
    exact specifiedLine_iff_findsLine.2 fun insn hinsn => (h insn hinsn).findsLine

/-- The second of two entries with one start is not found. -/
theorem getLineNumber_wrong : ¬ SpecifiedLine [(0, 1), (0, 2)] [{ kind := .return_ }] 0
    (getLineNumber (some [(0, 1), (0, 2)]) [{ kind := .return_ }] 0) := by
  intro h
  have hgov : Governs [0, 0] 0 1 := by
    refine ⟨0, rfl, le_rfl, fun j start' hj _ => .inr ⟨?_, ?_⟩⟩
    · exact List.eq_of_mem_replicate (n := 2) (List.mem_of_getElem? hj)
    · exact Nat.le_of_lt_succ (List.getElem?_eq_some_iff.1 hj).1
  have hline := (h 2).2 ⟨_, 1, (0, 2), rfl, rfl, hgov, rfl⟩
  exact absurd hline (by decide)

/-! ### Increasing starts -/

/-- In a table with increasing starts, as compilers write them, every place is found. -/
theorem searchable_of_increasing (h : starts.Pairwise (· < ·)) : Searchable starts p := by
  have hlt : ∀ {i j s t : Nat}, starts[i]? = some s → starts[j]? = some t → i < j → s < t := by
    intro i j s t hi hj hij
    obtain ⟨hil, rfl⟩ := List.getElem?_eq_some_iff.1 hi
    obtain ⟨hjl, rfl⟩ := List.getElem?_eq_some_iff.1 hj
    exact List.pairwise_iff_getElem.1 h i j hil hjl hij
  rintro e ⟨start, hstart, hle, hall⟩
  have hbehind : ∀ {j s : Nat}, starts[j]? = some s → e < j → p < s := by
    intro j s hj hej
    by_contra hsp
    have := hall j s hj (not_lt.1 hsp)
    have := hlt hstart hj hej
    omega
  refine ⟨fun s hs => hbehind hs (Nat.lt_succ_self e), fun mid hmid => ?_⟩
  have helt := (List.getElem?_eq_some_iff.1 hstart).1
  obtain ⟨hne, hmlt⟩ := mem_bisectTo (Nat.zero_le e) helt hmid
  have hget : ∀ j < starts.length, ∃ s, starts[j]? = some s := fun j hj =>
    ⟨_, List.getElem?_eq_getElem hj⟩
  rw [SendsOn]
  split_ifs with hme
  · obtain ⟨s, hs⟩ := hget mid hmlt
    obtain ⟨next, hnext⟩ := hget (mid + 1) (by omega)
    have hs_lt := hlt hs hstart hme
    refine ⟨⟨s, hs, by omega⟩, next, hnext, ?_⟩
    rcases Nat.lt_or_ge (mid + 1) e with hnext_lt | hnext_ge
    · have := hlt hnext hstart hnext_lt
      omega
    · obtain rfl : mid + 1 = e := by omega
      obtain rfl := Option.some.inj (hnext.symm.trans hstart)
      exact hle
  · obtain ⟨s, hs⟩ := hget mid hmlt
    exact ⟨s, hs, hbehind hs (by omega)⟩

end BJvm.ClassFile
