import BJvm.Classpath.Jar
import BJvm.Proofs.Interning
import BJvm.Proofs.StringHashTable

/-!
# What reading a JAR file reads

The checks of a record leave its name out, so loading reads behind the file exactly when a name
that it gets to is cut off.  The table that comes out has every record, and then an entry is what
its record says, but for the second size of a stored one.
-/

namespace BJvm.Classpath

open Adt Parsing StringHashTable

variable {jar : MappedJar} {inflate : Inflate}

namespace MappedJar

/-! ### One record -/

theorem cdrError_eq_none {i : Nat} {cdr : CentralDirectoryRecord} :
    jar.cdrError i cdr = none ↔ jar.Accepted cdr := by
  unfold cdrError Accepted
  split_ifs with h1 h2 h3 h4 <;> simp <;> omega

theorem within_cdrReads (cdr : CentralDirectoryRecord) :
    ∀ range ∈ jar.cdrReads cdr, range.Within jar.sizeBytes := by
  unfold cdrReads
  split_ifs with h
  · simp
  · simp only [List.mem_singleton, forall_eq, Range.Within, cdrSizeBytes]
    omega

/-- The name is not in the table. -/
def Fresh (m : Finmap fun _ : Key => Option JarEntry) (name : Key) : Prop :=
  (m.lookup name).getD default = none

variable {m : Finmap fun _ : Key => Option JarEntry} {entries : JarTable}

theorem fresh_insert {name name' : Key} {ent : JarEntry} :
    Fresh (m.insert name (some ent)) name' ↔ name' ≠ name ∧ Fresh m name' := by
  unfold Fresh
  by_cases h : name' = name
  · rw [h, Finmap.lookup_insert]
    simp
  · rw [Finmap.lookup_insert_of_ne _ h]
    simp [h]

/-- What the loop does with one record. -/
theorem parseRecords_succ (hm : Represents entries m) (n i cdOffset : Nat) :
    let cdr := readCdr jar.data cdOffset
    (¬jar.Accepted cdr ∧ ∃ reads error,
      jar.parseRecords (n + 1) i cdOffset entries = some (reads, .error error) ∧
      ∀ range ∈ reads, range.Within jar.sizeBytes) ∨
    (jar.Accepted cdr ∧ ¬Fresh m (jar.name cdr) ∧ ∃ error,
      jar.parseRecords (n + 1) i cdOffset entries
        = some (jar.cdrReads cdr ++ [cdr.filename], .error error)) ∨
    (jar.Accepted cdr ∧ Fresh m (jar.name cdr) ∧ ∃ entries',
      Represents entries' (m.insert (jar.name cdr) (some cdr.entry)) ∧
      jar.parseRecords (n + 1) i cdOffset entries
        = (jar.parseRecords n (i + 1) cdr.next entries').map fun p =>
            (jar.cdrReads cdr ++ [cdr.filename] ++ p.1, p.2)) := by
  intro cdr
  cases herr : jar.cdrError i cdr with
  | some error =>
    refine .inl ⟨fun hacc => ?_, jar.cdrReads cdr, error, ?_, within_cdrReads cdr⟩
    · rw [cdrError_eq_none.2 hacc] at herr
      cases herr
    · rw [parseRecords]
      dsimp only
      rw [show jar.cdrError i (readCdr jar.data cdOffset) = some error from herr]
  | none =>
    have hacc := cdrError_eq_none.1 herr
    obtain ⟨entries', hins, hm'⟩ := insert_spec hm (jar.name cdr) (some cdr.entry)
    have hstep : jar.parseRecords (n + 1) i cdOffset entries
        = if (m.lookup (jar.name cdr)).getD default ≠ none then
            some (jar.cdrReads cdr ++ [cdr.filename], .error
              (snprintf (text "duplicate filename in JAR: " ++ cString (jar.name cdr))))
          else (jar.parseRecords n (i + 1) cdr.next entries').map fun p =>
            (jar.cdrReads cdr ++ [cdr.filename] ++ p.1, p.2) := by
      rw [parseRecords]
      dsimp only
      rw [show jar.cdrError i (readCdr jar.data cdOffset) = none from herr]
      simp only [Option.bind_eq_bind]
      rw [show entries.insert (jar.name (readCdr jar.data cdOffset))
        (some (readCdr jar.data cdOffset).entry) = _ from hins]
      rw [Option.bind_some]
      split_ifs with hold
      · rfl
      · cases jar.parseRecords n (i + 1) cdr.next entries' <;> rfl
    by_cases hfresh : (m.lookup (jar.name cdr)).getD default = none
    · refine .inr (.inr ⟨hacc, hfresh, entries', hm', ?_⟩)
      rw [hstep, if_neg (not_not.2 hfresh)]
    · refine .inr (.inl ⟨hacc, hfresh,
        snprintf (text "duplicate filename in JAR: " ++ cString (jar.name cdr)), ?_⟩)
      rw [hstep, if_pos hfresh]

/-! ### The directory -/

/-- All records can be added to a table. -/
structure Addable (jar : MappedJar) (m : Finmap fun _ : Key => Option JarEntry)
    (rs : List CentralDirectoryRecord) : Prop where
  accepted : ∀ r ∈ rs, jar.Accepted r
  distinct : jar.Distinct rs
  fresh : ∀ r ∈ rs, Fresh m (jar.name r)

/-- A record that comes behind some that can be added has its name in the file. -/
def NamesWithin (jar : MappedJar) (m : Finmap fun _ : Key => Option JarEntry)
    (rs : List CentralDirectoryRecord) : Prop :=
  ∀ before cdr after, rs = before ++ cdr :: after → Addable jar m before → jar.Accepted cdr →
    cdr.filename.Within jar.sizeBytes

/-- The records are added. -/
def addAll (jar : MappedJar) (m : Finmap fun _ : Key => Option JarEntry)
    (rs : List CentralDirectoryRecord) : Finmap fun _ : Key => Option JarEntry :=
  rs.foldl (fun m r => m.insert (jar.name r) (some r.entry)) m

variable {r : CentralDirectoryRecord} {rs : List CentralDirectoryRecord}

theorem addable_cons : Addable jar m (r :: rs) ↔ jar.Accepted r ∧ Fresh m (jar.name r) ∧
    Addable jar (m.insert (jar.name r) (some r.entry)) rs := by
  constructor
  · rintro ⟨hacc, hdist, hfresh⟩
    rw [List.forall_mem_cons] at hacc hfresh
    rw [Distinct, List.map_cons, List.nodup_cons] at hdist
    refine ⟨hacc.1, hfresh.1, hacc.2, hdist.2, fun r' hr' => fresh_insert.2 ⟨?_, hfresh.2 r' hr'⟩⟩
    rintro heq
    exact hdist.1 (heq ▸ List.mem_map_of_mem hr')
  · rintro ⟨hacc, hfresh, haccs, hdist, hfreshs⟩
    refine ⟨List.forall_mem_cons.2 ⟨hacc, haccs⟩, ?_,
      List.forall_mem_cons.2 ⟨hfresh, fun r' hr' => (fresh_insert.1 (hfreshs r' hr')).2⟩⟩
    rw [Distinct, List.map_cons, List.nodup_cons]
    refine ⟨fun hmem => ?_, hdist⟩
    obtain ⟨r', hr', heq⟩ := List.mem_map.1 hmem
    exact (fresh_insert.1 (hfreshs r' hr')).1 heq

theorem namesWithin_cons : NamesWithin jar m (r :: rs) ↔ jar.Accepted r →
    r.filename.Within jar.sizeBytes ∧ (Fresh m (jar.name r) →
      NamesWithin jar (m.insert (jar.name r) (some r.entry)) rs) := by
  constructor
  · intro h hacc
    refine ⟨h [] r rs rfl ⟨by simp, by simp [Distinct], by simp⟩ hacc, ?_⟩
    rintro hfresh before cdr after rfl hbefore
    exact h (r :: before) cdr after rfl (addable_cons.2 ⟨hacc, hfresh, hbefore⟩)
  · rintro h (_ | ⟨r', before⟩) cdr after heq hbefore hacc
    · obtain ⟨rfl, rfl⟩ := List.cons.inj heq
      exact (h hacc).1
    · obtain ⟨rfl, rfl⟩ := List.cons.inj heq
      obtain ⟨hr, hfresh, hbefore⟩ := addable_cons.1 hbefore
      exact (h hr).2 hfresh before cdr after rfl hbefore hacc

theorem lookup_addAll_of_notMem {k : Key} : ∀ {rs : List CentralDirectoryRecord}
    {m : Finmap fun _ : Key => Option JarEntry}, k ∉ rs.map jar.name →
    (addAll jar m rs).lookup k = m.lookup k
  | [], _, _ => rfl
  | r :: rs, m, h => by
    rw [List.map_cons, List.mem_cons, not_or] at h
    rw [addAll, List.foldl_cons, ← addAll, lookup_addAll_of_notMem h.2,
      Finmap.lookup_insert_of_ne _ h.1]

theorem lookup_addAll : ∀ {rs : List CentralDirectoryRecord}
    {m : Finmap fun _ : Key => Option JarEntry}, jar.Distinct rs → r ∈ rs →
    (addAll jar m rs).lookup (jar.name r) = some (some r.entry)
  | r' :: rs, m, hdist, hr => by
    rw [Distinct, List.map_cons, List.nodup_cons] at hdist
    rw [addAll, List.foldl_cons, ← addAll]
    rcases List.mem_cons.1 hr with rfl | hr
    · rw [lookup_addAll_of_notMem hdist.1, Finmap.lookup_insert]
    · exact lookup_addAll hdist.2 hr

/-- The loop reads in the file when the names are in it, and adds all records if it can. -/
theorem parseRecords_spec : ∀ (n i cdOffset : Nat) {entries : JarTable}
    {m : Finmap fun _ : Key => Option JarEntry}, Represents entries m →
    ∃ reads result, jar.parseRecords n i cdOffset entries = some (reads, result) ∧
      ((∀ range ∈ reads, range.Within jar.sizeBytes) ↔
        NamesWithin jar m (jar.recordsFrom n cdOffset)) ∧
      (Addable jar m (jar.recordsFrom n cdOffset) ↔ ∃ entries', result = .ok entries') ∧
      ∀ entries', result = .ok entries' →
        Represents entries' (addAll jar m (jar.recordsFrom n cdOffset))
  | 0, i, cdOffset, entries, m, hm => by
    refine ⟨[], .ok entries, rfl, ?_, ?_, ?_⟩
    · simp [NamesWithin, recordsFrom]
    · exact iff_of_true ⟨by simp [recordsFrom], by simp [recordsFrom, Distinct],
        by simp [recordsFrom]⟩ ⟨entries, rfl⟩
    · rintro entries' ⟨⟩
      exact hm
  | n + 1, i, cdOffset, entries, m, hm => by
    rw [recordsFrom]
    rcases parseRecords_succ hm n i cdOffset with ⟨hacc, reads, error, hparse, hin⟩ |
      ⟨hacc, hfresh, error, hparse⟩ | ⟨hacc, hfresh, entries', hm', hparse⟩
    · refine ⟨reads, _, hparse, ?_, ?_, fun _ h => by cases h⟩
      · exact iff_of_true hin (namesWithin_cons.2 fun h => (hacc h).elim)
      · exact iff_of_false (fun h => hacc (addable_cons.1 h).1) (by simp)
    · refine ⟨_, _, hparse, ?_, ?_, fun _ h => by cases h⟩
      · rw [List.forall_mem_append, List.forall_mem_singleton, namesWithin_cons]
        exact ⟨fun h _ => ⟨h.2, fun hf => (hfresh hf).elim⟩,
          fun h => ⟨within_cdrReads _, (h hacc).1⟩⟩
      · exact iff_of_false (fun h => hfresh (addable_cons.1 h).2.1) (by simp)
    · obtain ⟨reads, result, hrest, hin, hadd, htable⟩ :=
        parseRecords_spec n (i + 1) (readCdr jar.data cdOffset).next hm'
      rw [hrest, Option.map_some] at hparse
      refine ⟨_, result, hparse, ?_, ?_, htable⟩
      · rw [List.forall_mem_append, List.forall_mem_append, List.forall_mem_singleton, hin,
          namesWithin_cons]
        exact ⟨fun h _ => ⟨h.1.2, fun _ => h.2⟩,
          fun h => ⟨⟨within_cdrReads _, (h hacc).1⟩, (h hacc).2 hfresh⟩⟩
      · rw [addable_cons, ← hadd]
        exact ⟨fun h => h.2.2, fun h => ⟨hacc, hfresh, h⟩⟩

theorem addable_empty {rs : List CentralDirectoryRecord} :
    Addable jar ∅ rs ↔ (∀ r ∈ rs, jar.Accepted r) ∧ jar.Distinct rs :=
  ⟨fun h => ⟨h.accepted, h.distinct⟩,
    fun h => ⟨h.1, h.2, fun r _ => by rw [Fresh, Finmap.lookup_empty]; rfl⟩⟩

theorem parseCentralDirectory_spec (cdOffset expected : Nat) :
    ∃ reads result, jar.parseCentralDirectory cdOffset expected noEntries = some (reads, result) ∧
      ((∀ range ∈ reads, range.Within jar.sizeBytes) ↔
        NamesWithin jar ∅ (jar.recordsFrom expected cdOffset)) ∧
      (Addable jar ∅ (jar.recordsFrom expected cdOffset) ↔ ∃ entries', result = .ok entries') ∧
      ∀ entries', result = .ok entries' →
        Represents entries' (addAll jar ∅ (jar.recordsFrom expected cdOffset)) := by
  have hempty : Represents noEntries ∅ := represents_make _ Nat.zero_lt_one
  obtain ⟨entries, hreserve, hentries⟩ :=
    rehash_spec hempty (Nat.succ_pos (noEntries.loadFactor.scaled expected + 1))
  rw [parseCentralDirectory, reserve, Option.bind_eq_bind,
    show noEntries.rehash (noEntries.loadFactor.scaled expected + 2) = some entries from hreserve,
    Option.bind_some]
  exact parseRecords_spec expected 0 cdOffset hentries

/-- Loading a file returns, reads in it when it gets to no name that is cut off, and comes to a
table with all records if they can be added. -/
theorem loadFilesystemJar_spec (jar : MappedJar) (filename : List UInt8) :
    ∃ reads result, jar.loadFilesystemJar filename = some (reads, result) ∧
      ((∀ range ∈ reads, range.Within jar.sizeBytes) ↔ jar.NamesInFile) ∧
      (jar.HasDirectory ∧ Addable jar ∅ jar.records ↔ ∃ entries', result = .ok entries') ∧
      ∀ entries', result = .ok entries' → Represents entries' (addAll jar ∅ jar.records) := by
  unfold loadFilesystemJar
  simp only []
  split_ifs with hsize hsig hdisk
  · refine ⟨_, _, rfl, ?_, ?_, fun _ h => by cases h⟩
    · exact iff_of_true (by simp) fun h => absurd h.1 (by omega)
    · exact iff_of_false (fun h => absurd h.1.1 (by omega)) (by simp)
  · refine ⟨_, _, rfl, ?_, ?_, fun _ h => by cases h⟩
    · refine iff_of_true ?_ fun h => absurd h.2.1 hsig
      simp only [List.mem_singleton, forall_eq, Range.Within]
      omega
    · exact iff_of_false (fun h => hsig h.1.2.1) (by simp)
  · have hno : ¬jar.HasDirectory := fun h => by
      rcases hdisk with h1 | h2 | h3
      · exact h1 h.2.2.1
      · exact h2 h.2.2.2.1
      · exact h3 h.2.2.2.2
    refine ⟨_, _, rfl, ?_, ?_, fun _ h => by cases h⟩
    · refine iff_of_true ?_ fun h => (hno h).elim
      simp only [List.forall_mem_cons, List.not_mem_nil, Range.Within]
      refine ⟨by omega, by omega, by simp⟩
    · exact iff_of_false (fun h => hno h.1) (by simp)
  · simp only [not_or, not_not] at hdisk hsig
    have hhas : jar.HasDirectory := ⟨not_lt.1 hsize, hsig, hdisk⟩
    obtain ⟨reads, result, hparse, hin, hadd, htable⟩ :=
      @parseCentralDirectory_spec jar jar.eocdr.cdOffset jar.eocdr.numEntries
    rw [hparse, Option.map_some]
    refine ⟨_, _, rfl, ?_, ?_, ?_⟩
    · have hnames : jar.NamesInFile ↔ NamesWithin jar ∅ jar.records := by
        constructor
        · exact fun h before cdr after heq hbefore hacc =>
            h hhas before cdr after heq hbefore.accepted hbefore.distinct hacc
        · exact fun h _ before cdr after heq haccs hdist hacc =>
            h before cdr after heq (addable_empty.2 ⟨haccs, hdist⟩) hacc
      rw [hnames, records, ← hin, List.forall_mem_append]
      refine and_iff_right ?_
      simp only [List.forall_mem_cons, List.not_mem_nil, Range.Within]
      refine ⟨by omega, by omega, by simp⟩
    · rw [records, hadd, and_iff_right hhas]
      cases result <;> simp [Except.mapError]
    · cases result with
      | error _ =>
        rintro entries' ⟨⟩
      | ok entries =>
        rintro entries' ⟨⟩
        exact htable entries rfl

end MappedJar

/-! ### One entry -/

theorem keyOf_name (cdr : CentralDirectoryRecord) :
    keyOf (jar.name cdr) (jar.name cdr).length = jar.name cdr :=
  Strings.keyOf_length _

variable {entries : JarTable} {cdr : CentralDirectoryRecord}

/-- The lookup of a record, by its local header. -/
theorem jarLookup_cases (hacc : jar.Accepted cdr)
    (hent : entries.lookup (jar.name cdr) = some cdr.entry) :
    (¬jar.LocalHeaderOk cdr ∧ (jarLookup inflate jar entries (jar.name cdr)).2 = .corrupt ∧
      ∀ range ∈ (jarLookup inflate jar entries (jar.name cdr)).1, range.Within jar.sizeBytes) ∨
    (jar.LocalHeaderOk cdr ∧ ∃ reads,
      (∀ range ∈ reads, range.Within jar.sizeBytes) ∧
      let start := cdr.localHeaderOffset + jar.dataOffset cdr.localHeaderOffset
      jarLookup inflate jar entries (jar.name cdr)
        = if cdr.compression = 0 then
            (reads ++ [⟨start, cdr.uncompressedSize⟩],
              .found (bytesAt jar.data start cdr.uncompressedSize))
          else
            (reads ++ [⟨start, cdr.compressedSize⟩],
              match inflate (bytesAt jar.data start cdr.compressedSize) cdr.uncompressedSize with
              | none => .corrupt
              | some bytes => .found bytes)) := by
  have hheader := hacc.2.2.1
  have hreads : ∀ range ∈ [(⟨cdr.localHeaderOffset, 4⟩ : Range), ⟨cdr.localHeaderOffset + 26, 2⟩,
      ⟨cdr.localHeaderOffset + 28, 2⟩], range.Within jar.sizeBytes := by
    simp only [List.forall_mem_cons, List.not_mem_nil, Range.Within]
    exact ⟨by omega, by omega, by omega, by simp⟩
  have hlookup : jarLookup inflate jar entries (jar.name cdr)
      = jarExtract inflate jar cdr.entry := by
    rw [jarLookup, keyOf_name, hent]
  rw [hlookup, jarExtract]
  by_cases hsig : bytesAt jar.data cdr.entry.header 4 ≠ MappedJar.localSignature
  · refine .inl ⟨fun h => hsig h.1, ?_⟩
    dsimp only
    rw [if_pos hsig]
    exact ⟨rfl, fun range h => hreads range (List.mem_cons.2 (.inl (List.mem_singleton.1 h)))⟩
  by_cases hdata : jar.sizeBytes < jar.dataOffset cdr.entry.header + cdr.entry.compressedSize
      + cdr.entry.header
  · refine .inl ⟨fun h => absurd h.2 (not_le.2 hdata), ?_⟩
    dsimp only
    rw [if_neg hsig, if_pos hdata]
    exact ⟨rfl, hreads⟩
  · refine .inr ⟨⟨not_not.1 hsig, not_lt.1 hdata⟩, _, hreads, ?_⟩
    dsimp only
    rw [if_neg hsig, if_neg hdata]
    by_cases hstored : cdr.compression = 0
    · rw [if_pos hstored, if_pos (by simp [CentralDirectoryRecord.entry, hstored])]
      rfl
    · rw [if_neg hstored, if_neg (by simp [CentralDirectoryRecord.entry, hstored])]
      rfl

/-- An entry is extracted as its record says, but for a stored one with two sizes. -/
theorem extractsEntry_iff (hacc : jar.Accepted cdr)
    (hent : entries.lookup (jar.name cdr) = some cdr.entry) :
    ExtractsEntry inflate jar entries cdr ↔
      (cdr.compression = 0 → jar.LocalHeaderOk cdr →
        cdr.uncompressedSize = cdr.compressedSize) := by
  rcases @jarLookup_cases jar inflate entries cdr hacc hent with ⟨hno, hcorrupt, hin⟩ |
    ⟨hok, reads, hin, hlookup⟩
  · refine iff_of_true ⟨hin, by simp [hcorrupt], fun bytes h => ?_⟩ fun _ h => (hno h).elim
    rw [hcorrupt] at h
    cases h
  · simp only [] at hlookup
    have hdata := hok.2
    by_cases hstored : cdr.compression = 0
    · rw [if_pos hstored] at hlookup
      constructor
      · intro h _ _
        obtain ⟨range, -, -, -, hsizes, -⟩ := h.found _ (by rw [hlookup])
        exact (hsizes hstored).1
      · intro h
        have hsizes := h hstored hok
        refine ⟨?_, by simp [hlookup], fun bytes hbytes => ?_⟩
        · rw [hlookup, List.forall_mem_append, List.forall_mem_singleton, Range.Within]
          exact ⟨hin, by dsimp only; omega⟩
        · rw [hlookup, JarLookupResult.found.injEq] at hbytes
          refine ⟨⟨cdr.localHeaderOffset + jar.dataOffset cdr.localHeaderOffset,
            cdr.compressedSize⟩, ?_, rfl, ?_, fun _ => ⟨hsizes, ?_⟩, fun h => (h hstored).elim⟩
          · dsimp only [MappedJar.dataOffset]
            omega
          · dsimp only [Range.Within]
            omega
          · rw [← hbytes, hsizes]
    · rw [if_neg hstored] at hlookup
      refine iff_of_true ⟨?_, ?_, fun bytes hbytes => ?_⟩ fun h => (hstored h).elim
      · rw [hlookup, List.forall_mem_append, List.forall_mem_singleton, Range.Within]
        exact ⟨hin, by dsimp only; omega⟩
      · rw [hlookup]
        dsimp only
        split <;> simp
      · refine ⟨⟨cdr.localHeaderOffset + jar.dataOffset cdr.localHeaderOffset,
          cdr.compressedSize⟩, ?_, rfl, ?_, fun h => (hstored h).elim, fun _ => ?_⟩
        · dsimp only [MappedJar.dataOffset]
          omega
        · dsimp only [Range.Within]
          omega
        · rw [hlookup] at hbytes
          dsimp only at hbytes ⊢
          split at hbytes
          · cases hbytes
          · rw [JarLookupResult.found.injEq] at hbytes
            rw [← hbytes]
            assumption

/-- A file is loaded and extracted as it should be when no name that the parser gets to is cut off,
and each stored entry that can be looked up has one size. -/
theorem extractsSafely_iff (inflate : Inflate) (jar : MappedJar) (filename : List UInt8) :
    ExtractsSafely inflate jar filename ↔ jar.NamesInFile ∧ jar.StoredSizesAgree := by
  obtain ⟨reads, result, hload, hin, hadd, htable⟩ := jar.loadFilesystemJar_spec filename
  have hentry : ∀ entries, result = .ok entries → ∀ cdr ∈ jar.records,
      jar.Accepted cdr ∧ entries.lookup (jar.name cdr) = some cdr.entry := by
    intro entries hok cdr hcdr
    obtain ⟨-, haddable⟩ := hadd.2 ⟨entries, hok⟩
    refine ⟨haddable.accepted cdr hcdr, ?_⟩
    rw [lookup_spec (htable entries hok), MappedJar.lookup_addAll haddable.distinct hcdr]
    rfl
  constructor
  · rintro ⟨reads', result', hload', hin', hextract⟩
    rw [hload, Option.some.injEq, Prod.mk.injEq] at hload'
    obtain ⟨rfl, rfl⟩ := hload'
    refine ⟨hin.1 hin', fun hhas haccs hdist r hr => ?_⟩
    obtain ⟨entries, hok⟩ := hadd.1 ⟨hhas, MappedJar.addable_empty.2 ⟨haccs, hdist⟩⟩
    obtain ⟨hacc, hent⟩ := hentry entries hok r hr
    exact (extractsEntry_iff hacc hent).1 (hextract entries hok r hr)
  · rintro ⟨hnames, hsizes⟩
    refine ⟨reads, result, hload, hin.2 hnames, fun entries hok cdr hcdr => ?_⟩
    obtain ⟨hacc, hent⟩ := hentry entries hok cdr hcdr
    obtain ⟨hhas, haddable⟩ := hadd.2 ⟨entries, hok⟩
    exact (extractsEntry_iff hacc hent).2
      (hsizes hhas haddable.accepted haddable.distinct cdr hcdr)

/-- A record with a name of 65535 bytes, and the end of its directory. -/
def cutOffName : List UInt8 :=
  [0x50, 0x4B, 0x01, 0x02] ++ List.replicate 24 0 ++ [0xFF, 0xFF] ++ List.replicate 16 0
    ++ [0x50, 0x4B, 0x05, 0x06, 0, 0, 0, 0, 1, 0, 1, 0, 46, 0, 0, 0] ++ List.replicate 6 0

def cutOffNameJar : MappedJar where
  data := memoryOf cutOffName
  sizeBytes := 68
  size_lt := by decide

/-- The name is read behind the file. -/
theorem cutOffNameJar_not_extractsSafely :
    ¬ExtractsSafely (fun _ _ => none) cutOffNameJar [] := by
  rintro ⟨reads, result, hload, hin, -⟩
  obtain ⟨reads', result', hload', hin', -⟩ := cutOffNameJar.loadFilesystemJar_spec []
  rw [hload', Option.some.injEq, Prod.mk.injEq] at hload
  obtain ⟨rfl, rfl⟩ := hload
  have hname := hin'.1 hin (by unfold MappedJar.HasDirectory; decide) []
    (readCdr cutOffNameJar.data 0) [] rfl (by simp) List.nodup_nil
    (by unfold MappedJar.Accepted; decide)
  revert hname
  decide

end BJvm.Classpath
