import BJvm.Adt.StringHashTable
import BJvm.Parsing.Reader

/-!
# JAR files

The part of `classpath.c` that reads a ZIP file in memory.  Every function leaves the parts of the
file that it reads, by their offsets from `jar->data`.  A mapping has bytes behind it, too; the
question is whether they are read.
-/

namespace BJvm.Classpath

open Adt Parsing

/-- A number in `n` bytes, the low one first. -/
def leNat (m : ByteMemory) (a : Nat) : Nat → Nat
  | 0 => 0
  | n + 1 => (m a).toNat + 256 * leNat m (a + 1) n

/-- Bytes that are read. -/
structure Range where
  offset : Nat
  length : Nat
  deriving DecidableEq

/-- The bytes are among the first `size`. -/
def Range.Within (size : Nat) (r : Range) : Prop := r.offset + r.length ≤ size

instance (size : Nat) : DecidablePred (Range.Within size) :=
  fun r => inferInstanceAs (Decidable (r.offset + r.length ≤ size))

/-- `mapped_jar`, but for its table. -/
structure MappedJar where
  data : ByteMemory
  sizeBytes : Nat
  size_lt : sizeBytes < 2 ^ 32

/-- `jar_entry`; the header is an offset. -/
structure JarEntry where
  header : Nat
  compressedSize : Nat
  claimedUncompressedSize : Nat
  isCompressed : Bool
  deriving DecidableEq

/-- `jar->entries`; the values are pointers. -/
abbrev JarTable := StringHashTable (Option JarEntry)

/-! ### Messages -/

abbrev Message := List UInt8

def text (s : String) : Message := s.toList.map fun c => .ofNat c.toNat

/-- `snprintf` to a buffer of 256 bytes. -/
def snprintf (message : Message) : Message := message.take 255

/-- What `%s` prints. -/
def cString (bytes : List UInt8) : Message := bytes.takeWhile (· ≠ 0)

/-! ### The central directory -/

/-- `central_directory_record`, as far as it is looked at, with where it is. -/
structure CentralDirectoryRecord where
  offset : Nat
  header : Nat
  compression : Nat
  compressedSize : Nat
  uncompressedSize : Nat
  filenameLen : Nat
  extraLen : Nat
  commentLen : Nat
  localHeaderOffset : Nat

def readCdr (m : ByteMemory) (a : Nat) : CentralDirectoryRecord where
  offset := a
  header := leNat m a 4
  compression := leNat m (a + 10) 2
  compressedSize := leNat m (a + 20) 4
  uncompressedSize := leNat m (a + 24) 4
  filenameLen := leNat m (a + 28) 2
  extraLen := leNat m (a + 30) 2
  commentLen := leNat m (a + 32) 2
  localHeaderOffset := leNat m (a + 42) 4

def cdrSizeBytes : Nat := 46
def cdrHeader : Nat := 0x02014b50

namespace CentralDirectoryRecord

variable (cdr : CentralDirectoryRecord)

/-- Where the name is. -/
def filename : Range := ⟨cdr.offset + cdrSizeBytes, cdr.filenameLen⟩

/-- Where the next record is. -/
def next : Nat := cdr.offset + (cdrSizeBytes + cdr.filenameLen + cdr.extraLen + cdr.commentLen)

def entry : JarEntry where
  header := cdr.localHeaderOffset
  compressedSize := cdr.compressedSize
  claimedUncompressedSize := cdr.uncompressedSize
  isCompressed := cdr.compression ≠ 0

end CentralDirectoryRecord

namespace MappedJar

variable (jar : MappedJar)

/-- The bytes of a name, which the table reads. -/
def name (cdr : CentralDirectoryRecord) : Key :=
  bytesAt jar.data cdr.filename.offset cdr.filename.length

/-- The checks of record `i`.  The structure has two bytes more than the record. -/
def cdrError (i : Nat) (cdr : CentralDirectoryRecord) : Option Message :=
  if jar.sizeBytes < cdr.offset + 48 then
    some (snprintf (text "cdr " ++ text (toString i) ++ text " out of bounds"))
  else if cdr.header ≠ cdrHeader then some (text "missing cdr header bytes")
  else if jar.sizeBytes < cdr.localHeaderOffset + 30 + cdr.compressedSize then
    some (snprintf (text "cdr " ++ text (toString i) ++ text " local header out of bounds"))
  else if cdr.compression ≠ 0 ∧ cdr.compression ≠ 8 then
    some (snprintf (text "cdr " ++ text (toString i) ++ text " has unsupported compression type "
      ++ text (toString cdr.compression) ++ text " (supported: 0, 8)"))
  else none

/-- What the checks read. -/
def cdrReads (cdr : CentralDirectoryRecord) : List Range :=
  if jar.sizeBytes < cdr.offset + 48 then [] else [⟨cdr.offset, cdrSizeBytes⟩]

/-- The loop of `parse_central_directory`, with `n` records to go from number `i` on. -/
def parseRecords : (n i cdOffset : Nat) → JarTable →
    Option (List Range × Except Message JarTable)
  | 0, _, _, entries => some ([], .ok entries)
  | n + 1, i, cdOffset, entries =>
    let cdr := readCdr jar.data cdOffset
    match jar.cdrError i cdr with
    | some error => some (jar.cdrReads cdr, .error error)
    | none => do
      let (entries, old) ← entries.insert (jar.name cdr) (some cdr.entry)
      let reads := jar.cdrReads cdr ++ [cdr.filename]
      if old ≠ none then
        return (reads, .error
          (snprintf (text "duplicate filename in JAR: " ++ cString (jar.name cdr))))
      else
        let (reads', result) ← parseRecords n (i + 1) cdr.next entries
        return (reads ++ reads', result)

/-- `parse_central_directory` -/
def parseCentralDirectory (cdOffset expected : Nat) (entries : JarTable) :
    Option (List Range × Except Message JarTable) := do
  let entries ← entries.reserve expected
  jar.parseRecords expected 0 cdOffset entries

/-! ### The end of the central directory -/

/-- `end_of_central_directory_record`, as far as it is looked at. -/
structure EndOfCentralDirectoryRecord where
  signature : List UInt8
  diskNumber : Nat
  diskWithCd : Nat
  numEntries : Nat
  totalEntries : Nat
  cdOffset : Nat

/-- The last 22 bytes. -/
def eocdr : EndOfCentralDirectoryRecord :=
  let a := jar.sizeBytes - 22
  { signature := bytesAt jar.data a 4
    diskNumber := leNat jar.data (a + 4) 2
    diskWithCd := leNat jar.data (a + 6) 2
    numEntries := leNat jar.data (a + 8) 2
    totalEntries := leNat jar.data (a + 10) 2
    cdOffset := leNat jar.data (a + 16) 4 }

/-- `"PK\005\006"` -/
def eocdSignature : List UInt8 := [0x50, 0x4B, 0x05, 0x06]

/-- `make_hash_table(free, 0.75, 1)` -/
def noEntries : JarTable := makeHashTable (.ofRat (3 / 4)) 1

/-- `load_filesystem_jar`, of a file that is mapped. -/
def loadFilesystemJar (filename : List UInt8) :
    Option (List Range × Except Message JarTable) :=
  let inval (error : Message) : Message :=
    snprintf (text "Invalid JAR file " ++ cString filename ++ text ": " ++ error)
  let signatureRead : Range := ⟨jar.sizeBytes - 22, 4⟩
  let eocdrRead : Range := ⟨jar.sizeBytes - 22, 22⟩
  if jar.sizeBytes < 22 then
    some ([], .error (inval (text "Missing end of central directory record")))
  else if jar.eocdr.signature ≠ eocdSignature then
    some ([signatureRead], .error (inval (text "Missing end of central directory record")))
  else if jar.eocdr.diskNumber ≠ 0 ∨ jar.eocdr.diskWithCd ≠ 0 ∨
      jar.eocdr.numEntries ≠ jar.eocdr.totalEntries then
    some ([signatureRead, eocdrRead], .error (inval (text "Multi-disk JARs not supported")))
  else
    (jar.parseCentralDirectory jar.eocdr.cdOffset jar.eocdr.numEntries noEntries).map fun p =>
      ([signatureRead, eocdrRead] ++ p.1, p.2.mapError inval)

/-! ### Looking up -/

/-- `"PK\003\004"` -/
def localSignature : List UInt8 := [0x50, 0x4B, 0x03, 0x04]

/-- The offset of the data of an entry from its local header. -/
def dataOffset (header : Nat) : Nat :=
  30 + leNat jar.data (header + 26) 2 + leNat jar.data (header + 28) 2

end MappedJar

/-- `jar_lookup_result`, with the bytes. -/
inductive JarLookupResult
  | notFound
  | found (bytes : List UInt8)
  | corrupt
  deriving DecidableEq

/-- `inflate`, of all that there is for it to read and to a buffer of this size; none unless it gets
to the end of the stream. -/
abbrev Inflate := List UInt8 → Nat → Option (List UInt8)

/-- What `jar_lookup` does with an entry that it finds. -/
def jarExtract (inflate : Inflate) (jar : MappedJar) (jarEntry : JarEntry) :
    List Range × JarLookupResult :=
  let header := jarEntry.header
  if bytesAt jar.data header 4 ≠ MappedJar.localSignature then ([⟨header, 4⟩], .corrupt)
  else
    let offset := jar.dataOffset header
    let reads : List Range := [⟨header, 4⟩, ⟨header + 26, 2⟩, ⟨header + 28, 2⟩]
    if jar.sizeBytes < offset + jarEntry.compressedSize + header then (reads, .corrupt)
    else if ¬jarEntry.isCompressed then
      (reads ++ [⟨header + offset, jarEntry.claimedUncompressedSize⟩],
        .found (bytesAt jar.data (header + offset) jarEntry.claimedUncompressedSize))
    else
      (reads ++ [⟨header + offset, jarEntry.compressedSize⟩],
        match inflate (bytesAt jar.data (header + offset) jarEntry.compressedSize)
          jarEntry.claimedUncompressedSize with
        | none => .corrupt
        | some bytes => .found bytes)

/-- `jar_lookup` -/
def jarLookup (inflate : Inflate) (jar : MappedJar) (entries : JarTable) (filename : List UInt8) :
    List Range × JarLookupResult :=
  match entries.lookup (keyOf filename filename.length) with
  | none => ([], .notFound)
  | some jarEntry => jarExtract inflate jar jarEntry

/-! ### What a file says -/

namespace MappedJar

variable (jar : MappedJar)

/-- The `n` records from an offset on. -/
def recordsFrom : (n cdOffset : Nat) → List CentralDirectoryRecord
  | 0, _ => []
  | n + 1, cdOffset =>
    let cdr := readCdr jar.data cdOffset
    cdr :: recordsFrom n cdr.next

/-- The records of the directory. -/
def records : List CentralDirectoryRecord :=
  jar.recordsFrom jar.eocdr.numEntries jar.eocdr.cdOffset

/-- The last 22 bytes are the end of the directory of a single disk. -/
def HasDirectory : Prop :=
  22 ≤ jar.sizeBytes ∧ jar.eocdr.signature = eocdSignature ∧ jar.eocdr.diskNumber = 0 ∧
    jar.eocdr.diskWithCd = 0 ∧ jar.eocdr.numEntries = jar.eocdr.totalEntries

/-- A record in the file, with a local header and data in it. -/
def Accepted (cdr : CentralDirectoryRecord) : Prop :=
  cdr.offset + 48 ≤ jar.sizeBytes ∧ cdr.header = cdrHeader ∧
    cdr.localHeaderOffset + 30 + cdr.compressedSize ≤ jar.sizeBytes ∧
    (cdr.compression = 0 ∨ cdr.compression = 8)

/-- The local header, too, is one, and leaves the data in the file. -/
def LocalHeaderOk (cdr : CentralDirectoryRecord) : Prop :=
  bytesAt jar.data cdr.localHeaderOffset 4 = localSignature ∧
    jar.dataOffset cdr.localHeaderOffset + cdr.compressedSize + cdr.localHeaderOffset
      ≤ jar.sizeBytes

/-- The names are different, and so are those of the records before. -/
def Distinct (records : List CentralDirectoryRecord) : Prop := (records.map jar.name).Nodup

/-- Each record that the parser gets to has its name in the file. -/
def NamesInFile : Prop :=
  jar.HasDirectory → ∀ before cdr after, jar.records = before ++ cdr :: after →
    (∀ r ∈ before, jar.Accepted r) → jar.Distinct before → jar.Accepted cdr →
    cdr.filename.Within jar.sizeBytes

/-- If there is nothing wrong with the directory, each stored entry with a local header that there
is nothing wrong with has one size. -/
def StoredSizesAgree : Prop :=
  jar.HasDirectory → (∀ r ∈ jar.records, jar.Accepted r) → jar.Distinct jar.records →
    ∀ r ∈ jar.records, r.compression = 0 → jar.LocalHeaderOk r →
      r.uncompressedSize = r.compressedSize

end MappedJar

/-- Looking up the name of a record reads in the file, and finds what is at a place in the file that
the record describes, or comes to a corrupt entry. -/
structure ExtractsEntry (inflate : Inflate) (jar : MappedJar) (entries : JarTable)
    (cdr : CentralDirectoryRecord) : Prop where
  within : ∀ range ∈ (jarLookup inflate jar entries (jar.name cdr)).1,
    range.Within jar.sizeBytes
  listed : (jarLookup inflate jar entries (jar.name cdr)).2 ≠ .notFound
  found : ∀ bytes, (jarLookup inflate jar entries (jar.name cdr)).2 = .found bytes →
    ∃ range : Range, cdr.localHeaderOffset + 30 ≤ range.offset ∧
      range.length = cdr.compressedSize ∧ range.Within jar.sizeBytes ∧
      (cdr.compression = 0 → cdr.uncompressedSize = cdr.compressedSize ∧
        bytes = bytesAt jar.data range.offset range.length) ∧
      (cdr.compression ≠ 0 → inflate (bytesAt jar.data range.offset range.length)
        cdr.uncompressedSize = some bytes)

/-- Loading a file returns, reads in the file, and comes to an error or to a table from which each
record of the directory can be extracted. -/
def ExtractsSafely (inflate : Inflate) (jar : MappedJar) (filename : List UInt8) : Prop :=
  ∃ reads result, jar.loadFilesystemJar filename = some (reads, result) ∧
    (∀ range ∈ reads, range.Within jar.sizeBytes) ∧
    ∀ entries, result = .ok entries → ∀ cdr ∈ jar.records, ExtractsEntry inflate jar entries cdr

end BJvm.Classpath
