import Mathlib.Algebra.Order.Floor.Defs
import Mathlib.Data.Rat.Floor

/-!
# The string hash table

`string_hash_table` of `adt.c`.  A bucket has its first entry in the array of the table and the rest
on a chain; a key is the bytes that it points to, of which there are fewer than `2 ^ 31`.  The
values are pointers, with the default of their type for the null pointer.
-/

namespace BJvm.Adt

abbrev Key := List UInt8

/-- The bytes of a key that is passed as a pointer and a length, which is -1 for a string that ends
in a zero. -/
def keyOf (chars : List UInt8) (len : Int) : Key :=
  if len = -1 then chars.takeWhile (· ≠ 0) else chars.take len.toNat

/-! ### Hashing -/

/-- `memcpy` to a `u64`. -/
def word (bytes : List UInt8) : UInt64 := bytes.foldr (fun b w => w <<< 8 ||| b.toUInt64) 0

def fxhashConst : UInt64 := 0x517cc1b727220a95

def fxhashRound (hash word : UInt64) : UInt64 :=
  ((hash <<< 5 ||| hash >>> 59) ^^^ word) * fxhashConst

/-- The loop of `fxhash_string`, and what it does with the bytes left over. -/
def fxhashLoop (hash : UInt64) : List UInt8 → UInt64
  | b0 :: b1 :: b2 :: b3 :: b4 :: b5 :: b6 :: b7 :: rest =>
    fxhashLoop (fxhashRound hash (word [b0, b1, b2, b3, b4, b5, b6, b7])) rest
  | [] => hash
  | rest => fxhashRound hash (word rest)

/-- `fxhash_string`. -/
def fxhashString (key : Key) : UInt32 := (fxhashLoop 0 key).toUInt32

/-! ### The table -/

/-- `hash_table_entry`, but for the link; no key is the null pointer. -/
structure Entry (V : Type) where
  key : Option Key
  data : V

/-- The entry in the array, and those that its links lead to. -/
structure Bucket (V : Type) where
  base : Entry V
  chain : List (Entry V)

/-- What the load factor, a double, is used for. -/
structure LoadFactor where
  /-- `entries_count + 1 >= load_factor * entries_cap` -/
  reached : Nat → Nat → Bool
  /-- `(size_t)(new_capacity * load_factor)` -/
  scaled : Nat → Nat

/-- A load factor that doubles can multiply without rounding. -/
def LoadFactor.ofRat (q : ℚ) : LoadFactor where
  reached count cap := q * cap ≤ count + 1
  scaled n := ⌊n * q⌋₊

/-- `string_hash_table`. -/
structure StringHashTable (V : Type) where
  entries : List (Bucket V)
  entriesCount : Nat
  loadFactor : LoadFactor

variable {V : Type} [Inhabited V]

/-- What `calloc` leaves. -/
def Bucket.zero : Bucket V := { base := { key := none, data := default }, chain := [] }

/-- `make_hash_table`. -/
def makeHashTable (loadFactor : LoadFactor) (initialCapacity : Nat) : StringHashTable V where
  entries := List.replicate initialCapacity .zero
  entriesCount := 0
  loadFactor

namespace Bucket

variable (b : Bucket V)

def entries : List (Entry V) := b.base :: b.chain

/-- The loop of `find_hash_table_entry`: whether the keys are equal, and which entry it stops at, the
first of which is number `i`. -/
def findFrom (key : Key) : Entry V → List (Entry V) → Nat → Bool × Nat
  | ent, rest, i =>
    if ent.key = some key then (true, i)
    else
      match rest with
      | [] => (false, i)
      | next :: rest => findFrom key next rest (i + 1)

def find (key : Key) : Bool × Nat := findFrom key b.base b.chain 0

/-- `ent->data = value`. -/
def setData (value : V) : Nat → Bucket V
  | 0 => { b with base := { b.base with data := value } }
  | i + 1 => { b with chain := b.chain.modify i fun ent => { ent with data := value } }

/-- A new entry behind the last one, or in the array if there is none. -/
def add (onChain : Bool) (key : Key) (value : V) : Bucket V :=
  let ent : Entry V := { key := some key, data := value }
  if onChain || b.base.key.isSome then { b with chain := b.chain ++ [ent] }
  else { base := ent, chain := [] }

/-- Takes out an entry: one on the chain is unlinked, and one in the array is overwritten by the
next, or loses its key. -/
def remove : Nat → Bucket V
  | 0 =>
    match b.chain with
    | next :: chain => { base := next, chain }
    | [] => { b with base := { b.base with key := none } }
  | i + 1 => { b with chain := b.chain.eraseIdx i }

end Bucket

namespace StringHashTable

variable (tbl : StringHashTable V)

def entriesCap : Nat := tbl.entries.length

/-- The index of the bucket that a key is kept in. -/
def slot (key : Key) : Nat := (fxhashString key).toNat % tbl.entriesCap

def bucket (i : Nat) : Bucket V := tbl.entries.getD i .zero

def setBucket (i : Nat) (b : Bucket V) : StringHashTable V :=
  { tbl with entries := tbl.entries.set i b }

/-! ### Iteration -/

/-- `hash_table_iterator`: the bucket, and the entry in it. -/
structure Iterator where
  currentBase : Nat
  current : Nat := 0

/-- Advances to a bucket with a key, from the `i`-th on. -/
def skipEmpty : List (Bucket V) → Nat → Nat
  | [], i => i
  | b :: bs, i => if b.base.key = none then skipEmpty bs (i + 1) else i

/-- `hash_table_get_iterator`. -/
def getIterator : Iterator := { currentBase := skipEmpty tbl.entries 0 }

/-- `hash_table_iterator_has_next`: the entry, if there is one. -/
def hasNext (it : Iterator) : Option (Entry V) :=
  if it.currentBase = tbl.entriesCap then none
  else (tbl.bucket it.currentBase).entries[it.current]?

/-- `hash_table_iterator_next`. -/
def next (it : Iterator) : Iterator :=
  if it.currentBase = tbl.entriesCap then it
  else if it.current + 1 < (tbl.bucket it.currentBase).entries.length then
    { it with current := it.current + 1 }
  else
    { currentBase := skipEmpty (tbl.entries.drop (it.currentBase + 1)) (it.currentBase + 1) }

/-- The entries that a loop over the iterator is given, at most `n` of them. -/
def iterateFrom : Nat → Iterator → List (Entry V)
  | 0, _ => []
  | n + 1, it =>
    match tbl.hasNext it with
    | none => []
    | some ent => ent :: iterateFrom n (tbl.next it)

/-- The loop over the iterator; no table has more entries than buckets and chains have room for. -/
def iterate : List (Entry V) :=
  tbl.iterateFrom (tbl.entries.map fun b => b.entries.length).sum tbl.getIterator

/-! ### Operations -/

/-- `hash_table_lookup`. -/
def lookup (key : Key) : V :=
  let b := tbl.bucket (tbl.slot key)
  let (equal, i) := b.find key
  if equal then (b.entries[i]?.map (·.data)).getD default else default

/-- `hash_table_contains`. -/
def contains (key : Key) : Bool := ((tbl.bucket (tbl.slot key)).find key).1

/-- `hash_table_delete`. -/
def delete (key : Key) : StringHashTable V × V :=
  let b := tbl.bucket (tbl.slot key)
  let (equal, i) := b.find key
  if equal then
    ({ tbl.setBucket (tbl.slot key) (b.remove i) with entriesCount := tbl.entriesCount - 1 },
      (b.entries[i]?.map (·.data)).getD default)
  else (tbl, default)

/-- `hash_table_insert_impl` behind the check of the load. -/
def insertEntry (key : Key) (value : V) : StringHashTable V × V :=
  let b := tbl.bucket (tbl.slot key)
  let (equal, i) := b.find key
  if equal then
    (tbl.setBucket (tbl.slot key) (b.setData value i), (b.entries[i]?.map (·.data)).getD default)
  else
    ({ tbl.setBucket (tbl.slot key) (b.add (i ≠ 0) key value) with
       entriesCount := tbl.entriesCount + 1 },
      default)

/-- `hash_table_insert_impl`, which rehashes in this way. -/
def insertImpl (rehash : StringHashTable V → Nat → Option (StringHashTable V)) (key : Key)
    (value : V) : Option (StringHashTable V × V) :=
  if tbl.loadFactor.reached tbl.entriesCount tbl.entriesCap then
    (rehash tbl (tbl.entriesCap * 2)).map fun tbl => tbl.insertEntry key value
  else some (tbl.insertEntry key value)

/-- `hash_table_rehash`, with the depth that it and `hash_table_insert_impl` may call each other
to. -/
def rehashAt : Nat → StringHashTable V → Nat → Option (StringHashTable V)
  | 0, _, _ => none
  | depth + 1, tbl, newCapacity =>
    tbl.iterate.foldlM
      (fun new ent =>
        (new.insertImpl (rehashAt depth) (ent.key.getD []) ent.data).map (·.1))
      (makeHashTable tbl.loadFactor newCapacity)

/-- The calls nest less deep than there are entries. -/
def rehash (newCapacity : Nat) : Option (StringHashTable V) :=
  rehashAt (tbl.entriesCount + 1) tbl newCapacity

/-- `hash_table_insert`. -/
def insert (key : Key) (value : V) : Option (StringHashTable V × V) :=
  tbl.insertImpl rehash key value

/-- `hash_table_reserve`. -/
def reserve (newCapacity : Nat) : Option (StringHashTable V) :=
  tbl.rehash (tbl.loadFactor.scaled newCapacity + 2)

end StringHashTable

/-! ### Sequences of operations -/

inductive Op (V : Type)
  | insert (chars : List UInt8) (len : Int) (value : V)
  | delete (chars : List UInt8) (len : Int)
  | lookup (chars : List UInt8) (len : Int)
  | contains (chars : List UInt8) (len : Int)
  | reserve (newCapacity : Nat)
  | rehash (newCapacity : { n : Nat // 0 < n })
  | iterate

/-- What an operation returns. -/
inductive Result (V : Type)
  | none
  | value (v : V)
  | bool (b : Bool)
  | entries (l : List (Entry V))

def Op.apply (tbl : StringHashTable V) : Op V → Option (StringHashTable V × Result V)
  | .insert chars len v => (tbl.insert (keyOf chars len) v).map fun p => (p.1, .value p.2)
  | .delete chars len =>
    let p := tbl.delete (keyOf chars len)
    some (p.1, .value p.2)
  | .lookup chars len => some (tbl, .value (tbl.lookup (keyOf chars len)))
  | .contains chars len => some (tbl, .bool (tbl.contains (keyOf chars len)))
  | .reserve n => (tbl.reserve n).map (·, .none)
  | .rehash n => (tbl.rehash n).map (·, .none)
  | .iterate => some (tbl, .entries tbl.iterate)

/-- Applies the operations in turn; none when one does not return. -/
def runOps (tbl : StringHashTable V) : List (Op V) → Option (StringHashTable V × List (Result V))
  | [] => some (tbl, [])
  | op :: ops => do
    let (tbl, r) ← op.apply tbl
    let (tbl, rs) ← runOps tbl ops
    return (tbl, r :: rs)

end BJvm.Adt
