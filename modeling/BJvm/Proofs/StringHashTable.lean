import BJvm.Adt.StringHashTable
import Mathlib.Algebra.Order.BigOperators.Group.List
import Mathlib.Data.Finmap

/-!
# The string hash table is a finite map

A bucket is well formed when its inline entry is the last to lose its key, and a table when its
buckets are and each key is in the bucket that it hashes to.  Each operation keeps that, and changes
the map that the table represents as the operation on finite maps does.
-/

namespace BJvm.Adt

variable {V : Type} {b : Bucket V} {key k : Key} {v value : V} {i : Nat}

/-! ### Buckets -/

namespace Bucket

structure Wf (b : Bucket V) : Prop where
  base : b.base.key = none → b.chain = []
  chain : ∀ ent ∈ b.chain, ent.key ≠ none
  nodup : (b.entries.map (·.key)).Nodup

/-- The bucket maps the key to the value. -/
def Has (b : Bucket V) (key : Key) (value : V) : Prop :=
  { key := some key, data := value } ∈ b.entries

/-- The entries that an iteration stops at. -/
def listed (b : Bucket V) : List (Entry V) := if b.base.key = none then [] else b.entries

theorem wf_zero [Inhabited V] : (zero : Bucket V).Wf := ⟨fun _ => rfl, by simp [zero], by simp [zero, entries]⟩

theorem listed_zero [Inhabited V] : (zero : Bucket V).listed = [] := by simp [listed, zero]

theorem Has.eq (hw : b.Wf) (h : b.Has key v) (h' : b.Has key value) : v = value := by
  have := List.inj_on_of_nodup_map hw.nodup h h' rfl
  exact (Entry.mk.inj this).2

theorem mem_listed (hw : b.Wf) {ent : Entry V} :
    ent ∈ b.listed ↔ ent ∈ b.entries ∧ ent.key ≠ none := by
  rw [listed]
  split_ifs with hb
  · simp [entries, hw.base hb]
    rintro rfl
    exact hb
  · refine ⟨fun h => ⟨h, ?_⟩, fun h => h.1⟩
    rcases List.mem_cons.mp h with rfl | h
    · exact hb
    · exact hw.chain _ h

/-! #### Finding a key -/

theorem findFrom_spec (key : Key) : ∀ (ent : Entry V) (rest : List (Entry V)) (i : Nat),
    (∃ j e, findFrom key ent rest i = (true, i + j) ∧ (ent :: rest)[j]? = some e ∧
      e.key = some key) ∨
    (findFrom key ent rest i = (false, i + rest.length) ∧
      ∀ e ∈ ent :: rest, e.key ≠ some key)
  | ent, rest, i => by
    unfold findFrom
    split_ifs with h
    · exact .inl ⟨0, ent, rfl, rfl, h⟩
    cases rest with
    | nil => exact .inr ⟨rfl, by simpa using h⟩
    | cons next rest =>
      rcases findFrom_spec key next rest (i + 1) with ⟨j, e, hf, he, hk⟩ | ⟨hf, hne⟩
      · exact .inl ⟨j + 1, e, by simp only [hf]; congr 1; omega, by simpa using he, hk⟩
      · refine .inr ⟨by simp only [hf, List.length_cons]; congr 1; omega, ?_⟩
        rintro e he
        rcases List.mem_cons.mp he with rfl | he
        · exact h
        · exact hne e he

theorem find_spec (b : Bucket V) (key : Key) :
    (∃ i v, b.find key = (true, i) ∧ b.entries[i]? = some { key := some key, data := v }) ∨
      (b.find key = (false, b.chain.length) ∧ ∀ v, ¬ b.Has key v) := by
  rcases findFrom_spec key b.base b.chain 0 with ⟨j, ⟨k, v⟩, hf, he, hk⟩ | ⟨hf, hne⟩
  · rw [Nat.zero_add] at hf
    cases hk
    exact .inl ⟨j, v, hf, he⟩
  · rw [Nat.zero_add] at hf
    exact .inr ⟨hf, fun v h => hne _ h rfl⟩

/-! #### Changing a bucket -/

theorem entries_setData (b : Bucket V) (value : V) (i : Nat) :
    (b.setData value i).entries = b.entries.modify i fun ent => { ent with data := value } := by
  cases i <;> simp [setData, entries]

theorem map_key_setData (b : Bucket V) (value : V) (i : Nat) :
    (b.setData value i).entries.map (·.key) = b.entries.map (·.key) := by
  rw [entries_setData]
  refine List.ext_getElem? fun j => ?_
  simp only [List.getElem?_map, List.getElem?_modify]
  split_ifs <;> cases b.entries[j]? <;> simp

theorem Wf.index_eq (hw : b.Wf) {j : Nat} {e e' : Entry V} (hi : b.entries[i]? = some e)
    (hj : b.entries[j]? = some e') (hk : e.key = e'.key) : i = j := by
  have hlt : i < (b.entries.map (·.key)).length := by
    rw [List.length_map]
    exact (List.getElem?_eq_some_iff.mp hi).1
  refine (List.getElem?_inj hlt hw.nodup).mp ?_
  rw [List.getElem?_map, List.getElem?_map, hi, hj, Option.map_some, Option.map_some, hk]

theorem Wf.base_ne (hw : b.Wf) (hi : b.entries[i]? = some { key := some key, data := v }) :
    b.base.key ≠ none := by
  intro hb
  have hmem := List.mem_of_getElem? hi
  rw [entries, hw.base hb, List.mem_singleton] at hmem
  rw [← hmem] at hb
  cases hb

theorem listed_of_base (hb : b.base.key ≠ none) : b.listed = b.entries := if_neg hb

/-- The value of the key is replaced. -/
theorem setData_spec (hw : b.Wf) (hi : b.entries[i]? = some { key := some key, data := v })
    (value : V) :
    (b.setData value i).Wf ∧ (b.setData value i).listed.length = b.listed.length ∧
      ∀ k w, (b.setData value i).Has k w ↔ k = key ∧ w = value ∨ k ≠ key ∧ b.Has k w := by
  have hbase : (b.setData value i).base.key = b.base.key := by cases i <;> rfl
  have hne := hw.base_ne hi
  have hkeys := map_key_setData b value i
  refine ⟨⟨fun h => absurd (hbase ▸ h) hne, fun ent hent => ?_, by rw [hkeys]; exact hw.nodup⟩,
    ?_, fun k w => ?_⟩
  · have hmem : ent.key ∈ (b.setData value i).chain.map (·.key) := List.mem_map_of_mem hent
    rw [show (b.setData value i).chain.map (·.key) = b.chain.map (·.key) from
      (List.cons.inj hkeys).2] at hmem
    obtain ⟨e, he, heq⟩ := List.mem_map.mp hmem
    exact heq ▸ hw.chain e he
  · rw [listed_of_base (hbase ▸ hne), listed_of_base hne]
    simpa using congrArg List.length hkeys
  · rw [Has, List.mem_iff_getElem?, entries_setData]
    simp only [List.getElem?_modify]
    constructor
    · rintro ⟨j, hj⟩
      split_ifs at hj with hij
      · subst hij
        rw [hi] at hj
        simp only [Option.map_eq_map, Option.map_some, Option.some.injEq, Entry.mk.injEq] at hj
        exact .inl ⟨hj.1.symm, hj.2.symm⟩
      · rw [id_map'] at hj
        refine .inr ⟨?_, List.mem_of_getElem? hj⟩
        rintro rfl
        exact hij (hw.index_eq hi hj rfl)
    · rintro (⟨rfl, rfl⟩ | ⟨hk, h⟩)
      · exact ⟨i, by simp [hi]⟩
      · obtain ⟨j, hj⟩ := List.mem_iff_getElem?.mp h
        have hij : i ≠ j := by
          rintro rfl
          rw [hi] at hj
          simp only [Option.some.injEq, Entry.mk.injEq] at hj
          exact hk hj.1.symm
        exact ⟨j, by simp only [hij, if_false, id_map', hj]⟩

/-- The key is taken out. -/
theorem remove_spec (hw : b.Wf) (hi : b.entries[i]? = some { key := some key, data := v }) :
    (b.remove i).Wf ∧ (b.remove i).listed.length + 1 = b.listed.length ∧
      ∀ k w, (b.remove i).Has k w ↔ k ≠ key ∧ b.Has k w := by
  have hne := hw.base_ne hi
  by_cases hlast : i = 0 ∧ b.chain = []
  · obtain ⟨rfl, hnil⟩ := hlast
    have hb : b.base = { key := some key, data := v } := by simpa [entries] using hi
    have hrem : b.remove 0 = { b with base := { b.base with key := none } } := by
      simp only [remove, hnil]
    rw [hrem]
    refine ⟨⟨fun _ => hnil, by simp [hnil], by simp [entries, hnil]⟩, ?_, fun k w => ?_⟩
    · rw [listed_of_base hne]
      simp [listed, entries, hnil]
    · simp [Has, entries, hnil, hb]
      exact fun h h' => absurd h' h
  · have hent : (b.remove i).entries = b.entries.eraseIdx i := by
      cases i with
      | zero =>
        cases hc : b.chain with
        | nil => exact absurd ⟨rfl, hc⟩ hlast
        | cons next chain => simp [remove, entries, hc]
      | succ i => rfl
    have hall : ∀ e ∈ b.entries, e.key ≠ none := fun e he =>
      ((mem_listed hw).mp (listed_of_base hne ▸ he)).2
    have hkeys : ∀ e ∈ (b.remove i).entries, e.key ≠ none := fun e he =>
      hall e (List.mem_of_mem_eraseIdx (hent ▸ he))
    have hbase : (b.remove i).base.key ≠ none := hkeys _ (by simp [entries])
    refine ⟨⟨fun h => absurd h hbase, fun e he => hkeys e (by simp [entries, he]), ?_⟩, ?_,
      fun k w => ?_⟩
    · rw [hent]
      exact hw.nodup.sublist ((List.eraseIdx_sublist ..).map _)
    · have hlt := (List.getElem?_eq_some_iff.mp hi).1
      rw [listed_of_base hbase, listed_of_base hne, hent, List.length_eraseIdx_of_lt hlt]
      omega
    · rw [Has, hent, List.mem_eraseIdx_iff_getElem?]
      constructor
      · rintro ⟨j, hj, h⟩
        refine ⟨?_, List.mem_of_getElem? h⟩
        rintro rfl
        exact hj (hw.index_eq h hi rfl)
      · rintro ⟨hk, h⟩
        obtain ⟨j, hj⟩ := List.mem_iff_getElem?.mp h
        refine ⟨j, ?_, hj⟩
        rintro rfl
        rw [hi] at hj
        simp only [Option.some.injEq, Entry.mk.injEq] at hj
        exact hk hj.1.symm

/-- A key that is not there is added. -/
theorem add_spec (hw : b.Wf) (hk : ∀ v, ¬ b.Has key v) (value : V) :
    (b.add (b.chain.length ≠ 0) key value).Wf ∧
      (b.add (b.chain.length ≠ 0) key value).listed.length = b.listed.length + 1 ∧
      ∀ k w, (b.add (b.chain.length ≠ 0) key value).Has k w ↔
        k = key ∧ w = value ∨ k ≠ key ∧ b.Has k w := by
  by_cases hb : b.base.key = none
  · have hnil := hw.base hb
    have hadd : b.add (b.chain.length ≠ 0) key value =
        { base := { key := some key, data := value }, chain := [] } := by
      simp [add, hb, hnil]
    rw [hadd]
    refine ⟨⟨fun _ => rfl, by simp, by simp [entries]⟩, by simp [listed, hb, entries], fun k w => ?_⟩
    simp only [Has, entries, hnil, List.mem_singleton, Entry.mk.injEq, Option.some.injEq]
    refine ⟨.inl, ?_⟩
    rintro (h | ⟨-, h⟩)
    · exact h
    · rw [← h] at hb
      cases hb
  · have hadd : b.add (b.chain.length ≠ 0) key value =
        { b with chain := b.chain ++ [{ key := some key, data := value }] } := by
      simp [add, Option.isSome_iff_ne_none.mpr hb]
    have hent : (b.add (b.chain.length ≠ 0) key value).entries =
        b.entries ++ [{ key := some key, data := value }] := by
      rw [hadd]
      rfl
    have hall : ∀ e ∈ b.entries, e.key ≠ none := fun e he =>
      ((mem_listed hw).mp (listed_of_base hb ▸ he)).2
    refine ⟨⟨fun h => ?_, fun e he => ?_, ?_⟩, ?_, fun k w => ?_⟩
    · rw [hadd] at h
      exact absurd h hb
    · rw [hadd] at he
      rcases List.mem_append.mp he with he | he
      · exact hw.chain e he
      · rw [List.mem_singleton.mp he]
        exact Option.some_ne_none key
    · rw [hent, List.map_append, List.nodup_append]
      refine ⟨hw.nodup, by simp, ?_⟩
      rintro x hx y hy rfl
      obtain ⟨⟨k', w⟩, he, rfl⟩ := List.mem_map.mp hx
      simp only [List.map_cons, List.map_nil, List.mem_singleton] at hy
      subst hy
      exact hk w he
    · rw [listed_of_base hb, listed, if_neg (by rw [hadd]; exact hb), hent, List.length_append]
      rfl
    · rw [Has, hent, List.mem_append, List.mem_singleton, Entry.mk.injEq, Option.some.injEq]
      constructor
      · rintro (h | h)
        · refine .inr ⟨?_, h⟩
          rintro rfl
          exact hk w h
        · exact .inl h
      · rintro (h | ⟨-, h⟩)
        · exact .inr h
        · exact .inl h

end Bucket

/-! ### Tables -/

namespace StringHashTable

open Bucket

section Changes

variable [Inhabited V] {tbl : StringHashTable V} {m m' : Finmap fun _ : Key => V}

/-- The table represents the finite map. -/
structure Represents (tbl : StringHashTable V) (m : Finmap fun _ : Key => V) : Prop where
  cap : 0 < tbl.entriesCap
  wf : ∀ b ∈ tbl.entries, b.Wf
  placed : ∀ i < tbl.entriesCap, ∀ k v, (tbl.bucket i).Has k v → tbl.slot k = i
  count : tbl.entriesCount = (tbl.entries.map fun b => b.listed.length).sum
  has : ∀ k v, (tbl.bucket (tbl.slot k)).Has k v ↔ m.lookup k = some v

omit [Inhabited V] in
theorem slot_lt (h : 0 < tbl.entriesCap) (k : Key) : tbl.slot k < tbl.entriesCap :=
  Nat.mod_lt _ h

theorem getElem?_bucket (hi : i < tbl.entriesCap) : tbl.entries[i]? = some (tbl.bucket i) := by
  rw [bucket, List.getD, List.getElem?_eq_getElem hi, Option.getD_some]

theorem Represents.bucket_wf (h : Represents tbl m) (hi : i < tbl.entriesCap) :
    (tbl.bucket i).Wf :=
  h.wf _ (List.mem_of_getElem? (getElem?_bucket hi))

omit [Inhabited V] in
@[simp] theorem entriesCap_setBucket (b : Bucket V) :
    (tbl.setBucket i b).entriesCap = tbl.entriesCap := by simp [entriesCap, setBucket]

theorem bucket_setBucket (hi : i < tbl.entriesCap) (b : Bucket V) (j : Nat) :
    (tbl.setBucket i b).bucket j = if j = i then b else tbl.bucket j := by
  by_cases h : j = i
  · subst h
    rw [if_pos rfl, bucket, setBucket, List.getD, List.getElem?_set_self hi, Option.getD_some]
  · rw [if_neg h, bucket, bucket, setBucket, List.getD, List.getD, List.getElem?_set_ne (Ne.symm h)]

theorem sum_set {β : Type} (f : β → Nat) : ∀ {l : List β} {i : Nat} {x y : β}, l[i]? = some x →
    ((l.set i y).map f).sum + f x = (l.map f).sum + f y
  | [], _, _, _, h => by simp at h
  | z :: l, 0, x, y, h => by
    cases Option.some.inj h
    simp only [List.set_cons_zero, List.map_cons, List.sum_cons]
    omega
  | z :: l, i + 1, x, y, h => by
    have ih := sum_set f (y := y) (show l[i]? = some x from h)
    simp only [List.set_cons_succ, List.map_cons, List.sum_cons]
    omega

/-- The bucket of a key is changed, in what it maps that key to only. -/
theorem Represents.change (h : Represents tbl m) {b : Bucket V} {P : V → Prop} {count : Nat}
    (hw : b.Wf)
    (hhas : ∀ k w, b.Has k w ↔
      k = key ∧ P w ∨ k ≠ key ∧ (tbl.bucket (tbl.slot key)).Has k w)
    (hcount : count + (tbl.bucket (tbl.slot key)).listed.length =
      tbl.entriesCount + b.listed.length)
    (hself : ∀ w, P w ↔ m'.lookup key = some w)
    (hother : ∀ k, k ≠ key → m'.lookup k = m.lookup k) :
    Represents { tbl.setBucket (tbl.slot key) b with entriesCount := count } m' := by
  have hlt := slot_lt h.cap key
  have hbucket := bucket_setBucket hlt b
  have hcap : (tbl.setBucket (tbl.slot key) b).entriesCap = tbl.entriesCap :=
    entriesCap_setBucket b
  have hslot : ∀ k, (tbl.setBucket (tbl.slot key) b).slot k = tbl.slot k := fun k => by
    rw [slot, hcap, slot]
  refine ⟨hcap.symm ▸ h.cap, fun b' hb' => ?_, fun i hi k w hk => ?_, ?_, fun k w => ?_⟩
  · rcases List.mem_or_eq_of_mem_set hb' with hb' | rfl
    · exact h.wf b' hb'
    · exact hw
  · replace hi : i < tbl.entriesCap := hcap ▸ hi
    replace hk : ((tbl.setBucket (tbl.slot key) b).bucket i).Has k w := hk
    refine (hslot k).trans ?_
    rw [hbucket] at hk
    split_ifs at hk with heq
    · rcases (hhas k w).mp hk with ⟨rfl, -⟩ | ⟨-, hk⟩
      · exact heq.symm
      · exact heq ▸ h.placed _ hlt k w hk
    · exact h.placed i hi k w hk
  · have := sum_set (fun b : Bucket V => b.listed.length) (y := b) (getElem?_bucket hlt)
    have hc := h.count
    simp only [setBucket]
    omega
  · show ((tbl.setBucket (tbl.slot key) b).bucket ((tbl.setBucket (tbl.slot key) b).slot k)).Has k w
      ↔ _
    rw [hslot, hbucket]
    by_cases hkey : k = key
    · subst hkey
      rw [if_pos rfl, hhas, ← hself]
      simp
    · rw [hother k hkey, ← h.has k w]
      split_ifs with hs
      · rw [hhas, hs]
        simp [hkey]
      · rfl

theorem Represents.find_cases (h : Represents tbl m) (key : Key) :
    (∃ i v, (tbl.bucket (tbl.slot key)).find key = (true, i) ∧
      (tbl.bucket (tbl.slot key)).entries[i]? = some { key := some key, data := v } ∧
      m.lookup key = some v) ∨
    ((tbl.bucket (tbl.slot key)).find key = (false, (tbl.bucket (tbl.slot key)).chain.length) ∧
      (∀ v, ¬ (tbl.bucket (tbl.slot key)).Has key v) ∧ m.lookup key = none) := by
  rcases find_spec (tbl.bucket (tbl.slot key)) key with ⟨i, v, hf, hi⟩ | ⟨hf, hne⟩
  · exact .inl ⟨i, v, hf, hi, (h.has key v).mp (List.mem_of_getElem? hi)⟩
  · refine .inr ⟨hf, hne, Option.eq_none_iff_forall_ne_some.mpr fun v hv => ?_⟩
    exact hne v ((h.has key v).mpr hv)

theorem lookup_spec (h : Represents tbl m) (key : Key) :
    tbl.lookup key = (m.lookup key).getD default := by
  rw [lookup]
  rcases h.find_cases key with ⟨i, v, hf, hi, hm⟩ | ⟨hf, -, hm⟩
  · simp [hf, hi, hm]
  · simp [hf, hm]

theorem contains_spec (h : Represents tbl m) (key : Key) :
    tbl.contains key = (m.lookup key).isSome := by
  rw [contains]
  rcases h.find_cases key with ⟨i, v, hf, -, hm⟩ | ⟨hf, -, hm⟩ <;> simp [hf, hm]

theorem delete_spec (h : Represents tbl m) (key : Key) :
    Represents (tbl.delete key).1 (m.erase key) ∧
      (tbl.delete key).2 = (m.lookup key).getD default := by
  have hw := h.bucket_wf (slot_lt h.cap key)
  rw [delete]
  rcases h.find_cases key with ⟨i, v, hf, hi, hm⟩ | ⟨hf, hne, hm⟩
  · obtain ⟨hw', hlen, hhas⟩ := remove_spec hw hi
    simp only [hf, if_true, hi, hm, Option.map_some, Option.getD_some, and_true]
    have hsum := sum_set (fun b : Bucket V => b.listed.length)
      (y := (tbl.bucket (tbl.slot key)).remove i) (getElem?_bucket (slot_lt h.cap key))
    have hc := h.count
    refine h.change (P := fun _ => False) hw' (fun k w => ?_) (by omega) (fun w => ?_) fun k hk =>
      Finmap.lookup_erase_ne hk
    · simp [hhas]
    · simp [Finmap.lookup_erase]
  · have herase : m.erase key = m := Finmap.ext_lookup fun k => by
      by_cases hk : k = key
      · rw [hk, Finmap.lookup_erase, hm]
      · exact Finmap.lookup_erase_ne hk
    simp only [hf, hm, Bool.false_eq_true, if_false, herase, Option.getD_none, and_true]
    exact h

theorem insertEntry_spec (h : Represents tbl m) (key : Key) (value : V) :
    Represents (tbl.insertEntry key value).1 (m.insert key value) ∧
      (tbl.insertEntry key value).2 = (m.lookup key).getD default := by
  have hw := h.bucket_wf (slot_lt h.cap key)
  have hself : ∀ w, w = value ↔ (m.insert key value).lookup key = some w := fun w => by
    rw [Finmap.lookup_insert, Option.some.injEq, eq_comm]
  have hother : ∀ k, k ≠ key → (m.insert key value).lookup k = m.lookup k := fun k hk =>
    Finmap.lookup_insert_of_ne m hk
  rw [insertEntry]
  rcases h.find_cases key with ⟨i, v, hf, hi, hm⟩ | ⟨hf, hne, hm⟩
  · obtain ⟨hw', hlen, hhas⟩ := setData_spec hw hi value
    simp only [hf, if_true, hi, hm, Option.map_some, Option.getD_some, and_true]
    exact h.change hw' hhas (by rw [hlen]) hself hother
  · obtain ⟨hw', hlen, hhas⟩ := add_spec hw hne value
    simp only [hf, hm, Bool.false_eq_true, if_false, Option.getD_none, and_true]
    exact h.change hw' hhas (by rw [hlen]; omega) hself hother

/-! #### Iteration -/

omit [Inhabited V] in
theorem skipEmpty_spec : ∀ (bs : List (Bucket V)) (i : Nat), ∃ n, skipEmpty bs i = i + n ∧
    n ≤ bs.length ∧ bs.flatMap listed = (bs.drop n).flatMap listed ∧
    ∀ b, bs[n]? = some b → b.base.key ≠ none
  | [], i => ⟨0, rfl, le_rfl, rfl, by simp⟩
  | b :: bs, i => by
    unfold skipEmpty
    split_ifs with hb
    · obtain ⟨n, hn, hle, hflat, hkey⟩ := skipEmpty_spec bs (i + 1)
      refine ⟨n + 1, by omega, by simpa using hle, ?_, hkey⟩
      rw [List.flatMap_cons, listed, if_pos hb, List.nil_append, hflat, List.drop_succ_cons]
    · refine ⟨0, rfl, Nat.zero_le _, rfl, fun b' h => ?_⟩
      cases Option.some.inj h
      exact hb

/-- What the loop is given from a bucket without a key on, when it is given all that there is at the
next one with a key. -/
theorem iterateFrom_skip {n i : Nat} (hi : i ≤ tbl.entriesCap)
    (hlen : ((tbl.entries.drop i).flatMap listed).length ≤ n)
    (hat : ∀ i < tbl.entriesCap, (tbl.bucket i).base.key ≠ none →
      ((tbl.entries.drop i).flatMap listed).length ≤ n →
      tbl.iterateFrom n { currentBase := i } = (tbl.entries.drop i).flatMap listed) :
    tbl.iterateFrom n { currentBase := skipEmpty (tbl.entries.drop i) i } =
      (tbl.entries.drop i).flatMap listed := by
  obtain ⟨k, hk, hle, hflat, hkey⟩ := skipEmpty_spec (tbl.entries.drop i) i
  rw [List.drop_drop] at hflat
  rw [List.length_drop] at hle
  rw [hk, hflat]
  rw [hflat] at hlen
  rcases Nat.lt_or_ge (i + k) tbl.entriesCap with hlt | hge
  · refine hat _ hlt (hkey _ ?_) hlen
    rw [List.getElem?_drop]
    exact getElem?_bucket hlt
  · rw [List.drop_eq_nil_iff.mpr hge, List.flatMap_nil]
    have heq : i + k = tbl.entriesCap := by
      rw [entriesCap] at *
      omega
    cases n with
    | zero => rfl
    | succ n => simp only [iterateFrom, hasNext, heq, if_true]

theorem drop_bucket (hi : i < tbl.entriesCap) :
    tbl.entries.drop i = tbl.bucket i :: tbl.entries.drop (i + 1) := by
  rw [List.drop_eq_getElem_cons hi, bucket, List.getD, List.getElem?_eq_getElem hi,
    Option.getD_some]

/-- What the loop is given from the `j`-th entry of a bucket on. -/
theorem iterateFrom_at : ∀ (n : Nat) {i j : Nat}, i < tbl.entriesCap →
    (tbl.bucket i).base.key ≠ none → j < (tbl.bucket i).entries.length →
    (tbl.bucket i).entries.length + ((tbl.entries.drop (i + 1)).flatMap listed).length ≤ n + j →
    tbl.iterateFrom n { currentBase := i, current := j } =
      (tbl.bucket i).entries.drop j ++ (tbl.entries.drop (i + 1)).flatMap listed
  | 0, _, _, _, _, _, hlen => by omega
  | n + 1, i, j, hi, hb, hj, hlen => by
    have hnext : tbl.hasNext { currentBase := i, current := j } =
        some (tbl.bucket i).entries[j] := by
      rw [hasNext, if_neg (Nat.ne_of_lt hi), List.getElem?_eq_getElem hj]
    have hstep : tbl.iterateFrom n (tbl.next { currentBase := i, current := j }) =
        (tbl.bucket i).entries.drop (j + 1) ++ (tbl.entries.drop (i + 1)).flatMap listed := by
      have hn : tbl.next { currentBase := i, current := j } =
          if j + 1 < (tbl.bucket i).entries.length then { currentBase := i, current := j + 1 }
          else { currentBase := skipEmpty (tbl.entries.drop (i + 1)) (i + 1) } := by
        rw [next, if_neg (Nat.ne_of_lt hi)]
      rw [hn]
      by_cases hj' : j + 1 < (tbl.bucket i).entries.length
      · rw [if_pos hj']
        exact iterateFrom_at n hi hb hj' (by omega)
      · have hnil : (tbl.bucket i).entries.drop (j + 1) = [] := List.drop_eq_nil_iff.mpr (by omega)
        rw [if_neg hj', hnil, List.nil_append]
        refine iterateFrom_skip hi (by omega) fun i' hi' hb' hlen' => ?_
        rw [drop_bucket hi', List.flatMap_cons, listed_of_base hb'] at hlen' ⊢
        rw [List.length_append] at hlen'
        rw [iterateFrom_at n hi' hb' (by simp [Bucket.entries]) (by omega), List.drop_zero]
    rw [iterateFrom, hnext, List.drop_eq_getElem_cons hj]
    simp only [hstep, List.cons_append]

omit [Inhabited V] in
theorem length_listed_le (b : Bucket V) : b.listed.length ≤ b.entries.length := by
  rw [listed]
  split_ifs <;> simp

/-- The loop over the iterator is given the entries of all buckets. -/
theorem iterate_eq (tbl : StringHashTable V) : tbl.iterate = tbl.entries.flatMap listed := by
  have hlen : (tbl.entries.flatMap listed).length ≤
      (tbl.entries.map fun b => b.entries.length).sum := by
    rw [List.length_flatMap]
    exact List.sum_le_sum fun b _ => length_listed_le b
  refine iterateFrom_skip (i := 0) (Nat.zero_le _) hlen fun i hi hb hlen' => ?_
  rw [drop_bucket hi, List.flatMap_cons, listed_of_base hb] at hlen' ⊢
  rw [List.length_append] at hlen'
  rw [iterateFrom_at _ hi hb (by simp [Bucket.entries]) (by omega), List.drop_zero]

theorem mem_iterate (h : Represents tbl m) {ent : Entry V} :
    ent ∈ tbl.iterate ↔ ∃ k, ent.key = some k ∧ m.lookup k = some ent.data := by
  rw [iterate_eq, List.mem_flatMap]
  constructor
  · rintro ⟨b, hb, hent⟩
    obtain ⟨hmem, hkey⟩ := (mem_listed (h.wf b hb)).mp hent
    obtain ⟨k, hk⟩ := Option.ne_none_iff_exists'.mp hkey
    obtain ⟨i, hi⟩ := List.mem_iff_getElem?.mp hb
    have hlt := (List.getElem?_eq_some_iff.mp hi).1
    have hbi : tbl.bucket i = b := by rw [bucket, List.getD, hi, Option.getD_some]
    have hhas : (tbl.bucket i).Has k ent.data := by
      rw [hbi, Has, ← hk]
      exact hmem
    have hslot := h.placed i hlt k _ hhas
    exact ⟨k, hk, (h.has k _).mp (hslot ▸ hhas)⟩
  · rintro ⟨k, hk, hm⟩
    have hlt := slot_lt h.cap k
    have hb := List.mem_of_getElem? (getElem?_bucket hlt)
    have hhas := (h.has k _).mpr hm
    rw [Has, ← hk] at hhas
    exact ⟨_, hb, (mem_listed (h.wf _ hb)).mpr ⟨hhas, by simp [hk]⟩⟩

/-- No key is met twice. -/
theorem nodup_iterate (h : Represents tbl m) : (tbl.iterate.map (·.key)).Nodup := by
  rw [iterate_eq, List.map_flatMap, List.nodup_flatMap]
  constructor
  · intro b hb
    refine ((h.wf b hb).nodup.sublist ?_)
    rw [listed]
    split_ifs
    · exact List.nil_sublist _
    · exact List.Sublist.refl _
  · rw [List.pairwise_iff_getElem]
    intro i j hi hj hij x hx hy
    simp only [List.mem_map] at hx hy
    obtain ⟨e, he, rfl⟩ := hx
    obtain ⟨e', he', hk'⟩ := hy
    have hbi : tbl.bucket i = tbl.entries[i] := by
      rw [bucket, List.getD, List.getElem?_eq_getElem hi, Option.getD_some]
    have hbj : tbl.bucket j = tbl.entries[j] := by
      rw [bucket, List.getD, List.getElem?_eq_getElem hj, Option.getD_some]
    obtain ⟨hmem, hkey⟩ := (mem_listed (h.wf _ (List.getElem_mem hi))).mp he
    obtain ⟨hmem', -⟩ := (mem_listed (h.wf _ (List.getElem_mem hj))).mp he'
    obtain ⟨k, hk⟩ := Option.ne_none_iff_exists'.mp hkey
    have h1 : tbl.slot k = i := h.placed i hi k e.data (by rw [hbi, Has, ← hk]; exact hmem)
    have h2 : tbl.slot k = j := by
      refine h.placed j hj k e'.data ?_
      rw [hbj, Has, ← hk, ← hk']
      exact hmem'
    omega

/-- The table counts the keys of the map. -/
theorem entriesCount_eq (h : Represents tbl m) : tbl.entriesCount = m.keys.card := by
  have hlen : tbl.iterate.length = tbl.entriesCount := by
    rw [iterate_eq, List.length_flatMap, h.count]
  have hkeys : (tbl.iterate.map (·.key)).toFinset = m.keys.map ⟨some, Option.some_injective _⟩ := by
    ext k
    simp only [List.mem_toFinset, List.mem_map, mem_iterate h, Finset.mem_map,
      Function.Embedding.coeFn_mk, Finmap.mem_keys]
    constructor
    · rintro ⟨ent, ⟨k, hk, hm⟩, rfl⟩
      exact ⟨k, Finmap.mem_of_lookup_eq_some hm, hk.symm⟩
    · rintro ⟨k, hk, rfl⟩
      obtain ⟨v, hv⟩ := Finmap.mem_iff.mp hk
      exact ⟨{ key := some k, data := v }, ⟨k, rfl, hv⟩, rfl⟩
  rw [← hlen, ← List.length_map (·.key), ← List.toFinset_card_of_nodup (nodup_iterate h), hkeys,
    Finset.card_map]

/-! #### Rehashing -/

theorem represents_make (loadFactor : LoadFactor) {cap : Nat} (hcap : 0 < cap) :
    Represents (makeHashTable loadFactor cap : StringHashTable V) ∅ := by
  have hb : ∀ i, (makeHashTable loadFactor cap : StringHashTable V).bucket i = .zero := fun i => by
    rw [bucket, makeHashTable, List.getD]
    cases h : (List.replicate cap (Bucket.zero : Bucket V))[i]? with
    | none => rfl
    | some b => exact List.eq_of_mem_replicate (List.mem_of_getElem? h)
  refine ⟨by simpa [entriesCap, makeHashTable], fun b h => ?_, fun i _ k v h => ?_, ?_,
    fun k v => ?_⟩
  · rw [List.eq_of_mem_replicate h]
    exact wf_zero
  · rw [hb] at h
    simp [Has, Bucket.entries, Bucket.zero] at h
  · simp [makeHashTable, listed_zero]
  · rw [hb]
    simp [Has, Bucket.entries, Bucket.zero]

theorem insertImpl_spec {rehash : StringHashTable V → Nat → Option (StringHashTable V)}
    (h : Represents tbl m)
    (hr : ∀ cap, 0 < cap → ∃ tbl', rehash tbl cap = some tbl' ∧ Represents tbl' m)
    (key : Key) (value : V) :
    ∃ tbl', tbl.insertImpl rehash key value = some (tbl', (m.lookup key).getD default) ∧
      Represents tbl' (m.insert key value) := by
  rw [insertImpl]
  split_ifs
  · obtain ⟨tbl', heq, h'⟩ := hr (tbl.entriesCap * 2) (by have := h.cap; omega)
    obtain ⟨hrep, hres⟩ := insertEntry_spec h' key value
    exact ⟨_, by rw [heq, Option.map_some, ← hres], hrep⟩
  · obtain ⟨hrep, hres⟩ := insertEntry_spec h key value
    exact ⟨_, by rw [← hres], hrep⟩

/-- The map behind inserting the entries. -/
def insertAll (m : Finmap fun _ : Key => V) (l : List (Entry V)) : Finmap fun _ : Key => V :=
  l.foldl (fun m ent => m.insert (ent.key.getD []) ent.data) m

omit [Inhabited V] in
theorem lookup_insertAll (k : Key) (v : V) : ∀ {l : List (Entry V)} (m : Finmap fun _ : Key => V),
    (l.map (·.key)).Nodup → (∀ ent ∈ l, ent.key ≠ none) →
    ((insertAll m l).lookup k = some v ↔ { key := some k, data := v } ∈ l ∨
      (∀ ent ∈ l, ent.key ≠ some k) ∧ m.lookup k = some v)
  | [], m, _, _ => by simp [insertAll]
  | ⟨none, w⟩ :: l, m, _, hk => absurd rfl (hk ⟨none, w⟩ (by simp))
  | ⟨some k', w⟩ :: l, m, hn, hk => by
    obtain ⟨hk', hn⟩ := List.nodup_cons.mp hn
    have ih := lookup_insertAll k v (m.insert k' w) hn fun ent he => hk ent (by simp [he])
    rw [show insertAll m (⟨some k', w⟩ :: l) = insertAll (m.insert k' w) l from rfl, ih]
    by_cases heq : k = k'
    · subst heq
      have hnot : ∀ ent ∈ l, ent.key ≠ some k := fun ent he hke =>
        hk' (List.mem_map.mpr ⟨ent, he, hke⟩)
      have hmem : ¬ { key := some k, data := v } ∈ l := fun he => hnot _ he rfl
      rw [Finmap.lookup_insert]
      simp only [hmem, false_or, List.mem_cons, Entry.mk.injEq, true_and, or_false,
        Option.some.injEq, ne_eq, forall_eq_or_imp, not_true_eq_false, false_and]
      exact ⟨fun h => h.2.symm, fun h => ⟨hnot, h.symm⟩⟩
    · rw [Finmap.lookup_insert_of_ne m heq]
      simp [heq, Ne.symm heq]

omit [Inhabited V] in
theorem card_insert_le (m : Finmap fun _ : Key => V) (key : Key) (value : V) :
    (m.insert key value).keys.card ≤ m.keys.card + 1 := by
  refine (Finset.card_le_card fun k hk => ?_).trans (Finset.card_insert_le key m.keys)
  rw [Finmap.mem_keys, Finmap.mem_insert] at hk
  rwa [Finset.mem_insert, Finmap.mem_keys]

/-- Moving entries to another table, with a rehash that is right for tables that small. -/
theorem foldlM_insert {rehash : StringHashTable V → Nat → Option (StringHashTable V)} {depth : Nat}
    (hr : ∀ {tbl : StringHashTable V} {m}, Represents tbl m → tbl.entriesCount < depth →
      ∀ cap, 0 < cap → ∃ tbl', rehash tbl cap = some tbl' ∧ Represents tbl' m) :
    ∀ (l : List (Entry V)) {tbl : StringHashTable V} {m : Finmap fun _ : Key => V},
      Represents tbl m → tbl.entriesCount + l.length ≤ depth →
      ∃ tbl', l.foldlM
        (fun new ent => (new.insertImpl rehash (ent.key.getD []) ent.data).map (·.1)) tbl =
          some tbl' ∧ Represents tbl' (insertAll m l)
  | [], tbl, m, h, _ => ⟨tbl, rfl, h⟩
  | ent :: l, tbl, m, h, hlen => by
    rw [List.length_cons] at hlen
    obtain ⟨tbl1, heq, h1⟩ := insertImpl_spec h (hr h (by omega)) (ent.key.getD []) ent.data
    have hcount := card_insert_le m (ent.key.getD []) ent.data
    rw [← entriesCount_eq h1, ← entriesCount_eq h] at hcount
    obtain ⟨tbl2, heq2, h2⟩ := foldlM_insert hr l h1 (by omega)
    exact ⟨tbl2, by rw [List.foldlM_cons, heq]; exact heq2, h2⟩

theorem insertAll_iterate (h : Represents tbl m) : insertAll ∅ tbl.iterate = m := by
  have hkeys : ∀ ent ∈ tbl.iterate, ent.key ≠ none := fun ent he => by
    obtain ⟨k, hk, -⟩ := (mem_iterate h).mp he
    simp [hk]
  refine Finmap.ext_lookup fun k => Option.ext fun v => ?_
  rw [lookup_insertAll k v ∅ (nodup_iterate h) hkeys, mem_iterate h]
  simp [eq_comm]

/-- A depth of more than the number of entries suffices. -/
theorem rehashAt_spec : ∀ (depth : Nat) {tbl : StringHashTable V} {m : Finmap fun _ : Key => V},
    Represents tbl m → tbl.entriesCount < depth → ∀ cap, 0 < cap →
      ∃ tbl', rehashAt depth tbl cap = some tbl' ∧ Represents tbl' m
  | 0, _, _, _, hlt, _, _ => absurd hlt (Nat.not_lt_zero _)
  | depth + 1, tbl, m, h, hlt, cap, hcap => by
    have hlen : tbl.iterate.length = tbl.entriesCount := by
      rw [iterate_eq, List.length_flatMap, h.count]
    obtain ⟨tbl', heq, h'⟩ := foldlM_insert (rehashAt_spec depth) tbl.iterate
      (represents_make tbl.loadFactor hcap) (by rw [hlen, makeHashTable, Nat.zero_add]; omega)
    rw [insertAll_iterate h] at h'
    exact ⟨tbl', heq, h'⟩

theorem rehash_spec (h : Represents tbl m) {cap : Nat} (hcap : 0 < cap) :
    ∃ tbl', tbl.rehash cap = some tbl' ∧ Represents tbl' m :=
  rehashAt_spec _ h (Nat.lt_succ_self _) cap hcap

theorem insert_spec (h : Represents tbl m) (key : Key) (value : V) :
    ∃ tbl', tbl.insert key value = some (tbl', (m.lookup key).getD default) ∧
      Represents tbl' (m.insert key value) :=
  insertImpl_spec h (fun _ hcap => rehash_spec h hcap) key value

end Changes

end StringHashTable

/-! ### Sequences of operations -/

/-- The map behind an operation. -/
def Op.onMap (m : Finmap fun _ : Key => V) : Op V → Finmap fun _ : Key => V
  | .insert chars len v => m.insert (keyOf chars len) v
  | .delete chars len => m.erase (keyOf chars len)
  | _ => m

/-- The entries are those of the map, each once. -/
structure Enumerates (l : List (Entry V)) (m : Finmap fun _ : Key => V) : Prop where
  nodup : (l.map (·.key)).Nodup
  mem : ∀ ent, ent ∈ l ↔ ∃ k, ent.key = some k ∧ m.lookup k = some ent.data

/-- What the operation returns is right for the map: the value of the key, or the null pointer. -/
def Op.Answers [Inhabited V] (m : Finmap fun _ : Key => V) : Op V → Result V → Prop
  | .insert chars len _, r | .delete chars len, r | .lookup chars len, r =>
    r = .value ((m.lookup (keyOf chars len)).getD default)
  | .contains chars len, r => r = .bool (m.lookup (keyOf chars len)).isSome
  | .reserve _, r | .rehash _, r => r = .none
  | .iterate, r => ∃ l, r = .entries l ∧ Enumerates l m

/-- Everything that the operations return is right, and the table counts the keys in the end. -/
def AnswersAll [Inhabited V] (m : Finmap fun _ : Key => V) :
    List (Op V) → StringHashTable V × List (Result V) → Prop
  | [], (tbl, rs) => rs = [] ∧ tbl.entriesCount = m.keys.card
  | op :: ops, (tbl, rs) =>
    ∃ r rs', rs = r :: rs' ∧ op.Answers m r ∧ AnswersAll (op.onMap m) ops (tbl, rs')

section

variable [Inhabited V] {tbl : StringHashTable V} {m : Finmap fun _ : Key => V}

open StringHashTable

theorem Op.apply_spec (h : Represents tbl m) (op : Op V) :
    ∃ tbl' r, op.apply tbl = some (tbl', r) ∧ op.Answers m r ∧ Represents tbl' (op.onMap m) := by
  cases op with
  | insert chars len v =>
    obtain ⟨tbl', heq, h'⟩ := insert_spec h (keyOf chars len) v
    exact ⟨tbl', _, by rw [Op.apply, heq]; rfl, rfl, h'⟩
  | delete chars len =>
    obtain ⟨h', hres⟩ := delete_spec h (keyOf chars len)
    exact ⟨_, _, rfl, by rw [Op.Answers, hres], h'⟩
  | lookup chars len => exact ⟨tbl, _, rfl, by rw [Op.Answers, lookup_spec h], h⟩
  | contains chars len => exact ⟨tbl, _, rfl, by rw [Op.Answers, contains_spec h], h⟩
  | reserve n =>
    obtain ⟨tbl', heq, h'⟩ := rehash_spec h (Nat.succ_pos (tbl.loadFactor.scaled n + 1))
    exact ⟨tbl', _, by rw [Op.apply, StringHashTable.reserve, heq]; rfl, rfl, h'⟩
  | rehash n =>
    obtain ⟨tbl', heq, h'⟩ := rehash_spec h n.2
    exact ⟨tbl', _, by rw [Op.apply, heq]; rfl, rfl, h'⟩
  | iterate => exact ⟨tbl, _, rfl, ⟨_, rfl, nodup_iterate h, fun _ => mem_iterate h⟩, h⟩

theorem runOps_spec : ∀ (ops : List (Op V)) {tbl : StringHashTable V}
    {m : Finmap fun _ : Key => V}, Represents tbl m →
    ∃ p, runOps tbl ops = some p ∧ AnswersAll m ops p
  | [], tbl, m, h => ⟨_, rfl, rfl, entriesCount_eq h⟩
  | op :: ops, tbl, m, h => by
    obtain ⟨tbl1, r, heq, hr, h1⟩ := op.apply_spec h
    obtain ⟨⟨tbl2, rs⟩, heqs, hrs⟩ := runOps_spec ops h1
    exact ⟨(tbl2, r :: rs), by simp [runOps, heq, heqs], r, rs, rfl, hr, hrs⟩

/-- The table behaves as a finite map, whatever the load factor is and whatever is done to it. -/
theorem hashTable_answers (loadFactor : LoadFactor) {cap : Nat} (hcap : 0 < cap)
    (ops : List (Op V)) :
    ∃ p, runOps (makeHashTable loadFactor cap) ops = some p ∧ AnswersAll ∅ ops p :=
  runOps_spec ops (represents_make loadFactor hcap)

theorem hashTable_answers_one :
    ∃ p, runOps (makeHashTable (LoadFactor.ofRat (3 / 4)) 1 : StringHashTable Nat)
        [.insert [1] 1 5, .insert [2] 1 6, .delete [1] 1, .rehash ⟨1, by decide⟩, .iterate] = some p ∧
      AnswersAll ∅
        [.insert [1] 1 5, .insert [2] 1 6, .delete [1] 1, .rehash ⟨1, by decide⟩, .iterate] p :=
  hashTable_answers _ (by decide) _

end

end BJvm.Adt
