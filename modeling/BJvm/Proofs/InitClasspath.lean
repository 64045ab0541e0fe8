import BJvm.Classpath.InitClasspath
import BJvm.Proofs.Jar
import Mathlib.Data.List.Forall2

/-!
# The components of a class path

The loop adds the texts between its start index and each separator.  As the index stays where it is
before an empty component, the next text has the separator in it, which no component has.
-/

namespace BJvm.Classpath

open Adt Parsing

variable {mapJar : MapJar} {path cur rest : List UInt8} {cp : ClassPath}
  {entries : List ClasspathEntry}

/-! ### What the loop adds -/

/-- The texts that the loop adds: what is left of the path, and what is behind the start index. -/
def segments : (rest cur : List UInt8) → List (List UInt8)
  | [], cur => if cur = [] then [] else [cur]
  | c :: rest, cur =>
    if c = colon ∧ cur ≠ [] then cur :: segments rest [] else segments rest (cur ++ [c])

/-- The texts are added in turn. -/
def addSegments (mapJar : MapJar) : List (List UInt8) → ClassPath → Option InitResult
  | [], cp => some { cp, freed := [], error := none }
  | entry :: rest, cp => do
    match ← addClasspathEntry mapJar entry with
    | .error error => return cp.fail error
    | .ok ent => addSegments mapJar rest { cp with entries := cp.entries ++ [ent] }

theorem take_drop_succ {start i : Nat} {c : UInt8} (hs : start ≤ i) (hc : path[i]? = some c) :
    (path.drop start).take (i + 1 - start) = (path.drop start).take (i - start) ++ [c] := by
  rw [show i + 1 - start = (i - start) + 1 by omega, List.take_add_one, List.getElem?_drop,
    show start + (i - start) = i by omega, hc]
  rfl

theorem initLoop_eq : ∀ (n : Nat) {i start : Nat} {cp : ClassPath}, n + i = path.length →
    start ≤ i → initLoop mapJar path (n + 1) i start cp
      = addSegments mapJar (segments (path.drop i) ((path.drop start).take (i - start))) cp
  | 0, i, start, cp, hi, hs => by
    rw [Nat.zero_add] at hi
    rw [initLoop, if_pos (.inl hi)]
    rw [List.drop_eq_nil_of_le (by omega : path.length ≤ i), segments]
    simp only [List.length_eq_zero_iff]
    split_ifs with hcur
    · rfl
    · rfl
  | n + 1, i, start, cp, hi, hs => by
    have hlt : i < path.length := by omega
    have hget : path[i]? = some path[i] := List.getElem?_eq_getElem hlt
    have hnext := take_drop_succ hs hget
    rw [List.drop_eq_getElem_cons hlt, segments]
    rw [initLoop]
    by_cases hc : path[i] = colon
    · rw [if_pos (.inr (by rw [hget, hc]))]
      simp only [List.length_eq_zero_iff]
      by_cases hcur : (path.drop start).take (i - start) = []
      · rw [if_pos hcur, if_neg (fun h => h.2 hcur), initLoop_eq n (by omega) (by omega), hnext]
      · rw [if_neg hcur, if_pos ⟨hc, hcur⟩, addSegments]
        refine congrArg _ (funext fun r => ?_)
        rcases r with error | ent
        · rfl
        · dsimp only
          rw [initLoop_eq n (by omega) le_rfl, Nat.sub_self, List.take_zero]
    · rw [if_neg, if_neg (fun h => hc h.1), initLoop_eq n (by omega) (by omega), hnext]
      rw [hget, Option.some.injEq]
      exact not_or.2 ⟨hlt.ne, hc⟩

theorem initClasspath_eq : initClasspath mapJar path
    = addSegments mapJar (segments path []) { asColonSeparated := path } := by
  rw [initClasspath, initLoop_eq path.length (Nat.add_zero _) le_rfl]
  rfl

theorem addSegments_added : ∀ {texts : List (List UInt8)} {entries : List ClasspathEntry}
    {cp : ClassPath}, List.Forall₂ (Adds mapJar) texts entries →
    addSegments mapJar texts cp
      = some { cp := { cp with entries := cp.entries ++ entries }, freed := [], error := none }
  | _, _, cp, .nil => by rw [addSegments, List.append_nil]
  | _, _, cp, .cons h hs => by
    rw [addSegments, h, Option.bind_eq_bind, Option.bind_some]
    dsimp only
    rw [addSegments_added hs, List.append_assoc, List.singleton_append]

theorem addSegments_failed {text : List UInt8} {after : List (List UInt8)} {error : Message}
    (hfail : addClasspathEntry mapJar text = some (.error error)) :
    ∀ {before : List (List UInt8)} {entries : List ClasspathEntry} {cp : ClassPath},
    List.Forall₂ (Adds mapJar) before entries →
    addSegments mapJar (before ++ text :: after) cp
      = some { cp := {}, freed := cp.entries ++ entries, error := some error }
  | _, _, cp, .nil => by
    rw [List.nil_append, addSegments, hfail, Option.bind_eq_bind, Option.bind_some,
      List.append_nil]
    rfl
  | _, _, cp, .cons h hs => by
    rw [List.cons_append, addSegments, h, Option.bind_eq_bind, Option.bind_some]
    dsimp only
    rw [addSegments_failed hfail hs, List.append_assoc, List.singleton_append]

/-- An entry has the text that it was added for. -/
theorem Adds.name {text : List UInt8} {ent : ClasspathEntry} (h : Adds mapJar text ent) :
    ent.name = text := by
  unfold Adds addClasspathEntry addClasspathJar at h
  split_ifs at h with hjar
  · split at h
    · simp at h
    · rename_i jar hmap
      rcases hload : jar.loadFilesystemJar (cString text) with _ | ⟨reads, result⟩
      · simp [hload] at h
      · rw [hload, Option.map_some, Option.some.injEq, map_eq_ok] at h
        obtain ⟨table, -, rfl⟩ := h
        rfl
  · rw [Option.some.injEq, Except.ok.injEq] at h
    rw [← h]

theorem names_of_adds : ∀ {texts : List (List UInt8)} {entries : List ClasspathEntry},
    List.Forall₂ (Adds mapJar) texts entries → entries.map (·.name) = texts
  | _, _, .nil => rfl
  | _, _, .cons h hs => by rw [List.map_cons, h.name, names_of_adds hs]

/-! ### Texts and components -/

theorem colon_notMem_of_mem_splitOn : ∀ {rest cur : List UInt8}, colon ∉ cur →
    ∀ w ∈ (cur ++ rest).splitOn colon, colon ∉ w
  | [], cur, hcur, w, hw => by
    rw [List.append_nil, List.splitOn_eq_singleton hcur, List.mem_singleton] at hw
    rwa [hw]
  | c :: rest, cur, hcur, w, hw => by
    by_cases hc : c = colon
    · rw [hc, List.splitOn_append_cons_self_of_not_mem hcur] at hw
      rcases List.mem_cons.1 hw with rfl | hw
      · exact hcur
      · exact @colon_notMem_of_mem_splitOn rest [] (by simp) w hw
    · rw [List.append_cons] at hw
      exact colon_notMem_of_mem_splitOn (by simp [hcur, Ne.symm hc]) w hw

/-- Without an empty component before another, the texts are the components. -/
theorem segments_eq : ∀ {rest cur : List UInt8}, colon ∉ cur →
    (∀ w ∈ ((cur ++ rest).splitOn colon).dropLast, w ≠ []) →
    segments rest cur = ((cur ++ rest).splitOn colon).filter (· ≠ [])
  | [], cur, hcur, _ => by
    rw [List.append_nil, List.splitOn_eq_singleton hcur, segments]
    split_ifs with h <;> simp [h]
  | c :: rest, cur, hcur, hfull => by
    rw [segments]
    by_cases hc : c = colon
    · rw [hc, List.splitOn_append_cons_self_of_not_mem hcur,
        List.dropLast_cons_of_ne_nil (List.splitOn_ne_nil _ _), List.forall_mem_cons] at hfull
      rw [if_pos ⟨hc, hfull.1⟩, hc, List.splitOn_append_cons_self_of_not_mem hcur,
        List.filter_cons_of_pos (by simpa using hfull.1)]
      exact congrArg _ (segments_eq (by simp) hfull.2)
    · rw [List.append_cons] at hfull
      rw [if_neg (fun h => hc h.1), List.append_cons cur c rest]
      exact segments_eq (by simp [hcur, Ne.symm hc]) hfull

/-- What is behind the start index is in a text. -/
theorem segments_of_mem : ∀ {rest cur : List UInt8}, colon ∈ cur →
    ∃ text ∈ segments rest cur, colon ∈ text
  | [], cur, h => by
    rw [segments, if_neg (List.ne_nil_of_mem h)]
    exact ⟨cur, List.mem_singleton_self _, h⟩
  | c :: rest, cur, h => by
    rw [segments]
    split_ifs with hc
    · exact ⟨cur, List.mem_cons_self, h⟩
    · exact segments_of_mem (List.mem_append_left _ h)

/-- With an empty component before another, there is a text with a separator in it. -/
theorem segments_of_empty : ∀ {rest cur : List UInt8}, colon ∉ cur →
    [] ∈ ((cur ++ rest).splitOn colon).dropLast → ∃ text ∈ segments rest cur, colon ∈ text
  | [], cur, hcur, h => by
    rw [List.append_nil, List.splitOn_eq_singleton hcur] at h
    simp at h
  | c :: rest, cur, hcur, h => by
    rw [segments]
    by_cases hc : c = colon
    · rw [hc, List.splitOn_append_cons_self_of_not_mem hcur,
        List.dropLast_cons_of_ne_nil (List.splitOn_ne_nil _ _)] at h
      by_cases hempty : cur = []
      · rw [if_neg (fun h => h.2 hempty)]
        exact segments_of_mem (by simp [hc])
      · rw [if_pos ⟨hc, hempty⟩]
        obtain ⟨text, htext, hcolon⟩ := @segments_of_empty rest [] (by simp)
          ((List.mem_cons.1 h).resolve_left (Ne.symm hempty))
        exact ⟨text, List.mem_cons_of_mem _ htext, hcolon⟩
    · rw [List.append_cons] at h
      rw [if_neg (fun h => hc h.1)]
      exact segments_of_empty (by simp [hcur, Ne.symm hc]) h

/-! ### The claim's condition -/

/-- A file of no entries. -/
def emptyJar : MappedJar where
  data := memoryOf ([0x50, 0x4B, 0x05, 0x06] ++ List.replicate 18 0)
  sizeBytes := 22
  size_lt := by decide

/-- Where every file is an empty one, everything can be added. -/
theorem exists_adds (text : List UInt8) : ∃ ent, Adds (fun _ => .ok emptyJar) text ent := by
  unfold Adds addClasspathEntry addClasspathJar
  split_ifs with hjar
  · obtain ⟨reads, result, hload, -, hok, -⟩ := emptyJar.loadFilesystemJar_spec (cString text)
    obtain ⟨table, rfl⟩ := hok.1 ⟨by unfold MappedJar.HasDirectory; decide,
      MappedJar.addable_empty.2 (by
        rw [show emptyJar.records = [] from rfl]
        exact ⟨by simp, List.nodup_nil⟩)⟩
    dsimp only
    rw [hload]
    exact ⟨_, rfl⟩
  · exact ⟨_, rfl⟩

theorem exists_adds_all : ∀ texts : List (List UInt8),
    ∃ entries, List.Forall₂ (Adds fun _ => .ok emptyJar) texts entries
  | [] => ⟨[], .nil⟩
  | text :: texts => by
    obtain ⟨ent, h⟩ := exists_adds text
    obtain ⟨entries, hs⟩ := exists_adds_all texts
    exact ⟨ent :: entries, .cons h hs⟩

/-- Whatever files there are, a path is read as it should be when no component but the last is
empty. -/
theorem initsRight_iff (path : List UInt8) :
    (∀ mapJar, InitsRight mapJar path) ↔ ∀ w ∈ (path.splitOn colon).dropLast, w ≠ [] := by
  constructor
  · rintro h w hw rfl
    obtain ⟨text, htext, hcolon⟩ := @segments_of_empty path [] (by simp) hw
    obtain ⟨entries, hadds⟩ := exists_adds_all (components path)
    obtain ⟨entries', hadds'⟩ := exists_adds_all (segments path [])
    obtain ⟨hinit, hnames⟩ := (h _).added entries hadds
    rw [initClasspath_eq, addSegments_added hadds'] at hinit
    simp only [List.nil_append, Option.some.injEq, InitResult.mk.injEq, ClassPath.mk.injEq,
      and_true] at hinit
    rw [← names_of_adds hadds', hinit, hnames, components, List.mem_filter] at htext
    exact @colon_notMem_of_mem_splitOn path [] (by simp) text htext.1 hcolon
  · intro h mapJar
    have hsegments : segments path [] = components path := segments_eq (by simp) h
    refine ⟨fun entries hadds => ⟨?_, names_of_adds hadds⟩,
      fun before component after entries error heq hadds hfail => ?_⟩
    · rw [initClasspath_eq, hsegments, addSegments_added hadds, List.nil_append]
    · rw [initClasspath_eq, hsegments, heq, addSegments_failed hfail hadds, List.nil_append]

/-- `":a"`: the folder that is added is `":a"`. -/
theorem leadingColon_not_initsRight : ¬InitsRight (fun _ => .ok emptyJar) [0x3A, 0x61] := by
  intro h
  have hright := (h.added [{ name := [0x61], jar := none }] (.cons rfl .nil)).1
  have hcode : initClasspath (fun _ => .ok emptyJar) [0x3A, 0x61] = some
      { cp := { entries := [{ name := [0x3A, 0x61], jar := none }],
                asColonSeparated := [0x3A, 0x61] }, freed := [], error := none } := rfl
  rw [hcode] at hright
  simp at hright

end BJvm.Classpath
