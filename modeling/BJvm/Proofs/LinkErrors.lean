import BJvm.Proofs.LinkRuns

/-!
# Linkage errors
-/

namespace BJvm.Linker

variable {classes : Classes} {P : Prop} {w w' w₁ w₂ : World} {a c d : ClassId} {n m : Nat}
  {ns : List Nat} {r : Bool}

section

variable (classes : Classes) (w : World)

/-- The supers of a class, in the order of `setup_itables`. -/
def supersOf (c : ClassId) : List ClassId := classes.interfacesOf c ++ (classes.superOf c).toList

/-- A call of `link_class` on the class has failed. -/
def World.Failed (c : ClassId) : Prop := .returned c true ∈ w.log

/-- The function tables of the class are set up. -/
def World.SetUp (c : ClassId) : Prop := 0 < (w.cd c).tableSetups

/-- No class is linked again after linking it has failed. -/
def NotRetried : Prop :=
  w.log.Pairwise fun later earlier => ∀ c, earlier = .returned c true → later ≠ .entered c

/-- Linking does not succeed for a class after it has failed for the class or one of its supers. -/
def FailuresKept : Prop :=
  w.log.Pairwise fun later earlier =>
    ∀ c d, later = .returned c false → earlier = .returned d true → d ≠ c ∧ d ∉ supersOf classes c

/-- The tables of a class that is set up, from those of its supers. -/
structure TablesInv (c : ClassId) : Prop where
  supers : ∀ s ∈ supersOf classes c, w.SetUp s
  hierarchy : (w.cd c).hierarchy =
    ((classes.superOf c).elim [] fun s => (w.cd s).hierarchy) ++ [c]
  interfaces : ∀ i, i ∈ (w.cd c).interfaces ↔ (classes.isInterfaceClass c = true ∧ i = c) ∨
    (classes.superOf c ≠ none ∧ ∃ s ∈ supersOf classes c, i ∈ (w.cd s).interfaces)

/-- The tables of all classes are right, and those of the supers of arrays are set up if there are
arrays. -/
structure AllTablesInv : Prop where
  tables : ∀ c, w.SetUp c → TablesInv classes w c
  unset : ∀ c, ¬ w.SetUp c → (w.cd c).interfaces = []
  arrays : ∀ e, 0 < w.depth e → ∀ s ∈ supersOf classes ⟨e, 1⟩, w.SetUp s

/-- What holds between the calls of `link_class`, where `x` is the class whose tables are still to
be set up, and `P` tells whether initializations can fail. -/
structure LinkInv (P : Prop) (x : Option Nat) : Prop extends AllTablesInv classes w where
  linked : ∀ n, (w.state (.ordinary n)).isLinked → x ≠ some n → w.SetUp (.ordinary n)
  error : ∀ n, w.state (.ordinary n) = .linkageError →
    w.SetUp (.ordinary n) ∨ w.Failed (.ordinary n)
  loaded : ∀ n, w.state (.ordinary n) = .loaded →
    ¬ w.SetUp (.ordinary n) ∧ ¬ w.Failed (.ordinary n)
  notFailed : ∀ n, w.SetUp (.ordinary n) → ¬ w.Failed (.ordinary n)
  state : ∀ n, w.SetUp (.ordinary n) → (w.state (.ordinary n)).isLinked = true ∨ P
  kept : FailuresKept classes w

end

theorem mem_foldl_addInterface {i : ClassId} : ∀ {l acc : List ClassId},
    i ∈ l.foldl World.addInterface acc ↔ i ∈ acc ∨ i ∈ l
  | [], acc => by simp
  | j :: l, acc => by
    rw [List.foldl_cons, mem_foldl_addInterface, World.addInterface]
    split_ifs with hj
    · rw [List.mem_cons]
      refine ⟨Or.imp_right Or.inr, ?_⟩
      rintro (h | rfl | h)
      · exact Or.inl h
      · exact Or.inl hj
      · exact Or.inr h
    · simp only [List.mem_append, List.mem_cons, List.not_mem_nil, false_or, or_assoc]

theorem mem_setupItables {super i : ClassId} :
    i ∈ w.setupItables classes super c ↔
      i ∈ (w.cd c).interfaces ∨
        ∃ s ∈ classes.interfacesOf c ++ [super], i ∈ (w.cd s).interfaces := by
  unfold World.setupItables
  generalize (w.cd c).interfaces = acc
  induction classes.interfacesOf c ++ [super] generalizing acc with
  | nil => simp
  | cons s l ih =>
    rw [List.foldl_cons, ih, mem_foldl_addInterface, List.exists_mem_cons_iff, or_assoc]

theorem supersOf_array (classes : Classes) (c : ClassId) : supersOf classes c.array =
    [.ordinary classes.cloneable, .ordinary classes.serializable, .ordinary classes.object] := by
  obtain ⟨⟨n⟩ | ⟨k⟩, d⟩ := c <;> rfl

theorem mem_supersOf_ordinary (h : d ∈ supersOf classes (.ordinary n)) :
    ∃ m < n, d = .ordinary m := by
  rw [supersOf, superOf_ordinary, List.mem_append] at h
  rcases h with h | h
  · obtain ⟨j, hj, rfl⟩ := List.mem_map.mp h
    exact ⟨j, classes.interface_lt hj, rfl⟩
  · obtain ⟨j, hj, rfl⟩ := List.mem_map.mp h
    exact ⟨j, super_lt_of_mem hj, rfl⟩

theorem mem_supersOf_array (h : d ∈ supersOf classes c.array) : ∃ m, d = .ordinary m := by
  simp only [supersOf_array, List.mem_cons, List.not_mem_nil, or_false] at h
  rcases h with rfl | rfl | rfl <;> exact ⟨_, rfl⟩

theorem exists_ordinary_of_mem_supersOf (h : d ∈ supersOf classes c) : ∃ m, d = .ordinary m := by
  obtain ⟨⟨n⟩ | ⟨k⟩, _ | i⟩ := c
  · obtain ⟨m, -, hm⟩ := mem_supersOf_ordinary h
    exact ⟨m, hm⟩
  · exact mem_supersOf_array (c := ⟨.ordinary n, i⟩) h
  · simp [supersOf, Classes.superOf, Classes.interfacesOf] at h
  · exact mem_supersOf_array (c := ⟨.primitive k, i⟩) h

theorem ne_of_mem_supersOf (h : d ∈ supersOf classes c) : d ≠ c := by
  rintro rfl
  obtain ⟨m, rfl⟩ := exists_ordinary_of_mem_supersOf h
  obtain ⟨i, hi, hm⟩ := mem_supersOf_ordinary h
  cases hm
  exact lt_irrefl _ hi

/-- Tables stay right while those of the class and of its supers stay as they are. -/
theorem TablesInv.congr (h : TablesInv classes w c)
    (hkeep : ∀ x, x = c ∨ x ∈ supersOf classes c → (w'.cd x).hierarchy = (w.cd x).hierarchy ∧
      (w'.cd x).interfaces = (w.cd x).interfaces)
    (hset : ∀ x ∈ supersOf classes c, w.SetUp x → w'.SetUp x) : TablesInv classes w' c := by
  refine ⟨fun s hs => hset s hs (h.supers s hs), ?_, fun i => ?_⟩
  · rw [(hkeep c (Or.inl rfl)).1, h.hierarchy]
    cases hs : classes.superOf c with
    | none => rfl
    | some s =>
      have hmem : s ∈ supersOf classes c := by simp [supersOf, hs]
      simp only [Option.elim_some, (hkeep s (Or.inr hmem)).1]
  · rw [(hkeep c (Or.inl rfl)).2, h.interfaces i]
    refine or_congr Iff.rfl (and_congr Iff.rfl (exists_congr fun s => ?_))
    exact and_congr_right fun hs => by rw [(hkeep s (Or.inr hs)).2]

/-- What is written changes no tables. -/
def SameTables (w w' : World) : Prop := ∀ c, (w'.cd c).hierarchy = (w.cd c).hierarchy ∧
  (w'.cd c).interfaces = (w.cd c).interfaces ∧ (w'.cd c).tableSetups = (w.cd c).tableSetups

theorem sameTables_setState {s : State} : SameTables w (w.setState c s) := fun d => by
  rw [cd_setState]
  exact ⟨rfl, rfl, rfl⟩

theorem sameTables_setArrayStates {e : Element} {s : State} :
    SameTables w (w.setArrayStates e s) := fun d => by
  rw [cd_setArrayStates]
  exact ⟨rfl, rfl, rfl⟩

theorem SameTables.setUp_iff (h : SameTables w w') : w'.SetUp c ↔ w.SetUp c := by
  rw [World.SetUp, World.SetUp, (h c).2.2]

theorem AllTablesInv.congr (h : AllTablesInv classes w) (hs : SameTables w w')
    (hd : w'.depth = w.depth) : AllTablesInv classes w' where
  tables c hc := (h.tables c (hs.setUp_iff.mp hc)).congr
    (fun x _ => ⟨(hs x).1, (hs x).2.1⟩) fun _ _ hx => hs.setUp_iff.mpr hx
  unset c hc := (hs c).2.1.trans (h.unset c fun hw => hc (hs.setUp_iff.mpr hw))
  arrays e he s hmem := hs.setUp_iff.mpr (h.arrays e (hd ▸ he) s hmem)

theorem hierarchy_setupSuperHierarchy (classes : Classes) (w : World) (c : ClassId) :
    ((w.setupSuperHierarchy classes c).cd c).hierarchy =
      ((classes.superOf c).elim [] fun s => (w.cd s).hierarchy) ++ [c] := by
  simp only [World.setupSuperHierarchy, Function.update_self]
  cases classes.superOf c <;> rfl

theorem setUp_setupSuperHierarchy :
    (w.setupSuperHierarchy classes c).SetUp d ↔ w.SetUp d := by
  rcases eq_or_ne d c with rfl | h
  · simp [World.SetUp, World.setupSuperHierarchy]
  · rw [World.SetUp, cd_setupSuperHierarchy_of_ne _ _ _ _ h]
    rfl

theorem AllTablesInv.setupSuperHierarchy (h : AllTablesInv classes w) :
    AllTablesInv classes (w.setupSuperHierarchy classes c) := by
  refine ⟨fun x hx => ?_, fun x hx => ?_, fun e he s hs => ?_⟩
  · have hxw := setUp_setupSuperHierarchy.mp hx
    refine (h.tables x hxw).congr (fun y hy => ⟨?_, interfaces_setupSuperHierarchy ..⟩)
      fun y _ hy => setUp_setupSuperHierarchy.mpr hy
    rcases eq_or_ne y c with rfl | hne
    · have hy : w.SetUp y := by
        rcases hy with rfl | hy
        · exact hxw
        · exact (h.tables x hxw).supers y hy
      rw [hierarchy_setupSuperHierarchy, (h.tables y hy).hierarchy]
    · rw [cd_setupSuperHierarchy_of_ne _ _ _ _ hne]
  · rw [interfaces_setupSuperHierarchy]
    exact h.unset x fun hw => hx (setUp_setupSuperHierarchy.mpr hw)
  · exact setUp_setupSuperHierarchy.mpr (h.arrays e he s hs)

theorem setUp_setUpFunctionTables :
    (w.setUpFunctionTables classes c).SetUp d ↔ d = c ∨ w.SetUp d := by
  rcases eq_or_ne d c with rfl | h
  · simp [World.SetUp, World.setUpFunctionTables]
  · rw [World.SetUp, cd_setUpFunctionTables_of_ne _ _ _ _ h]
    simp only [h, false_or]
    rfl

theorem hierarchy_setUpFunctionTables :
    ((w.setUpFunctionTables classes c).cd d).hierarchy = (w.cd d).hierarchy := by
  rcases eq_or_ne d c with rfl | h
  · simp [World.setUpFunctionTables]
  · rw [cd_setUpFunctionTables_of_ne _ _ _ _ h]

theorem mem_interfaces_setUpFunctionTables {i : ClassId} :
    i ∈ ((w.setUpFunctionTables classes c).cd c).interfaces ↔ i ∈ (w.cd c).interfaces ∨
      (classes.isInterfaceClass c = true ∧ i = c) ∨
      (classes.superOf c ≠ none ∧ ∃ s ∈ supersOf classes c, i ∈ (w.cd s).interfaces) := by
  rw [World.setUpFunctionTables]
  simp only [Function.update_self]
  have hown : ∀ l : List ClassId, i ∈ (if classes.isInterfaceClass c then l ++ [c] else l) ↔
      i ∈ l ∨ (classes.isInterfaceClass c = true ∧ i = c) := by
    intro l
    split_ifs with h <;> simp [h]
  rw [hown]
  cases hs : classes.superOf c with
  | none => simp
  | some super =>
    simp only [mem_setupItables, supersOf, hs, Option.toList_some, ne_eq, reduceCtorEq,
      not_false_eq_true, true_and, or_assoc]
    exact or_congr Iff.rfl or_comm

/-- Setting up the tables of a class whose supers are set up. -/
theorem AllTablesInv.setUpFunctionTables (h : AllTablesInv classes w)
    (hs : ∀ s ∈ supersOf classes c, w.SetUp s)
    (hh : (w.cd c).hierarchy = ((classes.superOf c).elim [] fun s => (w.cd s).hierarchy) ++ [c])
    (hc : w.SetUp c → 0 < c.dimensions) :
    AllTablesInv classes (w.setUpFunctionTables classes c) := by
  have hmono : ∀ {x}, w.SetUp x → (w.setUpFunctionTables classes c).SetUp x :=
    fun hx => setUp_setUpFunctionTables.mpr (Or.inr hx)
  refine ⟨fun x hx => ?_, fun x hx => ?_, fun e he s hs => hmono (h.arrays e he s hs)⟩
  · rcases eq_or_ne x c with rfl | hne
    · have hsame : ∀ s ∈ supersOf classes x,
          (w.setUpFunctionTables classes x).cd s = w.cd s := fun s hmem =>
        cd_setUpFunctionTables_of_ne _ _ _ _ (ne_of_mem_supersOf hmem)
      refine ⟨fun s hmem => hmono (hs s hmem), ?_, fun i => ?_⟩
      · rw [hierarchy_setUpFunctionTables, hh]
        cases hsup : classes.superOf x with
        | none => rfl
        | some s => rw [Option.elim_some, Option.elim_some, hierarchy_setUpFunctionTables]
      · have hold : i ∈ (w.cd x).interfaces → (classes.isInterfaceClass x = true ∧ i = x) ∨
            (classes.superOf x ≠ none ∧ ∃ s ∈ supersOf classes x, i ∈ (w.cd s).interfaces) := by
          intro hi
          by_cases hset : w.SetUp x
          · exact ((h.tables x hset).interfaces i).mp hi
          · rw [h.unset x hset] at hi
            cases hi
        rw [mem_interfaces_setUpFunctionTables, or_iff_right_of_imp hold]
        refine or_congr Iff.rfl (and_congr Iff.rfl (exists_congr fun s => ?_))
        exact and_congr_right fun hmem => by rw [hsame s hmem]
    · have hxw := (setUp_setUpFunctionTables.mp hx).resolve_left hne
      refine (h.tables x hxw).congr (fun y hy => ?_) fun y _ hy => hmono hy
      have hyc : y ≠ c := by
        rintro rfl
        have hy := hy.resolve_left (Ne.symm hne)
        obtain ⟨m, rfl⟩ := exists_ordinary_of_mem_supersOf hy
        exact absurd (hc ((h.tables x hxw).supers _ hy)) (lt_irrefl 0)
      rw [cd_setUpFunctionTables_of_ne _ _ _ _ hyc]
      exact ⟨rfl, rfl⟩
  · obtain ⟨hne, hx⟩ := not_or.mp (fun h => hx (setUp_setUpFunctionTables.mpr h))
    rw [cd_setUpFunctionTables_of_ne _ _ _ _ hne]
    exact h.unset x hx

/-! ### States and calls -/

theorem failed_record {call : Call} :
    (w.record call).Failed c ↔ call = .returned c true ∨ w.Failed c := by
  rw [World.Failed, log_record, List.mem_cons, eq_comm]
  rfl

theorem sameTables_record {call : Call} : SameTables w (w.record call) := fun _ => ⟨rfl, rfl, rfl⟩

namespace LinkInv

variable {x : Option Nat}

/-- A call that does not fail. -/
theorem record {call : Call} (h : LinkInv classes w P x) (hcall : ∀ c, call ≠ .returned c true)
    (hkept : ∀ c, call = .returned c false → ¬ w.Failed c ∧ ∀ d ∈ supersOf classes c, ¬ w.Failed d) :
    LinkInv classes (w.record call) P x where
  toAllTablesInv := h.toAllTablesInv.congr sameTables_record rfl
  linked n hn hx := h.linked n hn hx
  error n hn := (h.error n hn).imp id fun hf => failed_record.mpr (Or.inr hf)
  loaded n hn := ⟨(h.loaded n hn).1, fun hf => (h.loaded n hn).2
    ((failed_record.mp hf).resolve_left (hcall _))⟩
  notFailed n hn hf := h.notFailed n hn ((failed_record.mp hf).resolve_left (hcall _))
  state n hn := h.state n hn
  kept := by
    refine List.pairwise_cons.mpr ⟨fun earlier hearlier c d hc hd => ?_, h.kept⟩
    obtain ⟨hself, hsupers⟩ := hkept c hc
    subst hd
    refine ⟨?_, fun hmem => hsupers d hmem hearlier⟩
    rintro rfl
    exact hself hearlier

theorem entered (h : LinkInv classes w P x) : LinkInv classes (w.record (.entered c)) P x :=
  h.record (fun _ => Call.noConfusion) (fun _ => Call.noConfusion)

/-- A call that succeeds. -/
theorem returned (h : LinkInv classes w P x) (hc : ¬ w.Failed c)
    (hs : ∀ d ∈ supersOf classes c, ¬ w.Failed d) :
    LinkInv classes (w.record (.returned c false)) P x := by
  refine h.record (by simp) ?_
  rintro _ ⟨⟩
  exact ⟨hc, hs⟩

/-- The supers of a class that is set up are set up, and have not failed. -/
theorem supers_not_failed (h : LinkInv classes w P x) (hs : ∀ s ∈ supersOf classes c, w.SetUp s) :
    ∀ d ∈ supersOf classes c, ¬ w.Failed d := by
  intro d hd
  have := hs d hd
  obtain ⟨m, rfl⟩ := exists_ordinary_of_mem_supersOf hd
  exact h.notFailed m this

/-- Linking a class fails. -/
theorem fail (h : LinkInv classes w P x) (hx : x = none ∨ x = some n)
    (hn : ¬ w.SetUp (.ordinary n)) :
    LinkInv classes ((w.setState (.ordinary n) .linkageError).record (.returned (.ordinary n) true))
      P none := by
  have hset : ∀ m, (w.setState (.ordinary n) .linkageError).SetUp (.ordinary m) ↔
      w.SetUp (.ordinary m) := fun m => sameTables_setState.setUp_iff
  have hfail : ∀ m, m ≠ n → (((w.setState (.ordinary n) .linkageError).record
      (.returned (.ordinary n) true)).Failed (.ordinary m) ↔ w.Failed (.ordinary m)) := by
    intro m hm
    rw [failed_record]
    exact or_iff_right (by simp [hm.symm])
  have hne : ∀ m, w.SetUp (.ordinary m) → m ≠ n := by
    rintro m hm rfl
    exact hn hm
  refine ⟨?_, ?_, ?_, ?_, ?_, ?_, ?_⟩
  · exact (h.toAllTablesInv.congr sameTables_setState rfl).congr sameTables_record rfl
  · intro m hm _
    rw [state_record, state_setState] at hm
    split_ifs at hm with hmn
    · cases hm
    · refine (hset m).mpr (h.linked m hm ?_)
      rintro rfl
      rcases hx with h | h
      · cases h
      · cases h
        exact hmn rfl
  · intro m hm
    rcases eq_or_ne m n with rfl | hmn
    · exact Or.inr (failed_record.mpr (Or.inl rfl))
    · rw [state_record, state_setState, if_neg (by simp [hmn])] at hm
      exact (h.error m hm).imp (hset m).mpr (hfail m hmn).mpr
  · intro m hm
    rw [state_record, state_setState] at hm
    split_ifs at hm with hmn
    have hmn : m ≠ n := by simpa using hmn
    exact ⟨fun hs => (h.loaded m hm).1 ((hset m).mp hs),
      fun hf => (h.loaded m hm).2 ((hfail m hmn).mp hf)⟩
  · intro m hm hf
    have hm := (hset m).mp hm
    exact h.notFailed m hm ((hfail m (hne m hm)).mp hf)
  · intro m hm
    have hm := (hset m).mp hm
    rw [state_record, state_setState, if_neg (by simp [hne m hm])]
    exact h.state m hm
  · exact List.pairwise_cons.mpr ⟨fun _ _ _ _ h => (nomatch h), h.kept⟩

/-- The supers of a class are linked. -/
theorem begin (h : LinkInv classes w P none) :
    LinkInv classes (w.setState (.ordinary n) .linked) P (some n) where
  toAllTablesInv := h.toAllTablesInv.congr sameTables_setState rfl
  linked m hm hx := by
    rw [state_setState, if_neg (by rintro ⟨⟩; exact hx rfl)] at hm
    exact sameTables_setState.setUp_iff.mpr (h.linked m hm (by simp))
  error m hm := by
    rw [state_setState] at hm
    split_ifs at hm
    exact (h.error m hm).imp sameTables_setState.setUp_iff.mpr id
  loaded m hm := by
    rw [state_setState] at hm
    split_ifs at hm
    exact ⟨fun hs => (h.loaded m hm).1 (sameTables_setState.setUp_iff.mp hs), (h.loaded m hm).2⟩
  notFailed m hm := h.notFailed m (sameTables_setState.setUp_iff.mp hm)
  state m hm := by
    rw [state_setState]
    split_ifs
    · exact Or.inl rfl
    · exact h.state m (sameTables_setState.setUp_iff.mp hm)
  kept := h.kept

/-- Writing array classes. -/
theorem of_arrays (h : LinkInv classes w P x) (ha : AllTablesInv classes w')
    (hcd : ∀ n, w'.cd (.ordinary n) = w.cd (.ordinary n)) (hlog : w'.log = w.log) :
    LinkInv classes w' P x := by
  have hstate : ∀ n, w'.state (.ordinary n) = w.state (.ordinary n) := fun n => by
    rw [World.state, hcd]
    rfl
  have hset : ∀ n, w'.SetUp (.ordinary n) ↔ w.SetUp (.ordinary n) := fun n => by
    rw [World.SetUp, hcd]
    rfl
  have hfail : ∀ c, w'.Failed c ↔ w.Failed c := fun c => by
    rw [World.Failed, hlog]
    rfl
  have hkept : FailuresKept classes w' := by
    rw [FailuresKept, hlog]
    exact h.kept
  refine ⟨ha, ?_, ?_, ?_, ?_, ?_, hkept⟩ <;> intro n <;> rw [hset]
  · rw [hstate]
    exact h.linked n
  · rw [hstate, hfail]
    exact h.error n
  · rw [hstate, hfail]
    exact h.loaded n
  · rw [hfail]
    exact h.notFailed n
  · rw [hstate]
    exact h.state n

theorem setState_array {s : State} (h : LinkInv classes w P x) :
    LinkInv classes (w.setState c.array s) P x :=
  h.of_arrays (h.toAllTablesInv.congr sameTables_setState rfl)
    (fun _ => cd_setState_of_ne _ _ _ _ (by simp)) rfl

theorem setArrayStates {e : Element} {s : State} (h : LinkInv classes w P x) :
    LinkInv classes (w.setArrayStates e s) P x :=
  h.of_arrays (h.toAllTablesInv.congr sameTables_setArrayStates rfl)
    (fun n => by
      rw [cd_setArrayStates, if_neg (by simp)]
      rfl) rfl

/-- Setting up an array class. -/
theorem setUpArray (h : LinkInv classes w P x)
    (hs : ∀ s ∈ supersOf classes c.array, w.SetUp s) :
    LinkInv classes ((w.setupSuperHierarchy classes c.array).setUpFunctionTables classes c.array)
      P x := by
  refine h.of_arrays (h.toAllTablesInv.setupSuperHierarchy.setUpFunctionTables
    (fun s hmem => setUp_setupSuperHierarchy.mpr (hs s hmem)) ?_ fun _ => Nat.succ_pos _)
    (fun n => ?_) rfl
  · rw [hierarchy_setupSuperHierarchy, superOf_array, Option.elim_some, Option.elim_some,
      cd_setupSuperHierarchy_of_ne _ _ _ _ (by simp)]
  · rw [cd_setUpFunctionTables_of_ne _ _ _ _ (by simp),
      cd_setupSuperHierarchy_of_ne _ _ _ _ (by simp)]

theorem linkArraysOf (h : LinkInv classes w P (some n)) (hf : ¬ w.Failed (.ordinary n))
    (hs : ∀ s ∈ supersOf classes (.ordinary n), w.SetUp s) :
    LinkInv classes (linkArraysOf classes w n) P (some n) := by
  unfold Linker.linkArraysOf
  split_ifs with hl
  · exact h
  · obtain ⟨hd, -⟩ := not_or.mp hl
    have h₁ : LinkInv classes (((w.setState (ClassId.ordinary n).array .linked).record
        (.entered (.ordinary n))).record (.returned (.ordinary n) false)) P (some n) := by
      have hfail : ∀ c, ((w.setState (ClassId.ordinary n).array .linked).record
          (.entered (.ordinary n))).Failed c → w.Failed c :=
        fun c hc => (failed_record.mp hc).resolve_left (by simp)
      exact (h.setState_array.entered).returned (fun hc => hf (hfail _ hc))
        fun d hd hc => h.supers_not_failed hs d hd (hfail _ hc)
    refine h₁.setArrayStates.setUpArray fun s hmem => ?_
    rw [sameTables_setArrayStates.setUp_iff]
    exact sameTables_setState.setUp_iff.mpr
      (h.arrays (.ordinary n) (Nat.pos_of_ne_zero hd) s hmem)

/-- The tables of the class in question are set up. -/
theorem finish (h : LinkInv classes w P (some n)) (hset : ¬ w.SetUp (.ordinary n))
    (hf : ¬ w.Failed (.ordinary n)) (hl : (w.state (.ordinary n)).isLinked)
    (hs : ∀ s ∈ supersOf classes (.ordinary n), w.SetUp s)
    (hh : (w.cd (.ordinary n)).hierarchy = ((classes.superOf (.ordinary n)).elim []
      fun s => (w.cd s).hierarchy) ++ [.ordinary n]) :
    LinkInv classes (w.setUpFunctionTables classes (.ordinary n)) P none := by
  have hne : ∀ {m}, (w.setUpFunctionTables classes (.ordinary n)).SetUp (.ordinary m) →
      m = n ∨ w.SetUp (.ordinary m) := fun h => (setUp_setUpFunctionTables.mp h).imp
        (fun h => by simpa using h) id
  have hmono : ∀ {m}, w.SetUp (.ordinary m) →
      (w.setUpFunctionTables classes (.ordinary n)).SetUp (.ordinary m) :=
    fun h => setUp_setUpFunctionTables.mpr (Or.inr h)
  refine ⟨h.toAllTablesInv.setUpFunctionTables hs hh fun h => absurd h hset, ?_, ?_, ?_, ?_, ?_,
    h.kept⟩
  · intro m hm _
    rcases eq_or_ne m n with rfl | hmn
    · exact setUp_setUpFunctionTables.mpr (Or.inl rfl)
    · rw [state_setUpFunctionTables] at hm
      exact hmono (h.linked m hm (by simp [hmn.symm]))
  · intro m hm
    rw [state_setUpFunctionTables] at hm
    exact (h.error m hm).imp hmono id
  · intro m hm
    rw [state_setUpFunctionTables] at hm
    refine ⟨fun hs => ?_, (h.loaded m hm).2⟩
    rcases hne hs with rfl | hs
    · rw [hm] at hl
      cases hl
    · exact (h.loaded m hm).1 hs
  · intro m hm
    rcases hne hm with rfl | hm
    · exact hf
    · exact h.notFailed m hm
  · intro m hm
    rw [state_setUpFunctionTables]
    rcases hne hm with rfl | hm
    · exact Or.inl hl
    · exact h.state m hm

end LinkInv

/-! ### Linking -/

theorem NotRetried.mono (h : NotRetried w') (hlog : w.log <:+ w'.log) : NotRetried w :=
  h.sublist hlog.sublist

theorem NotRetried.not_failed (h : NotRetried w') (hlog : .entered c :: w.log <:+ w'.log) :
    ¬ w.Failed c := fun hc =>
  (List.pairwise_cons.mp (h.sublist hlog.sublist)).1 _ hc c rfl rfl

namespace LinkInv

theorem not_loaded {x : Option Nat} (h : LinkInv classes w P x) (hs : w.SetUp (.ordinary n)) :
    w.state (.ordinary n) ≠ .loaded := fun hl => (h.loaded n hl).1 hs

theorem setUp_of_not_failed (h : LinkInv classes w P none) (hs : w.state (.ordinary n) ≠ .loaded)
    (hf : ¬ w.Failed (.ordinary n)) : w.SetUp (.ordinary n) := by
  cases hst : w.state (.ordinary n) with
  | linkageError => exact (h.error n hst).resolve_right hf
  | loaded => exact absurd hst hs
  | _ => exact h.linked n (by rw [hst]; rfl) (by simp)

/-- A class that is set up is not linked again. -/
theorem cd_eq {x : Option Nat} (h : LinkInv classes w P x) (hs : w.SetUp (.ordinary n))
    (hl : Links classes w ns r w') : w'.cd (.ordinary n) = w.cd (.ordinary n) :=
  hl.untouched (e := .ordinary n) (fun _ hm => by cases hm; exact Or.inl (h.not_loaded hs)) 0

theorem setUp_mono {x : Option Nat} (h : LinkInv classes w P x) (hs : w.SetUp (.ordinary n))
    (hl : Links classes w ns r w') : w'.SetUp (.ordinary n) := by
  rw [World.SetUp, h.cd_eq hs hl]
  exact hs

end LinkInv

/-- Going on to the superinterfaces. -/
theorem LinkInv.setupSuperHierarchy (h : LinkInv classes w P none) :
    LinkInv classes (w.setupSuperHierarchy classes (.ordinary n)) P none := by
  have hset : ∀ {m}, (w.setupSuperHierarchy classes (.ordinary n)).SetUp (.ordinary m) ↔
      w.SetUp (.ordinary m) := setUp_setupSuperHierarchy
  refine ⟨h.toAllTablesInv.setupSuperHierarchy, ?_, ?_, ?_, ?_, ?_, h.kept⟩ <;> intro m <;>
    rw [hset]
  · rw [state_setupSuperHierarchy]
    exact h.linked m
  · rw [state_setupSuperHierarchy]
    exact h.error m
  · rw [state_setupSuperHierarchy]
    exact h.loaded m
  · exact h.notFailed m
  · rw [state_setupSuperHierarchy]
    exact h.state m

/-- What holds of a class when its supers are linked. -/
structure SupersLinked (classes : Classes) (P : Prop) (w : World) (n : Nat) : Prop where
  inv : LinkInv classes w P none
  loaded : w.state (.ordinary n) = .loaded
  supers : ∀ s ∈ supersOf classes (.ordinary n), w.SetUp s
  hierarchy : (w.cd (.ordinary n)).hierarchy = ((classes.superOf (.ordinary n)).elim []
    fun s => (w.cd s).hierarchy) ++ [.ordinary n]

theorem supersLinked (hs : w.state (.ordinary n) = .loaded)
    (h₁ : Links classes (w.record (.entered (.ordinary n))) (classes.superClass n).toList false w₁)
    (h₂ : Links classes (w₁.setupSuperHierarchy classes (.ordinary n)) (classes.interfaces n) false
      w₂)
    (ih₁ : LinkInv classes w₁ P none ∧
      ((false : Bool) = false → ∀ m ∈ (classes.superClass n).toList, w₁.SetUp (.ordinary m)))
    (ih₂ : LinkInv classes w₂ P none ∧
      ((false : Bool) = false → ∀ m ∈ classes.interfaces n, w₂.SetUp (.ordinary m))) :
    SupersLinked classes P w₂ n := by
  have hs₁ : w₁.state (.ordinary n) = .loaded :=
    (congrArg (·.state) (Links.chain_supers h₁ 0)).trans hs
  have hinv : LinkInv classes (w₁.setupSuperHierarchy classes (.ordinary n)) P none :=
    ih₁.1.setupSuperHierarchy
  have hsuper : ∀ m ∈ (classes.superClass n).toList, w₂.SetUp (.ordinary m) ∧
      (w₂.cd (.ordinary m)).hierarchy = (w₁.cd (.ordinary m)).hierarchy := by
    intro m hm
    have hset : (w₁.setupSuperHierarchy classes (.ordinary n)).SetUp (.ordinary m) :=
      setUp_setupSuperHierarchy.mpr (ih₁.2 rfl m hm)
    have hmn : ClassId.ordinary m ≠ .ordinary n := by
      simp [Nat.ne_of_lt (super_lt_of_mem hm)]
    refine ⟨hinv.setUp_mono hset h₂, ?_⟩
    rw [hinv.cd_eq hset h₂, cd_setupSuperHierarchy_of_ne _ _ _ _ hmn]
  refine ⟨ih₂.1, ?_, fun s hmem => ?_, ?_⟩
  · refine (congrArg (·.state) (Links.chain_interfaces h₂ 0)).trans ?_
    exact (state_setupSuperHierarchy _ _ _ _).trans hs₁
  · rw [supersOf, superOf_ordinary, List.mem_append] at hmem
    rcases hmem with hmem | hmem
    · obtain ⟨m, hm, rfl⟩ := List.mem_map.mp hmem
      exact ih₂.2 rfl m hm
    · obtain ⟨m, hm, rfl⟩ := List.mem_map.mp hmem
      exact (hsuper m hm).1
  · rw [show w₂.cd (.ordinary n) = _ from Links.chain_interfaces h₂ 0,
      hierarchy_setupSuperHierarchy]
    cases hsup : classes.superClass n with
    | none => simp [Classes.superOf, hsup]
    | some m =>
      have := (hsuper m (by simp [hsup])).2
      simp [Classes.superOf, hsup, this]

theorem failed_linkArraysOf : (linkArraysOf classes w n).Failed c ↔ w.Failed c := by
  unfold linkArraysOf
  split_ifs
  · rfl
  · simp [World.Failed]

/-- The arrays of a class are linked when the supers of the class are. -/
theorem SupersLinked.linkArraysOf (h : SupersLinked classes P w n) :
    LinkInv classes (linkArraysOf classes (w.setState (.ordinary n) .linked) n) P (some n) :=
  h.inv.begin.linkArraysOf (h.inv.loaded n h.loaded).2
    fun s hmem => sameTables_setState.setUp_iff.mpr (h.supers s hmem)

theorem SupersLinked.setUp_iff (m : Nat) :
    (Linker.linkArraysOf classes (w.setState (.ordinary n) .linked) n).SetUp (.ordinary m) ↔
      w.SetUp (.ordinary m) := by
  rw [World.SetUp, cd_linkArraysOf fun _ => rfl]
  exact sameTables_setState.setUp_iff

theorem SupersLinked.hierarchy_eq (m : Nat) :
    ((Linker.linkArraysOf classes (w.setState (.ordinary n) .linked) n).cd (.ordinary m)).hierarchy =
      (w.cd (.ordinary m)).hierarchy := by
  rw [cd_linkArraysOf fun _ => rfl]
  exact (sameTables_setState _).1

/-- The class itself is linked. -/
theorem SupersLinked.finish (h : SupersLinked classes P w n) :
    LinkInv classes ((Linker.linkArraysOf classes (w.setState (.ordinary n) .linked)
      n).setUpFunctionTables classes (.ordinary n)) P none := by
  obtain ⟨hset, hfail⟩ := h.inv.loaded n h.loaded
  refine h.linkArraysOf.finish (fun hs => hset ((SupersLinked.setUp_iff n).mp hs))
    (fun hf => hfail ((failed_linkArraysOf (w := w.setState (.ordinary n) .linked)).mp hf)) ?_ (fun s hmem => ?_) ?_
  · rw [state_linkArraysOf rfl, state_setState, if_pos rfl]
    rfl
  · have := h.supers s hmem
    obtain ⟨m, rfl⟩ := exists_ordinary_of_mem_supersOf hmem
    exact (SupersLinked.setUp_iff m).mpr this
  · rw [SupersLinked.hierarchy_eq, h.hierarchy]
    cases hsup : classes.superClass n with
    | none => simp [Classes.superOf, hsup]
    | some m => simp [Classes.superOf, hsup, SupersLinked.hierarchy_eq]

theorem Links.inv (h : Links classes w ns r w') : LinkInv classes w P none → NotRetried w' →
    LinkInv classes w' P none ∧ (r = false → ∀ n ∈ ns, w'.SetUp (.ordinary n)) := by
  induction h with
  | nil => exact fun hi _ => ⟨hi, fun _ _ h => absurd h List.not_mem_nil⟩
  | @skip w w' n ns r hs h ih =>
    intro hi hr
    have hnf : ¬ w.Failed (.ordinary n) := hr.not_failed ((List.suffix_cons _ _).trans h.log_suffix)
    have hset := hi.setUp_of_not_failed hs hnf
    have hi' : LinkInv classes ((w.record (.entered (.ordinary n))).record
        (.returned (.ordinary n) false)) P none := by
      refine hi.entered.returned (fun hf => hnf ?_) fun d hd hf => ?_
      · exact (failed_record.mp hf).resolve_left (by simp)
      · exact hi.supers_not_failed (hi.tables _ hset).supers d hd
          ((failed_record.mp hf).resolve_left (by simp))
    obtain ⟨hi₁, hall⟩ := ih hi' hr
    refine ⟨hi₁, fun hr' m hm => ?_⟩
    rcases List.mem_cons.mp hm with rfl | hm
    · exact hi'.setUp_mono hset h
    · exact hall hr' m hm
  | @superFails w w₁ n ns hs h₁ ih =>
    intro hi hr
    obtain ⟨hi₁, -⟩ := ih hi.entered (hr.mono (List.suffix_cons _ _))
    have hs₁ := (congrArg (·.state) (Links.chain_supers h₁ 0)).trans hs
    exact ⟨hi₁.fail (Or.inl rfl) (hi₁.loaded n hs₁).1, by simp⟩
  | @interfaceFails w w₁ w₂ n ns hs h₁ h₂ ih₁ ih₂ =>
    intro hi hr
    have hr₂ : NotRetried w₂ := hr.mono (List.suffix_cons _ _)
    have hi₁ := (ih₁ hi.entered (hr₂.mono h₂.log_suffix)).1
    obtain ⟨hi₂, -⟩ := ih₂ hi₁.setupSuperHierarchy hr₂
    have hs₂ : w₂.state (.ordinary n) = .loaded :=
      (congrArg (·.state) (Links.chain_interfaces h₂ 0)).trans
        ((state_setupSuperHierarchy _ _ _ _).trans
          ((congrArg (·.state) (Links.chain_supers h₁ 0)).trans hs))
    exact ⟨hi₂.fail (Or.inl rfl) (hi₂.loaded n hs₂).1, by simp⟩
  | @rejected w w₁ w₂ n ns hs h₁ h₂ ih₁ ih₂ =>
    intro hi hr
    have hr₂ : NotRetried w₂ := hr.mono (log_linkArraysOf.trans (List.suffix_cons _ _))
    have hi₁ := ih₁ hi.entered (hr₂.mono h₂.log_suffix)
    have hsup := supersLinked hs h₁ h₂ hi₁ (ih₂ hi₁.1.setupSuperHierarchy hr₂)
    refine ⟨hsup.linkArraysOf.fail (Or.inr rfl) fun hset => ?_, by simp⟩
    exact (hsup.inv.loaded n hsup.loaded).1 ((SupersLinked.setUp_iff n).mp hset)
  | @linked w w₁ w₂ w' n ns r hs h₁ h₂ h ih₁ ih₂ ih =>
    intro hi hr
    have hr₂ : NotRetried w₂ :=
      (hr.mono h.log_suffix).mono (log_linkArraysOf.trans (List.suffix_cons _ _))
    have hi₁ := ih₁ hi.entered (hr₂.mono h₂.log_suffix)
    have hsup := supersLinked hs h₁ h₂ hi₁ (ih₂ hi₁.1.setupSuperHierarchy hr₂)
    have hset : ((linkArraysOf classes (w₂.setState (.ordinary n) .linked) n).setUpFunctionTables
        classes (.ordinary n)).SetUp (.ordinary n) := setUp_setUpFunctionTables.mpr (Or.inl rfl)
    have hi₃ := hsup.finish.returned (hsup.finish.notFailed n hset)
      (hsup.finish.supers_not_failed (hsup.finish.tables _ hset).supers)
    obtain ⟨hi₄, hall⟩ := ih hi₃ hr
    refine ⟨hi₄, fun hr' m hm => ?_⟩
    rcases List.mem_cons.mp hm with rfl | hm
    · exact hi₃.setUp_mono hset h
    · exact hall hr' m hm

/-! ### Linking array classes -/

namespace Links

/-- Nothing happens to classes that are not loaded only. -/
theorem of_not_loaded (h : Links classes w ns r w') :
    (∀ n ∈ ns, w.state (.ordinary n) ≠ .loaded) → r = false ∧ w'.cd = w.cd := by
  induction h with
  | nil => exact fun _ => ⟨rfl, rfl⟩
  | skip _ _ ih => exact fun hn => ih fun n hmem => hn n (List.mem_cons_of_mem _ hmem)
  | superFails hs => exact fun hn => absurd hs (hn _ List.mem_cons_self)
  | interfaceFails hs => exact fun hn => absurd hs (hn _ List.mem_cons_self)
  | rejected hs => exact fun hn => absurd hs (hn _ List.mem_cons_self)
  | linked hs => exact fun hn => absurd hs (hn _ List.mem_cons_self)

/-- The calls are on classes that are no arrays. -/
theorem failed_array (hc : 0 < c.dimensions) (h : Links classes w ns r w') :
    w'.Failed c ↔ w.Failed c := by
  have hcall : ∀ {x : World} {n : Nat} {q : Bool},
      (x.record (.returned (.ordinary n) q)).Failed c ↔ x.Failed c := by
    intro x n q
    refine failed_record.trans (or_iff_right ?_)
    rintro ⟨⟩
    exact lt_irrefl 0 hc
  have henter : ∀ {x : World} {n : Nat},
      (x.record (.entered (.ordinary n))).Failed c ↔ x.Failed c :=
    failed_record.trans (or_iff_right (by simp))
  induction h with
  | nil => rfl
  | skip _ _ ih => exact ih.trans (hcall.trans henter)
  | superFails _ _ ih =>
    rw [hcall]
    exact ih.trans henter
  | interfaceFails _ _ _ ih₁ ih₂ =>
    rw [hcall]
    exact ih₂.trans (ih₁.trans henter)
  | @rejected w w₁ w₂ n ns _ _ _ ih₁ ih₂ =>
    rw [hcall]
    exact (failed_linkArraysOf (w := w₂.setState (.ordinary n) .linked)).trans
      (ih₂.trans (ih₁.trans henter))
  | @linked w w₁ w₂ w' n ns r _ _ _ _ ih₁ ih₂ ih =>
    refine ih.trans (hcall.trans ?_)
    exact (failed_linkArraysOf (w := w₂.setState (.ordinary n) .linked)).trans
      (ih₂.trans (ih₁.trans henter))

end Links

/-- A call on an array class that fails. -/
theorem LinkInv.returned_array {x : Option Nat} (h : LinkInv classes w P x) :
    LinkInv classes (w.record (.returned c.array true)) P x := by
  have hf : ∀ n, (w.record (.returned c.array true)).Failed (.ordinary n) ↔
      w.Failed (.ordinary n) := fun n => failed_record.trans (or_iff_right (by simp))
  refine ⟨h.toAllTablesInv.congr sameTables_record rfl, h.linked, fun n hn => ?_, fun n hn => ?_,
    fun n hn hfail => h.notFailed n hn ((hf n).mp hfail), h.state,
    List.pairwise_cons.mpr ⟨fun _ _ _ _ h => (nomatch h), h.kept⟩⟩
  · exact (h.error n hn).imp id (hf n).mpr
  · exact ⟨(h.loaded n hn).1, fun hfail => (h.loaded n hn).2 ((hf n).mp hfail)⟩

theorem kind_array (ha : a = c.array) : a.kind ≠ .ordinary := by
  rw [ha]
  obtain ⟨⟨n⟩ | ⟨k⟩, d | d⟩ := c <;> simp [ClassId.kind]

theorem eq_of_baseComponent (h : a.baseComponent = some d) :
    ∃ n, a.element = .ordinary n ∧ d = .ordinary n := by
  obtain ⟨⟨n⟩ | ⟨k⟩, i | i⟩ := a <;> cases h
  exact ⟨n, rfl, rfl⟩

/-- What `link_class` has done to an array class when it goes to the base component. -/
structure ArrayReady (classes : Classes) (P : Prop) (w : World) (a : ClassId) (w₂ : World) : Prop where
  inv : LinkInv classes w₂ P none
  cd : w₂.cd = (w.setupSuperHierarchy classes a).cd
  depth : w₂.depth = w.depth
  log : .entered a :: w.log <:+ w₂.log
  failed : w₂.Failed a ↔ w.Failed a

/-- What `link_class` does with an array class. -/
theorem linkArray_cases {f : Nat} (hi : LinkInv classes w P none) (ha : a = c.array)
    (hsup : ∀ s ∈ supersOf classes a, w.SetUp s) (hs : w.state a = .loaded)
    (h : linkClass classes f w a = some (r, w')) :
    ∃ w₂, (NotRetried w₂ → ArrayReady classes P w a w₂) ∧
      ((a.baseComponent = none ∧ r = false ∧
        w' = (((w₂.setState a .linked).setupSuperHierarchy classes a).setUpFunctionTables
          classes a).record (.returned a false)) ∨
      (∃ n w₃, a.element = .ordinary n ∧ Links classes (w₂.setState a .linked) [n] r w₃ ∧
        w' = (((w₃.setArrayStates (.ordinary n) (if r then .linkageError else
          .linked)).setupSuperHierarchy classes a).setUpFunctionTables classes a).record
            (.returned a r))) := by
  cases f with
  | zero => cases h
  | succ f =>
    have hall := fun {ns x x' q} => @linkAll_links _ _ (linkClass_links classes f) ns x x' q
    unfold linkClass at h
    rcases hb : linkBody classes (linkClass classes f) (w.record (.entered a)) a with
      _ | ⟨q, x⟩ <;> rw [hb] at h
    · cases h
    cases h
    unfold linkBody at hb
    have hsuper : (classes.superOf a).toList = [classes.object].map ClassId.ordinary := by
      rw [ha, superOf_array]
      rfl
    have hifaces : classes.interfacesOf a =
        [classes.cloneable, classes.serializable].map ClassId.ordinary := by
      rw [ha]
      obtain ⟨⟨n⟩ | ⟨k⟩, d⟩ := c <;> rfl
    have hloaded : ∀ m ∈ [classes.cloneable, classes.serializable, classes.object],
        w.state (.ordinary m) ≠ .loaded := fun m hm => hi.not_loaded (hsup _ (by
      rw [ha, supersOf_array]
      exact List.mem_map_of_mem (f := ClassId.ordinary) hm))
    rw [state_record, if_neg (not_not.mpr hs), hsuper, hifaces] at hb
    rcases h₁ : linkAll (linkClass classes f) (w.record (.entered a))
      ([classes.object].map ClassId.ordinary) with _ | ⟨q₁, w₁⟩ <;> rw [h₁] at hb
    · cases hb
    have hl₁ := hall h₁
    obtain ⟨rfl, hcd₁⟩ := hl₁.of_not_loaded fun n hn => hloaded n
      (List.mem_append_right [classes.cloneable, classes.serializable] hn)
    dsimp only at hb
    rcases h₂ : linkAll (linkClass classes f) (w₁.setupSuperHierarchy classes a)
      ([classes.cloneable, classes.serializable].map ClassId.ordinary) with _ | ⟨q₂, w₂⟩ <;>
      rw [h₂] at hb
    · cases hb
    have hl₂ := hall h₂
    obtain ⟨rfl, hcd₂⟩ := hl₂.of_not_loaded fun n hn => by
      rw [state_setupSuperHierarchy, World.state, hcd₁]
      exact hloaded n (List.mem_append_left [classes.object] hn)
    dsimp only at hb
    have hcd : w₂.cd = (w.setupSuperHierarchy classes a).cd := by
      rw [hcd₂, World.setupSuperHierarchy, World.setupSuperHierarchy, hcd₁]
      rfl
    have hs₂ : w₂.state a = .loaded := by
      rw [World.state, hcd]
      exact (state_setupSuperHierarchy ..).trans hs
    have ha0 : 0 < a.dimensions := by
      rw [ha]
      exact Nat.succ_pos _
    have hready : NotRetried w₂ → ArrayReady classes P w a w₂ := by
      intro hr
      have hi₁ := (hl₁.inv hi.entered (hr.mono hl₂.log_suffix)).1
      have hi₁' : LinkInv classes (w₁.setupSuperHierarchy classes a) P none :=
        hi₁.of_arrays hi₁.toAllTablesInv.setupSuperHierarchy
          (fun m => cd_setupSuperHierarchy_of_ne _ _ _ _ (by simp [ha])) rfl
      refine ⟨(hl₂.inv hi₁' hr).1, hcd, hl₂.depth_eq.trans hl₁.depth_eq,
        hl₁.log_suffix.trans hl₂.log_suffix, ?_⟩
      exact (hl₂.failed_array ha0).trans ((hl₁.failed_array ha0).trans
        (failed_record.trans (or_iff_right (by simp))))
    refine ⟨w₂, hready, ?_⟩
    rw [if_pos (kind_array ha), linkArrayClass, if_neg (by rw [hs₂]; simp [State.isLinked])] at hb
    dsimp only at hb
    cases hbase : a.baseComponent with
    | none =>
      rw [hbase] at hb
      cases hb
      exact Or.inl ⟨rfl, rfl, rfl⟩
    | some base =>
      obtain ⟨n, hn, rfl⟩ := eq_of_baseComponent hbase
      rw [hbase] at hb
      dsimp only at hb
      rcases h₃ : linkClass classes f (w₂.setState a .linked) (.ordinary n) with _ | ⟨q₃, w₃⟩ <;>
        rw [h₃] at hb
      · cases hb
      cases hb
      exact Or.inr ⟨n, w₃, hn, links_of_linkClass h₃, rfl⟩

theorem ArrayReady.setUp_iff (h : ArrayReady classes P w a w₂) :
    w₂.SetUp d ↔ w.SetUp d := by
  rw [World.SetUp, h.cd]
  exact setUp_setupSuperHierarchy

theorem LinkInv.linkArray {f : Nat} (hi : LinkInv classes w P none)
    (hsup : ∀ s ∈ supersOf classes c.array, w.SetUp s) (hs : w.state c.array = .loaded)
    (h : linkClass classes f w c.array = some (r, w')) (hr : NotRetried w') :
    LinkInv classes w' P none := by
  obtain ⟨w₂, hready, hcases⟩ := linkArray_cases hi rfl hsup hs h
  have hsup₂ : ArrayReady classes P w c.array w₂ → ∀ s ∈ supersOf classes c.array,
      (w₂.setState c.array .linked).SetUp s := fun hw₂ s hmem =>
    sameTables_setState.setUp_iff.mpr (hw₂.setUp_iff.mpr (hsup s hmem))
  rcases hcases with ⟨-, rfl, rfl⟩ | ⟨n, w₃, hn, h₃, rfl⟩
  · have hw₂ := hready (hr.mono (List.suffix_cons _ _))
    have hnf : ¬ w₂.Failed c.array := fun hf =>
      hr.not_failed (hw₂.log.trans (List.suffix_cons _ _)) (hw₂.failed.mp hf)
    refine (hw₂.inv.setState_array.setUpArray (hsup₂ hw₂)).returned hnf ?_
    exact hw₂.inv.supers_not_failed fun s hmem => hw₂.setUp_iff.mpr (hsup s hmem)
  · have hr₃ : NotRetried w₃ := hr.mono (List.suffix_cons _ _)
    have hw₂ := hready (hr₃.mono h₃.log_suffix)
    have hi₂ : LinkInv classes (w₂.setState c.array .linked) P none := hw₂.inv.setState_array
    have hi₃ := (h₃.inv hi₂ hr₃).1
    have hsup₃ : ∀ s ∈ supersOf classes c.array, w₃.SetUp s := fun s hmem => by
      have := hsup₂ hw₂ s hmem
      obtain ⟨m, rfl⟩ := exists_ordinary_of_mem_supersOf hmem
      exact hi₂.setUp_mono this h₃
    have hi₄ : LinkInv classes (((w₃.setArrayStates (.ordinary n) (if r then .linkageError else
        .linked)).setupSuperHierarchy classes c.array).setUpFunctionTables classes c.array) P none :=
      hi₃.setArrayStates.setUpArray fun s hmem =>
        sameTables_setArrayStates.setUp_iff.mpr (hsup₃ s hmem)
    cases r with
    | true => exact hi₄.returned_array
    | false =>
      refine hi₄.returned (fun hf => ?_) (hi₃.supers_not_failed hsup₃)
      refine hr.not_failed (hw₂.log.trans (h₃.log_suffix.trans (List.suffix_cons _ _))) ?_
      exact hw₂.failed.mp ((h₃.failed_array (Nat.succ_pos _)).mp hf)

/-! ### Runs -/

/-- The steps that do not link a class again after that has failed, and make array classes only
when the supers of arrays are linked. -/
structure Careful (classes : Classes) (w : World) (op : Op) (w' : World) : Prop where
  notRetried : NotRetried w'
  created : ∀ {c : ClassId}, op = .getOrCreateArray c →
    ∀ s ∈ supersOf classes c.array, (w.state s).isLinked = true

namespace LinkInv

/-- A class that is set up goes on with its initialization. -/
theorem setState_ordinary {s : State} (h : LinkInv classes w P none) (hset : w.SetUp (.ordinary n))
    (hs : s ≠ .loaded) (hP : s = .linkageError → P) :
    LinkInv classes (w.setState (.ordinary n) s) P none := by
  have hiff : ∀ m, (w.setState (.ordinary n) s).SetUp (.ordinary m) ↔ w.SetUp (.ordinary m) :=
    fun m => sameTables_setState.setUp_iff
  refine ⟨h.toAllTablesInv.congr sameTables_setState rfl, fun m hm _ => ?_, fun m hm => ?_,
    fun m hm => ?_, fun m hm => h.notFailed m ((hiff m).mp hm), fun m hm => ?_, h.kept⟩
  · rw [hiff]
    rcases eq_or_ne m n with rfl | hmn
    · exact hset
    · rw [state_setState, if_neg (by simp [hmn])] at hm
      exact h.linked m hm (by simp)
  · rw [hiff]
    rcases eq_or_ne m n with rfl | hmn
    · exact Or.inl hset
    · rw [state_setState, if_neg (by simp [hmn])] at hm
      exact h.error m hm
  · rw [state_setState] at hm
    split_ifs at hm
    · exact absurd hm hs
    · rw [hiff]
      exact h.loaded m hm
  · have hm := (hiff m).mp hm
    rw [state_setState]
    split_ifs with hmn
    · cases s with
      | linkageError => exact Or.inr (hP rfl)
      | loaded => exact absurd rfl hs
      | _ => exact Or.inl rfl
    · exact h.state m hm

theorem setUp_of_isLinked (h : LinkInv classes w P none)
    (hs : c ∈ supersOf classes d) (hl : (w.state c).isLinked = true) : w.SetUp c := by
  obtain ⟨m, rfl⟩ := exists_ordinary_of_mem_supersOf hs
  exact h.linked m hl (by simp)

/-- One more array class, which is not linked yet. -/
theorem withArray {s : State} (h : LinkInv classes w P none) :
    LinkInv classes (w.withArray c s) P none := by
  have hsup : ∀ {x y : ClassId}, x ∈ supersOf classes y → x ≠ c.array := by
    rintro x y hx rfl
    obtain ⟨m, hm⟩ := exists_ordinary_of_mem_supersOf hx
    exact absurd (congrArg (·.dimensions) hm) (Nat.succ_ne_zero _)
  have hset : ∀ {x : ClassId}, x ≠ c.array → ((w.withArray c s).SetUp x ↔ w.SetUp x) :=
    fun hx => by rw [World.SetUp, cd_withArray hx, World.SetUp]
  refine h.of_arrays ⟨fun x hx => ?_, fun x hx => ?_, fun e he t ht => ?_⟩
    (fun n => cd_withArray (by simp)) rfl
  · have hxc : x ≠ c.array := by
      rintro rfl
      rw [World.SetUp, cd_withArray_self] at hx
      exact lt_irrefl 0 hx
    refine (h.tables x ((hset hxc).mp hx)).congr (fun y hy => ?_) fun y hy hy' => ?_
    · have hyc : y ≠ c.array := by
        rcases hy with rfl | hy
        · exact hxc
        · exact hsup hy
      rw [cd_withArray hyc]
      exact ⟨rfl, rfl⟩
    · exact (hset (hsup hy)).mpr hy'
  · rcases eq_or_ne x c.array with rfl | hxc
    · rw [cd_withArray_self]
    · rw [cd_withArray hxc]
      exact h.unset x fun hw => hx ((hset hxc).mpr hw)
  · exact (hset (hsup ht)).mpr (h.arrays e he t ht)

/-- The chain of an element gets longer. -/
theorem deepen {e : Element} {k : Nat} (h : LinkInv classes w P none)
    (hs : ∀ s ∈ supersOf classes ⟨e, 1⟩, w.SetUp s) :
    LinkInv classes { w with depth := Function.update w.depth e k } P none := by
  refine h.of_arrays ⟨?_, h.unset, fun e' he' s hmem => ?_⟩ (fun _ => rfl) rfl
  · intro x hx
    exact (h.tables x hx).congr (fun _ _ => ⟨rfl, rfl⟩) fun _ _ h => h
  · rcases eq_or_ne e' e with rfl | hne
    · exact hs s hmem
    · dsimp only at he'
      rw [Function.update_of_ne hne] at he'
      exact h.arrays e' he' s hmem

end LinkInv

/-- Linking an array class leaves alone what is not loaded only. -/
theorem linkArray_cd {f : Nat} (hi : LinkInv classes w P none)
    (hsup : ∀ s ∈ supersOf classes c.array, w.SetUp s) (hs : w.state c.array = .loaded)
    (h : linkClass classes f w c.array = some (r, w')) (hr : NotRetried w') {e : Element}
    (he : ∀ m, e = .ordinary m → w.state (.ordinary m) ≠ .loaded) :
    w'.cd ⟨e, 0⟩ = w.cd ⟨e, 0⟩ := by
  obtain ⟨w₂, hready, hcases⟩ := linkArray_cases hi rfl hsup hs h
  have hne : (⟨e, 0⟩ : ClassId) ≠ c.array := fun h =>
    absurd (congrArg (·.dimensions) h) (Nat.succ_ne_zero _).symm
  have hcd₂ : ArrayReady classes P w c.array w₂ →
      (w₂.setState c.array .linked).cd ⟨e, 0⟩ = w.cd ⟨e, 0⟩ := fun hw₂ => by
    rw [cd_setState_of_ne _ _ _ _ hne, hw₂.cd, cd_setupSuperHierarchy_of_ne _ _ _ _ hne]
  rcases hcases with ⟨-, rfl, rfl⟩ | ⟨n, w₃, hn, h₃, rfl⟩
  · rw [cd_record, cd_setUpFunctionTables_of_ne _ _ _ _ hne,
      cd_setupSuperHierarchy_of_ne _ _ _ _ hne]
    exact hcd₂ (hready (hr.mono (List.suffix_cons _ _)))
  · have hw₂ := hready ((hr.mono (List.suffix_cons _ _) : NotRetried w₃).mono h₃.log_suffix)
    rw [cd_record, cd_setUpFunctionTables_of_ne _ _ _ _ hne,
      cd_setupSuperHierarchy_of_ne _ _ _ _ hne, cd_setArrayStates, if_neg (by simp)]
    refine Eq.trans ?_ (hcd₂ hw₂)
    refine h₃.untouched (e := e) (fun m hm => Or.inl ?_) 0
    subst hm
    rw [World.state, hcd₂ hw₂]
    exact he m rfl

/-- What holds between the steps of a run. -/
structure RunInv (classes : Classes) (P : Prop) (w : World) : Prop where
  inv : LinkInv classes w P none
  primitive : ∀ k, w.state ⟨.primitive k, 0⟩ = .initialized

namespace RunInv

theorem start (classes : Classes) (P : Prop) : RunInv classes P .start := by
  have hset : ∀ c, ¬ World.start.SetUp c := by
    rintro ⟨⟨n⟩ | ⟨k⟩, _ | d⟩ h <;> exact absurd h (lt_irrefl 0)
  refine ⟨⟨⟨fun c hc => absurd hc (hset c), fun c _ => ?_, fun e he => absurd he (lt_irrefl 0)⟩,
    fun n hn => (nomatch hn), fun n hn => (nomatch hn), fun n _ => ⟨hset _, fun h => nomatch h⟩,
    fun n hn => absurd hn (hset _), fun n hn => absurd hn (hset _), List.Pairwise.nil⟩,
    fun _ => rfl⟩
  obtain ⟨⟨n⟩ | ⟨k⟩, _ | d⟩ := c <;> rfl

theorem linkClass {f : Nat} (h : RunInv classes P w)
    (hl : Linker.linkClass classes f w (.ordinary n) = some (r, w')) (hr : NotRetried w') :
    RunInv classes P w' ∧ (r = false → w'.SetUp (.ordinary n)) := by
  have hlinks := links_of_linkClass hl
  obtain ⟨hi, hall⟩ := hlinks.inv h.inv hr
  refine ⟨⟨hi, fun k => ?_⟩, fun hr' => hall hr' n (List.mem_singleton_self n)⟩
  rw [← h.primitive k]
  exact congrArg (·.state) (hlinks.untouched (e := .primitive k) (fun _ h => by cases h) 0)

theorem linkArray {f : Nat} (h : RunInv classes P w)
    (hsup : ∀ s ∈ supersOf classes c.array, w.SetUp s) (hs : w.state c.array = .loaded)
    (hl : Linker.linkClass classes f w c.array = some (r, w')) (hr : NotRetried w') :
    RunInv classes P w' ∧ ∀ m, w.SetUp (.ordinary m) → w'.SetUp (.ordinary m) := by
  refine ⟨⟨h.inv.linkArray hsup hs hl hr, fun k => ?_⟩, fun m hm => ?_⟩
  · rw [← h.primitive k]
    exact congrArg (·.state) (linkArray_cd h.inv hsup hs hl hr (e := .primitive k) fun _ h => by cases h)
  · rw [World.SetUp, linkArray_cd h.inv hsup hs hl hr fun i hi => by
      cases hi
      exact h.inv.not_loaded hm]
    exact hm

theorem supers_setUp (h : RunInv classes P w) (hc : w.Exists c.array) :
    ∀ s ∈ supersOf classes c.array, w.SetUp s := by
  rw [supersOf_array, ← supersOf_array classes ⟨c.element, 0⟩]
  exact h.inv.arrays c.element (Nat.lt_of_lt_of_le (Nat.succ_pos _) hc)

theorem link {f : Nat} (h : RunInv classes P w) (hexists : w.Exists c)
    (hl : Linker.linkClass classes f w c = some (r, w')) (hr : NotRetried w') :
    RunInv classes P w' := by
  rcases eq_or_ne (w.state c) .loaded with hs | hs
  · obtain ⟨e, _ | d⟩ := c
    · cases e with
      | ordinary n => exact (h.linkClass hl hr).1
      | primitive k =>
        rw [h.primitive k] at hs
        cases hs
    · exact (h.linkArray (c := ⟨e, d⟩) (h.supers_setUp hexists) hs hl hr).1
  · cases f with
    | zero => cases hl
    | succ f =>
      rw [linkClass_of_ne_loaded hs] at hl
      cases hl
      have hnf : ¬ w.Failed c := hr.not_failed (List.suffix_cons _ _)
      have hsup : ∀ s ∈ supersOf classes c, ¬ w.Failed s := by
        refine h.inv.supers_not_failed fun s hmem => ?_
        obtain ⟨e, _ | d⟩ := c
        · cases e with
          | ordinary n =>
            exact (h.inv.tables _ (h.inv.setUp_of_not_failed hs hnf)).supers s hmem
          | primitive k => simp [supersOf, Classes.superOf, Classes.interfacesOf] at hmem
        · exact h.supers_setUp (c := ⟨e, d⟩) hexists s hmem
      refine ⟨h.inv.entered.returned (fun hf => hnf ?_) fun d hd hf => hsup d hd ?_, h.primitive⟩
      · exact (failed_record.mp hf).resolve_left (by simp)
      · exact (failed_record.mp hf).resolve_left (by simp)

theorem withArray {s : State} (h : RunInv classes P w) : RunInv classes P (w.withArray c s) := by
  refine ⟨h.inv.withArray, fun k => ?_⟩
  rw [World.state, cd_withArray fun h => absurd (congrArg (·.dimensions) h)
    (Nat.succ_ne_zero _).symm]
  exact h.primitive k

theorem setState_array {s : State} (h : RunInv classes P w) :
    RunInv classes P (w.setState c.array s) :=
  ⟨h.inv.setState_array, fun k => by
    rw [state_setState, if_neg fun h => absurd (congrArg (·.dimensions) h)
      (Nat.succ_ne_zero _).symm]
    exact h.primitive k⟩

theorem create (h : RunInv classes P w) (hl : Created classes w c w') (hr : NotRetried w')
    (hsup : ∀ s ∈ supersOf classes c.array, w.SetUp s) : RunInv classes P w' := by
  have hdeepen : ∀ {x : World} {k : Nat}, RunInv classes P x →
      (∀ s ∈ supersOf classes c.array, x.SetUp s) →
      RunInv classes P { x with depth := Function.update x.depth c.element k } := by
    intro x k hx hs
    rw [supersOf_array, ← supersOf_array classes ⟨c.element, 0⟩] at hs
    exact ⟨hx.inv.deepen hs, hx.primitive⟩
  have hsup' : ∀ {s : State}, ∀ t ∈ supersOf classes c.array, (w.withArray c s).SetUp t := by
    intro s t ht
    rw [World.SetUp, cd_withArray (ne_of_mem_supersOf ht)]
    exact hsup t ht
  cases hl with
  | existing => exact h
  | @primitive k hk hd =>
    have hinv : LinkInv classes (((w.withArray c .initialized).setupSuperHierarchy classes
        c.array).setUpFunctionTables classes c.array) P none := h.inv.withArray.setUpArray hsup'
    refine hdeepen ⟨hinv, fun k => ?_⟩ fun s hs => ?_
    · rw [state_setUpFunctionTables, state_setupSuperHierarchy]
      exact h.withArray.primitive k
    · exact setUp_setUpFunctionTables.mpr (Or.inr (setUp_setupSuperHierarchy.mpr (hsup' s hs)))
  | unlinked => exact hdeepen h.withArray hsup'
  | @linked f r x hk hd hlinked hx =>
    have hs : (w.withArray c .loaded).state c.array = .loaded := by
      rw [World.state, cd_withArray_self]
    obtain ⟨hinv, hmono⟩ := h.withArray.linkArray hsup' hs hx hr
    refine hdeepen hinv.setState_array fun s hmem => ?_
    have hset := hsup' (s := .loaded) s hmem
    obtain ⟨m, rfl⟩ := exists_ordinary_of_mem_supersOf hmem
    exact sameTables_setState.setUp_iff.mpr (hmono m hset)

theorem setState_ordinary {s : State} (h : RunInv classes P w) (hset : w.SetUp (.ordinary n))
    (hs : s ≠ .loaded) (hP : s = .linkageError → P) :
    RunInv classes P (w.setState (.ordinary n) s) :=
  ⟨h.inv.setState_ordinary hset hs hP, fun k => by
    rw [state_setState, if_neg (by simp)]
    exact h.primitive k⟩

theorem initializeClass {f : Nat} (h : RunInv classes P w)
    (hl : Linker.initializeClass classes f w n = some w') (hr : NotRetried w') :
    RunInv classes P w' := by
  cases initializeStep hl with
  | returns => exact h
  | starts linked => exact h.setState_ordinary (h.inv.linked n linked (by simp)) (by simp) (by simp)
  | links _ hx => exact (h.linkClass hx hr).1
  | linksAndStarts _ hx =>
    obtain ⟨hinv, hset⟩ := h.linkClass hx hr
    exact hinv.setState_ordinary (hset rfl) (by simp) (by simp)

theorem finishInitialization {error : Bool} (h : RunInv classes P w)
    (hs : w.state (.ordinary n) = .initializing) (hP : error = true → P) :
    RunInv classes P (Linker.finishInitialization w n error) := by
  have hset : w.SetUp (.ordinary n) := h.inv.linked n (by rw [hs]; rfl) (by simp)
  have hinv : RunInv classes P (w.setState (.ordinary n)
      (if error then .linkageError else .initialized)) := by
    refine h.setState_ordinary hset ?_ ?_ <;> cases error <;> simp [hP]
  refine ⟨hinv.inv.setArrayStates, fun k => ?_⟩
  rw [Linker.finishInitialization, state_setArrayStates, if_neg (by simp)]
  exact hinv.primitive k

/-- A step of a run. -/
theorem apply {f : Nat} {op : Op} (h : RunInv classes P w) (ha : op.apply classes f w = some w')
    (hc : Careful classes w op w') (hP : ∀ n, op = .finishInitialization n true → P) :
    RunInv classes P w' := by
  cases op with
  | link c =>
    simp only [Op.apply] at ha
    split_ifs at ha with he
    obtain ⟨⟨r, x⟩, hx, rfl⟩ := Option.map_eq_some_iff.mp ha
    exact h.link he hx hc.notRetried
  | getOrCreateArray c =>
    simp only [Op.apply] at ha
    split_ifs at ha with he
    exact h.create (created_of_getOrCreate he ha) hc.notRetried
      fun s hs => h.inv.setUp_of_isLinked hs (hc.created rfl s hs)
  | initializeClass n => exact h.initializeClass ha hc.notRetried
  | finishInitialization n error =>
    simp only [Op.apply] at ha
    split_ifs at ha with hs
    cases ha
    exact h.finishInitialization hs fun he => hP n (by rw [he])

end RunInv

end BJvm.Linker
