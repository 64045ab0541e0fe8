import BJvm.Proofs.LinkErrors
import BJvm.Types.Subtyping

/-!
# `instanceof`
-/

namespace BJvm.Linker

open Relation BJvm.Types

variable {classes : Classes} {P : Prop} {w w' w₂ w₃ : World} {a c d : ClassId} {n m : Nat}
  {op : Op} {r : Bool}

/-! ### The tables of array classes -/

/-- What holds of a chain of `depth` array classes over an ordinary class. -/
structure TablesKept (depth : Nat) (c : Nat → Classdesc) : Prop where
  setUp : ∀ k, 0 < k → k ≤ depth → (c k).state.isLinked = true → 0 < (c k).tableSetups
  element : ∀ k, 0 < k → k ≤ depth → (c k).state.isLinked = true → (c 0).state.isLinked = true
  arrays : ∀ k, 0 < k → k ≤ depth → (c 0).state.isLinked = true → (c k).state.isLinked = true
  loaded : ∀ k, 0 < k → k ≤ depth → 0 < (c 0).tableSetups → (c k).state ≠ .loaded

namespace TablesKept

variable {depth : Nat} {c₁ c₂ : Nat → Classdesc}

theorem of_depth_zero (c : Nat → Classdesc) : TablesKept 0 c where
  setUp _ h h' := absurd h (by omega)
  element _ h h' := absurd h (by omega)
  arrays _ h h' := absurd h (by omega)
  loaded _ h h' := absurd h (by omega)

/-- Linking an element keeps its chain right where it has one array class at most, and does not
leave that linked when it fails. -/
theorem chainEffect (h : TablesKept depth c₁) (hset : (c₁ 0).state = .loaded →
      (c₁ 0).tableSetups = 0) (he : ChainEffect depth c₁ c₂)
    (hd : (c₁ 0).state = .loaded → (c₂ 0).state ≠ .loaded →
      depth = 0 ∨ (depth = 1 ∧ ((c₂ 1).state.isLinked = true → (c₂ 0).state.isLinked = true))) :
    TablesKept depth c₂ := by
  cases he with
  | same => exact h
  | alone hs hs' ht hk =>
    rcases hd hs (by rcases hs' with h | ⟨h, -⟩ <;> simp [h]) with rfl | ⟨rfl, -⟩
    · exact of_depth_zero c₂
    · have h1 : (c₁ 1).state.isLinked = false := by
        by_contra hl
        have := h.element 1 Nat.one_pos le_rfl (by simpa using hl)
        rw [hs] at this
        cases this
      have hs' : (c₂ 0).state = .linkageError := by
        rcases hs' with h | ⟨-, h | h⟩
        · exact h
        · cases h
        · rw [h1] at h
          cases h
      refine ⟨fun k hk0 hk1 hl => ?_, fun k hk0 hk1 hl => ?_, fun k hk0 hk1 hl => ?_,
        fun k hk0 hk1 hl => ?_⟩ <;> obtain rfl : k = 1 := by omega
      · rw [hk 1 hk0, h1] at hl
        cases hl
      · rw [hk 1 hk0, h1] at hl
        cases hl
      · rw [hs'] at hl
        cases hl
      · rw [ht hs', hset hs] at hl
        exact absurd hl (lt_irrefl 0)
  | withArrays hs hs' ht hd' hl hl' hh htab hk =>
    rcases hd hs (by rcases hs' with h | h <;> simp [h]) with rfl | ⟨rfl, himp⟩
    · exact of_depth_zero c₂
    · have h0 := himp (by rw [hl']; rfl)
      refine ⟨fun k hk0 hk1 _ => ?_, fun k hk0 hk1 _ => h0, fun k hk0 hk1 _ => ?_,
        fun k hk0 hk1 _ => ?_⟩ <;> obtain rfl : k = 1 := by omega
      · rw [htab]
        exact Nat.succ_pos _
      · rw [hl']
        rfl
      · rw [hl']
        simp

/-- Giving the class and all its arrays one state. -/
theorem restate (h : TablesKept depth c₁) (hl : (c₁ 0).state.isLinked = true)
    {s : State} (hs : s ≠ .loaded) (h0 : (c₂ 0).state = s)
    (hk : ∀ k, 0 < k → k ≤ depth → c₂ k = { c₁ k with state := s }) : TablesKept depth c₂ := by
  refine ⟨fun k hk0 hk1 _ => ?_, fun k hk0 hk1 hl' => ?_, fun k hk0 hk1 hl' => ?_,
    fun k hk0 hk1 _ => ?_⟩
  · rw [hk k hk0 hk1]
    exact h.setUp k hk0 hk1 (h.arrays k hk0 hk1 hl)
  · rw [hk k hk0 hk1] at hl'
    rw [h0]
    exact hl'
  · rw [hk k hk0 hk1]
    rw [h0] at hl'
    exact hl'
  · rw [hk k hk0 hk1]
    exact hs

/-- The class goes on with its initialization. -/
theorem setState_element (h : TablesKept depth c₁) (hl : (c₁ 0).state.isLinked = true)
    {s : State} (hs : s.isLinked = true) (h0 : c₂ 0 = { c₁ 0 with state := s })
    (hk : ∀ k, 0 < k → c₂ k = c₁ k) : TablesKept depth c₂ := by
  refine ⟨fun k hk0 hk1 hl' => ?_, fun k hk0 hk1 _ => ?_, fun k hk0 hk1 _ => ?_,
    fun k hk0 hk1 ht => ?_⟩
  · rw [hk k hk0] at hl' ⊢
    exact h.setUp k hk0 hk1 hl'
  · rw [h0]
    exact hs
  · rw [hk k hk0]
    exact h.arrays k hk0 hk1 hl
  · rw [hk k hk0]
    rw [h0] at ht
    exact h.loaded k hk0 hk1 ht

/-- One array class more, over a component that is not linked. -/
theorem create (h : TablesKept depth c₁) (hlinked : (c₁ depth).state.isLinked = false)
    (hset : (c₁ 0).state = .loaded → (c₁ 0).tableSetups = 0)
    (hk : ∀ k, k ≤ depth → c₂ k = c₁ k)
    (hlast : c₂ (depth + 1) = { state := (c₁ depth).state }) : TablesKept (depth + 1) c₂ := by
  have h20 : c₂ 0 = c₁ 0 := hk 0 (Nat.zero_le _)
  have hcases : ∀ k, k ≤ depth + 1 → k ≤ depth ∨ k = depth + 1 := fun k hk => by omega
  refine ⟨fun k hk0 hk1 hl => ?_, fun k hk0 hk1 hl => ?_, fun k hk0 hk1 hl => ?_,
    fun k hk0 hk1 ht => ?_⟩ <;> rcases hcases k hk1 with hle | rfl
  · rw [hk k hle] at hl ⊢
    exact h.setUp k hk0 hle hl
  · rw [hlast, hlinked] at hl
    cases hl
  · rw [hk k hle] at hl
    rw [h20]
    exact h.element k hk0 hle hl
  · rw [hlast, hlinked] at hl
    cases hl
  · rw [hk k hle]
    rw [h20] at hl
    exact h.arrays k hk0 hle hl
  · rw [h20] at hl
    exfalso
    rcases Nat.eq_zero_or_pos depth with rfl | hd
    · rw [hlinked] at hl
      cases hl
    · rw [h.arrays depth hd le_rfl hl] at hlinked
      cases hlinked
  · rw [hk k hle]
    rw [h20] at ht
    exact h.loaded k hk0 hle ht
  · rw [hlast]
    rw [h20] at ht
    rcases Nat.eq_zero_or_pos depth with rfl | hd
    · intro hl
      rw [hset hl] at ht
      exact lt_irrefl 0 ht
    · exact h.loaded depth hd le_rfl ht

/-- One array class more, over a component that is linked. -/
theorem createLinked (h : TablesKept depth c₁) (hl : (c₁ 0).state.isLinked = true)
    (h0 : c₂ 0 = c₁ 0)
    (hk : ∀ k, 0 < k → k ≤ depth → c₂ k = { c₁ k with state := .linked })
    (hlast : (c₂ (depth + 1)).state.isLinked = true) (htab : 0 < (c₂ (depth + 1)).tableSetups) :
    TablesKept (depth + 1) c₂ := by
  have hcases : ∀ k, k ≤ depth + 1 → k ≤ depth ∨ k = depth + 1 := fun k hk => by omega
  refine ⟨fun k hk0 hk1 _ => ?_, fun k hk0 hk1 _ => h0 ▸ hl, fun k hk0 hk1 _ => ?_,
    fun k hk0 hk1 _ => ?_⟩ <;> rcases hcases k hk1 with hle | rfl
  · rw [hk k hk0 hle]
    exact h.setUp k hk0 hle (h.arrays k hk0 hle hl)
  · exact htab
  · rw [hk k hk0 hle]
    rfl
  · exact hlast
  · rw [hk k hk0 hle]
    simp
  · intro hs
    rw [hs] at hlast
    cases hlast

/-- The array class of one dimension, right after it is linked by itself. -/
theorem one (hs : (c₁ 1).state = (c₁ 0).state) (hl : (c₁ 1).state ≠ .loaded)
    (ht : 0 < (c₁ 1).tableSetups) : TablesKept 1 c₁ := by
  refine ⟨fun k hk0 hk1 _ => ?_, fun k hk0 hk1 h => ?_, fun k hk0 hk1 h => ?_,
    fun k hk0 hk1 _ => ?_⟩ <;> obtain rfl : k = 1 := by omega
  · exact ht
  · exact hs ▸ h
  · exact hs ▸ h
  · exact hl

end TablesKept

/-! ### Runs -/

/-- What holds between the steps. -/
structure TablesInvRun (classes : Classes) (w : World) : Prop where
  run : RunInv classes True w
  chain : ∀ n, TablesKept (w.depth (.ordinary n)) (w.chain (.ordinary n))
  primitive : ∀ k i, i ≤ w.depth (.primitive k) → (w.state ⟨.primitive k, i⟩).isLinked = true ∧
    (0 < i → w.SetUp ⟨.primitive k, i⟩)

/-- A class gets linked while it has no array class, or only that of one dimension, which is not
left linked where linking the class fails. -/
def LinkedWithArray (w w' : World) : Prop :=
  ∀ n, w.state (.ordinary n) = .loaded → w'.state (.ordinary n) ≠ .loaded →
    w.depth (.ordinary n) = 0 ∨ (w.depth (.ordinary n) = 1 ∧
      ((w'.state ⟨.ordinary n, 1⟩).isLinked = true → (w'.state (.ordinary n)).isLinked = true))

namespace TablesInvRun

theorem unset (h : TablesInvRun classes w) (hs : (w.chain (.ordinary n) 0).state = .loaded) :
    (w.chain (.ordinary n) 0).tableSetups = 0 :=
  Nat.eq_zero_of_not_pos (h.run.inv.loaded n hs).1

theorem start (classes : Classes) : TablesInvRun classes .start where
  run := .start classes True
  chain _ := .of_depth_zero _
  primitive k i hi := by
    obtain rfl : i = 0 := Nat.le_zero.mp hi
    exact ⟨rfl, fun h => absurd h (lt_irrefl 0)⟩

theorem linkClass {f : Nat} (h : TablesInvRun classes w)
    (hl : Linker.linkClass classes f w (.ordinary n) = some (r, w')) (hr : NotRetried w')
    (hd : LinkedWithArray w w') : TablesInvRun classes w' := by
  have hlinks := links_of_linkClass hl
  have hprim : ∀ k i, w'.cd ⟨.primitive k, i⟩ = w.cd ⟨.primitive k, i⟩ := fun k =>
    hlinks.untouched (e := .primitive k) fun _ h => by cases h
  refine ⟨(h.run.linkClass hl hr).1, fun m => ?_, fun k i hi => ?_⟩
  · rw [hlinks.depth_eq]
    exact (h.chain m).chainEffect h.unset (hlinks.chainEffect m) (hd m)
  · rw [hlinks.depth_eq] at hi
    rw [World.state, World.SetUp, hprim]
    exact h.primitive k i hi

/-- A class that is an element of an array class which is loaded only is loaded only itself, if it
gets linked again. -/
theorem element_loaded (h : TablesInvRun classes w) (ha : 0 < a.dimensions) (hexists : w.Exists a)
    (hn : a.element = .ordinary n) (hs : w.state a = .loaded)
    (hset : w.state (.ordinary n) ≠ .loaded → w.SetUp (.ordinary n)) :
    w.state (.ordinary n) = .loaded := by
  by_contra hne
  obtain ⟨e, d⟩ := a
  cases hn
  exact (h.chain n).loaded d ha hexists (hset hne) hs

/-- The array class that `link_class` is asked to link, and the others. -/
theorem linkArray {f : Nat} (h : TablesInvRun classes w) (hexists : w.Exists c.array)
    (hs : w.state c.array = .loaded)
    (hl : Linker.linkClass classes f w c.array = some (r, w')) (hr : NotRetried w')
    (hd : LinkedWithArray w w') : TablesInvRun classes w' := by
  have hsup := h.run.supers_setUp hexists
  have hrun := (h.run.linkArray hsup hs hl hr).1
  obtain ⟨w₂, hready, hcases⟩ := linkArray_cases h.run.inv rfl hsup hs hl
  rcases hcases with ⟨hbase, -, -⟩ | ⟨n, w₃, hn, h₃, hw'⟩
  · obtain ⟨⟨n⟩ | ⟨k⟩, d⟩ := c
    · cases hbase
    · have hp := (h.primitive k (d + 1) hexists).1
      rw [show w.state ⟨.primitive k, d + 1⟩ = .loaded from hs] at hp
      cases hp
  · have hr₃ : NotRetried w₃ := hr.mono (hw' ▸ List.suffix_cons _ _)
    have hw₂ := hready (hr₃.mono h₃.log_suffix)
    have hcd₂ : ∀ {y : ClassId}, y ≠ c.array →
        (w₂.setState c.array .linked).cd y = w.cd y := fun hy => by
      rw [cd_setState_of_ne _ _ _ _ hy, hw₂.cd, cd_setupSuperHierarchy_of_ne _ _ _ _ hy]
    have hne0 : ∀ e : Element, (⟨e, 0⟩ : ClassId) ≠ c.array := fun e h =>
      absurd (congrArg (·.dimensions) h) (Nat.succ_ne_zero _).symm
    have hstate : (w₂.setState c.array .linked).state (.ordinary n) = w.state (.ordinary n) :=
      congrArg (·.state) (hcd₂ (hne0 _))
    -- the element is loaded only, since otherwise the array class would not be
    have hloaded : w.state (.ordinary n) = .loaded := by
      refine h.element_loaded (Nat.succ_pos _) hexists hn hs fun hne => ?_
      obtain ⟨rfl, hcd⟩ := h₃.of_not_loaded fun m hm => by
        rw [List.mem_singleton] at hm
        rwa [hm, hstate]
      have hset := (h₃.inv hw₂.inv.setState_array hr₃).2 rfl n (List.mem_singleton_self n)
      rw [World.SetUp, hcd, hcd₂ (hne0 _)] at hset
      exact hset
    have hdepth₃ : w₃.depth = w.depth := h₃.depth_eq.trans hw₂.depth
    have hdepth : w'.depth = w.depth := by
      rw [hw']
      exact hdepth₃
    have hwrite : ∀ {e : Element}, e ≠ .ordinary n → w'.chain e = w₃.chain e := fun he => by
      have he' : _ ≠ c.array.element := hn ▸ he
      rw [hw']
      exact (chain_setUpFunctionTables he').trans ((chain_setupSuperHierarchy he').trans
        (chain_setArrayStates he))
    have helement : w'.state (.ordinary n) = if r then .linkageError else .linked := by
      rw [hw', state_record, state_setUpFunctionTables, state_setupSuperHierarchy,
        state_setArrayStates, if_neg (by simp)]
      exact h₃.state_single (hstate.trans hloaded)
    have hother : ∀ {e : Element}, e ≠ .ordinary n →
        (w₂.setState c.array .linked).chain e = w.chain e := fun he => funext fun k =>
      hcd₂ fun h => he (hn ▸ congrArg (·.element) h)
    refine ⟨hrun, fun m => ?_, fun k i hi => ?_⟩
    · rw [hdepth]
      rcases eq_or_ne m n with rfl | hmn
      · have hone := hd m hloaded (by
          rw [helement]
          cases r <;> simp)
        obtain ⟨e, d⟩ := c
        cases hn
        have hd1 : d + 1 ≤ w.depth (.ordinary m) := hexists
        obtain ⟨rfl, h1⟩ : d = 0 ∧ w.depth (.ordinary m) = 1 := by omega
        have ha := cd_setUp classes (w₃.setArrayStates (.ordinary m) (if r then .linkageError else
          .linked)) (ClassId.ordinary m).array (superOf_array classes (.ordinary m))
        have hin : (ClassId.ordinary m).array.element = .ordinary m ∧
            0 < (ClassId.ordinary m).array.dimensions ∧
            (ClassId.ordinary m).array.dimensions ≤ w₃.depth (.ordinary m) :=
          ⟨rfl, Nat.one_pos, by rw [hdepth₃, h1]⟩
        rw [state_setArrayStates, if_pos hin] at ha
        have hcd : w'.cd = _ := (congrArg World.cd hw').trans (cd_record _ _)
        have ha' : w'.chain (.ordinary m) 1 = _ := (congrFun hcd _).trans ha
        rw [h1]
        refine TablesKept.one ?_ ?_ ?_
        · rw [ha']
          exact helement.symm
        · rw [ha']
          cases r <;> simp
        · rw [ha']
          exact Nat.succ_pos _
      · have hm := hwrite (e := .ordinary m) (by simp [hmn])
        have heffect := h₃.chainEffect m
        rw [hother (by simp [hmn]), depth_setState, hw₂.depth] at heffect
        refine (h.chain m).chainEffect h.unset (hm ▸ heffect) fun hs' hs'' => ?_
        exact hd m hs' hs''
    · rw [hdepth] at hi
      have hp : ∀ j, w'.cd ⟨.primitive k, j⟩ = w.cd ⟨.primitive k, j⟩ := fun j =>
        (congrFun (hwrite (e := .primitive k) (by simp)) j).trans
          ((h₃.untouched (e := .primitive k) (fun _ h => by cases h) j).trans
            (congrFun (hother (e := .primitive k) (by simp)) j))
      rw [World.state, World.SetUp, hp]
      exact h.primitive k i hi

theorem link {f : Nat} (h : TablesInvRun classes w) (hexists : w.Exists c)
    (hl : Linker.linkClass classes f w c = some (r, w')) (hr : NotRetried w')
    (hd : LinkedWithArray w w') : TablesInvRun classes w' := by
  rcases eq_or_ne (w.state c) .loaded with hs | hs
  · obtain ⟨e, _ | d⟩ := c
    · cases e with
      | ordinary n => exact h.linkClass hl hr hd
      | primitive k =>
        rw [h.run.primitive k] at hs
        cases hs
    · exact h.linkArray (c := ⟨e, d⟩) hexists hs hl hr hd
  · have hrun := h.run.link hexists hl hr
    cases f with
    | zero => cases hl
    | succ f =>
      rw [linkClass_of_ne_loaded hs] at hl
      cases hl
      exact ⟨hrun, h.chain, h.primitive⟩

/-- Where a class goes on to its initialization. -/
theorem setState_ordinary {s : State} (h : TablesInvRun classes w)
    (hl : (w.state (.ordinary n)).isLinked = true) (hs : s.isLinked = true) :
    TablesInvRun classes (w.setState (.ordinary n) s) := by
  refine ⟨h.run.setState_ordinary (h.run.inv.linked n hl (by simp)) ?_ fun _ => trivial,
    fun m => ?_, fun k i hi => ?_⟩
  · rintro rfl
    cases hs
  · rcases eq_or_ne m n with rfl | hmn
    · refine (h.chain m).setState_element hl hs ?_ fun k hk => ?_
      · rw [World.chain, cd_setState, if_pos rfl]
        rfl
      · exact cd_setState_of_ne _ _ _ _ (by simp [Nat.ne_of_gt hk])
    · rw [chain_setState (by simp [hmn])]
      exact h.chain m
  · rw [state_setState, if_neg (by simp), sameTables_setState.setUp_iff]
    exact h.primitive k i hi

theorem initializeClass {f : Nat} (h : TablesInvRun classes w)
    (hl : Linker.initializeClass classes f w n = some w') (hr : NotRetried w')
    (hd : LinkedWithArray w w') : TablesInvRun classes w' := by
  cases initializeStep hl with
  | returns => exact h
  | starts linked => exact h.setState_ordinary linked rfl
  | links _ hx => exact h.linkClass hx hr hd
  | @linksAndStarts x _ hx sound =>
    have hne : ∀ {m}, m ≠ n → (x.setState (.ordinary n) .initializing).state (.ordinary m) =
        x.state (.ordinary m) := fun hm => by simp [hm]
    have hset := (h.run.linkClass hx hr).2 rfl
    have hlinked : (x.state (.ordinary n)).isLinked = true := by
      have hnl := (h.run.linkClass hx hr).1.inv.not_loaded hset
      cases hst : x.state (.ordinary n) with
      | linkageError => exact absurd hst sound
      | loaded => exact absurd hst hnl
      | _ => rfl
    refine (h.linkClass hx hr fun m hm hm' => ?_).setState_ordinary hlinked rfl
    have hdm := hd m hm (by
      rcases eq_or_ne m n with rfl | hmn
      · simp
      · rwa [hne hmn])
    refine hdm.imp id (And.imp_right fun himp ha => ?_)
    have ha' := himp (by rwa [state_setState, if_neg (by simp)])
    rcases eq_or_ne m n with rfl | hmn
    · exact hlinked
    · rwa [hne hmn] at ha'

theorem finishInitialization {error : Bool} (h : TablesInvRun classes w)
    (hs : w.state (.ordinary n) = .initializing) :
    TablesInvRun classes (Linker.finishInitialization w n error) := by
  refine ⟨h.run.finishInitialization hs fun _ => trivial, fun m => ?_, fun k i hi => ?_⟩
  · unfold Linker.finishInitialization
    generalize hst : (if error then State.linkageError else State.initialized) = s
    rcases eq_or_ne m n with rfl | hmn
    · refine TablesKept.restate (s := s) (h.chain m) (by rw [World.chain, ← World.state, hs]; rfl)
        ?_ ?_ fun k hk0 hk1 => ?_
      · rw [← hst]
        cases error <;> simp
      · rw [World.chain, cd_setArrayStates, if_neg (by simp), state_setState, if_pos rfl]
      · rw [World.chain, cd_setArrayStates, if_pos ⟨rfl, hk0, hk1⟩,
          cd_setState_of_ne _ _ _ _ (by simp [Nat.ne_of_gt hk0])]
        rfl
    · rw [chain_setArrayStates (by simp [hmn]), chain_setState (by simp [hmn])]
      exact h.chain m
  · rw [Linker.finishInitialization, state_setArrayStates, if_neg (by simp), state_setState,
      if_neg (by simp), sameTables_setArrayStates.setUp_iff, sameTables_setState.setUp_iff]
    exact h.primitive k i hi

/-- One array class more, where the others keep their tables. -/
theorem push {x : World} (h : TablesInvRun classes w) (hrun : RunInv classes True w')
    (hdepth : w'.depth = Function.update w.depth c.element (c.dimensions + 1))
    (hcd : w'.cd = x.cd) (hother : ∀ e, e ≠ c.element → x.chain e = w.chain e)
    (hchain : ∀ n, c.element = .ordinary n →
      TablesKept (c.dimensions + 1) (x.chain (.ordinary n)))
    (hprim : ∀ k, c.element = .primitive k → ∀ i ≤ c.dimensions + 1,
      (x.state ⟨.primitive k, i⟩).isLinked = true ∧ (0 < i → x.SetUp ⟨.primitive k, i⟩)) :
    TablesInvRun classes w' := by
  have hchain' : w'.chain = x.chain := by
    funext e k
    rw [World.chain, hcd, World.chain]
  refine ⟨hrun, fun m => ?_, fun k i hi => ?_⟩
  · rw [hchain', hdepth]
    rcases eq_or_ne (.ordinary m) c.element with he | he
    · rw [he, Function.update_self, ← he]
      exact hchain m he.symm
    · rw [Function.update_of_ne he, hother _ he]
      exact h.chain m
  · rw [hdepth] at hi
    rw [World.state, World.SetUp, hcd]
    rcases eq_or_ne (.primitive k) c.element with he | he
    · rw [he, Function.update_self] at hi
      exact hprim k he.symm i hi
    · rw [Function.update_of_ne he] at hi
      have := congrFun (hother _ he) i
      rw [show x.cd ⟨.primitive k, i⟩ = w.cd ⟨.primitive k, i⟩ from this]
      exact h.primitive k i hi

theorem chain_withArray {s : State} {e : Element} (he : e ≠ c.element) :
    (w.withArray c s).chain e = w.chain e :=
  funext fun _ => cd_withArray fun h => he (congrArg (·.element) h)

/-- An array class over a component that is linked. -/
theorem createLinked {f : Nat} {x : World} (h : TablesInvRun classes w)
    (hd : w.depth c.element = c.dimensions) (hlinked : (w.state c).isLinked = true)
    (hl : Linker.linkClass classes f (w.withArray c .loaded) c.array = some (r, x))
    (hr : NotRetried x) (hsup : ∀ s ∈ supersOf classes c.array, w.SetUp s)
    (hrun : RunInv classes True { x.setState c.array (x.state c) with
      depth := Function.update x.depth c.element (c.dimensions + 1) }) :
    TablesInvRun classes { x.setState c.array (x.state c) with
      depth := Function.update x.depth c.element (c.dimensions + 1) } := by
  have hsup' : ∀ t ∈ supersOf classes c.array, (w.withArray c .loaded).SetUp t := fun t ht => by
    rw [World.SetUp, cd_withArray (ne_of_mem_supersOf ht)]
    exact hsup t ht
  have hs : (w.withArray c .loaded).state c.array = .loaded := by
    rw [World.state, cd_withArray_self]
  obtain ⟨w₂, hready, hcases⟩ := linkArray_cases h.run.withArray.inv rfl hsup' hs hl
  have hcd₂ : ArrayReady classes True (w.withArray c .loaded) c.array w₂ → ∀ {y : ClassId},
      y ≠ c.array → (w₂.setState c.array .linked).cd y = w.cd y := fun hw₂ y hy => by
    rw [cd_setState_of_ne _ _ _ _ hy, hw₂.cd, cd_setupSuperHierarchy_of_ne _ _ _ _ hy,
      cd_withArray hy]
  -- what the writes after that leave of another world
  have hpush : ∀ {z : World}, x = ((z.setupSuperHierarchy classes c.array).setUpFunctionTables
      classes c.array).record (.returned c.array r) →
      (∀ {y : ClassId}, y ≠ c.array → (x.setState c.array (x.state c)).cd y = z.cd y) ∧
      ((x.setState c.array (x.state c)).state c.array = z.state c) ∧
      (x.setState c.array (x.state c)).SetUp c.array := by
    intro z hz
    have hcd : ∀ {y : ClassId}, y ≠ c.array → x.cd y = z.cd y := fun hy => by
      rw [hz, cd_record, cd_setUpFunctionTables_of_ne _ _ _ _ hy,
        cd_setupSuperHierarchy_of_ne _ _ _ _ hy]
    refine ⟨fun hy => (cd_setState_of_ne _ _ _ _ hy).trans (hcd hy), ?_, ?_⟩
    · rw [state_setState, if_pos rfl, World.state, hcd (array_ne c)]
      rfl
    · rw [sameTables_setState.setUp_iff, hz]
      exact setUp_setUpFunctionTables.mpr (Or.inl rfl)
  have hlt : ∀ {e : Element} {i : Nat}, i ≤ c.dimensions → (⟨e, i⟩ : ClassId) ≠ c.array := by
    intro e i hi h
    have := congrArg (·.dimensions) h
    dsimp only at this
    omega
  rcases hcases with ⟨hbase, rfl, hx⟩ | ⟨n, w₃, hn, h₃, hx⟩
  · have hw₂ := hready (hr.mono (hx ▸ List.suffix_cons _ _))
    obtain ⟨hcd, hstate, hset⟩ := hpush hx
    have hxd : x.depth = w.depth := by
      rw [hx]
      exact hw₂.depth
    refine h.push (x := x.setState c.array (x.state c)) hrun (by rw [hxd]) rfl (fun e he => ?_)
      (fun n hn => ?_) fun k hk i hi => ?_
    · exact funext fun j => (hcd fun h => he (congrArg (·.element) h)).trans
        (hcd₂ hw₂ fun h => he (congrArg (·.element) h))
    · obtain ⟨e, d⟩ := c
      cases hn
      cases hbase
    · rcases Nat.lt_or_ge c.dimensions i with hi' | hi'
      · obtain ⟨e, d⟩ := c
        cases hk
        obtain rfl : i = d + 1 := le_antisymm hi hi'
        refine ⟨?_, fun _ => hset⟩
        rw [show (⟨.primitive k, d + 1⟩ : ClassId) = ClassId.array ⟨.primitive k, d⟩ from rfl,
          hstate, World.state, hcd₂ hw₂ (array_ne _)]
        exact hlinked
      · rw [World.state, World.SetUp, hcd (hlt hi'), hcd₂ hw₂ (hlt hi')]
        exact h.primitive k i (by rwa [← hk, hd])
  · have hr₃ : NotRetried w₃ := hr.mono (hx ▸ List.suffix_cons _ _)
    have hw₂ := hready (hr₃.mono h₃.log_suffix)
    obtain ⟨e, d⟩ := c
    cases hn
    have hD : w.depth (.ordinary n) = d := hd
    have hchain := h.chain n
    rw [hD] at hchain
    have hlinked0 : (w.chain (.ordinary n) 0).state.isLinked = true := by
      rcases Nat.eq_zero_or_pos d with rfl | hpos
      · exact hlinked
      · exact hchain.element d hpos le_rfl hlinked
    obtain ⟨rfl, hcd₃⟩ := h₃.of_not_loaded fun m hm => by
      rw [List.mem_singleton] at hm
      subst hm
      rw [World.state, hcd₂ hw₂ (hlt (Nat.zero_le _))]
      intro hm
      rw [World.chain, hm] at hlinked0
      cases hlinked0
    obtain ⟨hcd, hstate, hset⟩ := hpush hx
    have hdepth₃ : w₃.depth = w.depth := h₃.depth_eq.trans hw₂.depth
    have hxd : x.depth = w.depth := by
      rw [hx]
      exact hdepth₃
    have hz : ∀ {y : ClassId}, y ≠ ClassId.array ⟨.ordinary n, d⟩ →
        (x.setState (ClassId.array ⟨.ordinary n, d⟩) (x.state ⟨.ordinary n, d⟩)).cd y =
          { w.cd y with state := if y.element = .ordinary n ∧ 0 < y.dimensions ∧
              y.dimensions ≤ d then .linked else w.state y } := fun hy => by
      rw [hcd hy, cd_setArrayStates, hdepth₃, hD, World.state, hcd₃, hcd₂ hw₂ hy]
      rfl
    refine h.push (x := x.setState (ClassId.array ⟨.ordinary n, d⟩) (x.state ⟨.ordinary n, d⟩))
      hrun (by rw [hxd]) rfl (fun e he => ?_) (fun m hm => ?_)
      fun k hk => by cases hk
    · refine funext fun j => (hz fun h => he (congrArg (·.element) h)).trans ?_
      rw [if_neg fun h => he h.1]
      rfl
    · cases hm
      refine hchain.createLinked hlinked0 ?_ (fun k hk0 hk1 => ?_) ?_ hset
      · refine (hz (hlt (Nat.zero_le _))).trans ?_
        rw [if_neg (by simp)]
        rfl
      · refine (hz (hlt hk1)).trans ?_
        rw [if_pos ⟨rfl, hk0, hk1⟩]
        rfl
      · rw [World.chain, ← World.state]
        refine (congrArg State.isLinked hstate).trans ?_
        rw [state_setArrayStates, World.state, hcd₃, hcd₂ hw₂ (hlt le_rfl)]
        simp only [Bool.false_eq_true, if_false]
        split_ifs
        · rfl
        · exact hlinked

theorem create (h : TablesInvRun classes w) (hl : Created classes w c w') (hr : NotRetried w')
    (hsup : ∀ s ∈ supersOf classes c.array, w.SetUp s) : TablesInvRun classes w' := by
  have hrun := h.run.create hl hr hsup
  cases hl with
  | existing => exact h
  | @primitive k hk hd =>
    subst hk
    refine h.push (x := ((w.withArray ⟨.primitive k, 0⟩ .initialized).setupSuperHierarchy classes
      ⟨.primitive k, 1⟩).setUpFunctionTables classes ⟨.primitive k, 1⟩) hrun rfl rfl
      (fun e he => ?_) (fun n hn => nomatch hn) fun k' hk' i hi => ?_
    · rw [chain_setUpFunctionTables (by exact he), chain_setupSuperHierarchy (by exact he),
        chain_withArray he]
    · cases hk'
      rw [state_setUpFunctionTables, state_setupSuperHierarchy, setUp_setUpFunctionTables]
      obtain rfl | rfl : i = 0 ∨ i = 1 := by
        have : i ≤ 1 := hi
        omega
      · rw [World.state, cd_withArray (array_ne _)]
        exact ⟨(h.primitive k 0 (Nat.zero_le _)).1, fun h => absurd h (lt_irrefl 0)⟩
      · refine ⟨?_, fun _ => Or.inl rfl⟩
        rw [World.state, show (⟨.primitive k, 1⟩ : ClassId) = ClassId.array ⟨.primitive k, 0⟩
          from rfl, cd_withArray_self]
        rfl
  | unlinked hk hd hlinked =>
    refine h.push (x := w.withArray c (w.state c)) hrun rfl rfl (fun e => chain_withArray)
      (fun n hn => ?_) fun k hk' i hi => ?_
    · obtain ⟨e, d⟩ := c
      cases hn
      have hchain := h.chain n
      rw [show w.depth (.ordinary n) = d from hd] at hchain
      refine hchain.create hlinked h.unset (fun k hk => ?_) cd_withArray_self
      refine cd_withArray fun h => ?_
      have := congrArg (·.dimensions) h
      dsimp only at this
      omega
    · obtain ⟨e, d⟩ := c
      cases hk'
      have := (h.primitive k d (le_of_eq hd.symm)).1
      rw [hlinked] at this
      cases this
  | @linked f r x hk hd hlinked hx => exact h.createLinked hd hlinked hx hr hsup hrun

end TablesInvRun

/-- The steps that leave every class that is linked with its tables. -/
structure TablesStep (classes : Classes) (w : World) (op : Op) (w' : World) : Prop where
  careful : Careful classes w op w'
  withArray : LinkedWithArray w w'

theorem TablesInvRun.apply {f : Nat} (h : TablesInvRun classes w)
    (ha : op.apply classes f w = some w') (hp : TablesStep classes w op w') :
    TablesInvRun classes w' := by
  cases op with
  | link c =>
    simp only [Op.apply] at ha
    split_ifs at ha with he
    obtain ⟨⟨r, x⟩, hx, rfl⟩ := Option.map_eq_some_iff.mp ha
    exact h.link he hx hp.careful.notRetried hp.withArray
  | getOrCreateArray c =>
    simp only [Op.apply] at ha
    split_ifs at ha with he
    exact h.create (created_of_getOrCreate he ha) hp.careful.notRetried
      fun s hs => h.run.inv.setUp_of_isLinked hs (hp.careful.created rfl s hs)
  | initializeClass n => exact h.initializeClass ha hp.careful.notRetried hp.withArray
  | finishInitialization n error =>
    simp only [Op.apply] at ha
    split_ifs at ha with hs
    cases ha
    exact h.finishInitialization hs

theorem TablesInvRun.of_run (run : Run classes (TablesStep classes) w) :
    TablesInvRun classes w := by
  induction run with
  | start => exact .start classes
  | step fuel _ ha hp ih => exact ih.apply ha hp

/-! ### Types -/

section

variable (classes : Classes)

/-- What class files have to satisfy: superinterfaces are interfaces, the superclass of an interface
is `java/lang/Object`, and that alone has no superclass. -/
structure WellFormed : Prop where
  interface_flag : ∀ {n i : Nat}, i ∈ classes.interfaces n → classes.isInterface i = true
  interface_super : ∀ {n : Nat}, classes.isInterface n = true →
    classes.superClass n = some classes.object
  root : ∀ {n : Nat}, classes.superClass n = none ↔ n = classes.object
  object_interfaces : classes.interfaces classes.object = []
  arrays : classes.isInterface classes.cloneable = true ∧
    classes.isInterface classes.serializable = true

/-- The direct superclass. -/
def SuperOf (n m : Nat) : Prop := classes.superClass n = some m

/-- The subtype relation of the virtual machine. -/
def typeHierarchy : Hierarchy Nat where
  direct n m := classes.superClass n = some m ∨ m ∈ classes.interfaces n
  aboveArrays n := n ∈ [classes.cloneable, classes.serializable, classes.object]

end

def elementType : Element → JType Nat TypeKind
  | .ordinary n => .ofClass n
  | .primitive k => .primitive k

/-- The type that a class stands for. -/
def typeOf (c : ClassId) : JType Nat TypeKind := .arrays c.dimensions (elementType c.element)

namespace WellFormed

theorem superClass_object (h : WellFormed classes) : classes.superClass classes.object = none :=
  h.root.mpr rfl

/-- Nothing is above `java/lang/Object`. -/
theorem eq_object (h : WellFormed classes)
    (hm : ReflTransGen (typeHierarchy classes).direct classes.object m) : m = classes.object := by
  rcases hm.cases_head with h' | ⟨k, hk, -⟩
  · exact h'.symm
  · rcases hk with hk | hk
    · rw [h.superClass_object] at hk
      cases hk
    · rw [h.object_interfaces] at hk
      cases hk

/-- The one class above an interface. -/
theorem eq_object_of_interface (h : WellFormed classes) (hn : classes.isInterface n = true)
    (hm : classes.isInterface m = false) (hle : ReflTransGen (typeHierarchy classes).direct n m) :
    m = classes.object := by
  induction hle using ReflTransGen.head_induction_on with
  | refl =>
    rw [hn] at hm
    cases hm
  | @head n k hk hkm ih =>
    rcases hk with hk | hk
    · rw [h.interface_super hn] at hk
      cases hk
      exact h.eq_object hkm
    · exact ih (h.interface_flag hk)

theorem superOf_object (h : WellFormed classes) (n : Nat) :
    ReflTransGen (SuperOf classes) n classes.object := by
  induction n using Nat.strong_induction_on with
  | _ n ih =>
    cases hs : classes.superClass n with
    | none => exact (h.root.mp hs) ▸ .refl
    | some s => exact (ih s (classes.super_lt hs)).head hs

/-- A class that is no interface is reached through superclasses alone. -/
theorem superOf_iff (h : WellFormed classes) (hm : classes.isInterface m = false) :
    ReflTransGen (SuperOf classes) n m ↔ ReflTransGen (typeHierarchy classes).direct n m := by
  refine ⟨fun hle => ReflTransGen.mono (fun _ _ => Or.inl) _ _ hle, fun hle => ?_⟩
  induction hle using ReflTransGen.head_induction_on with
  | refl => exact .refl
  | @head n k hk hkm ih =>
    rcases hk with hk | hk
    · exact ih.head hk
    · rw [h.eq_object_of_interface (h.interface_flag hk) hm hkm]
      exact h.superOf_object n

end WellFormed

theorem mem_supersOf_iff {s : ClassId} : s ∈ supersOf classes (.ordinary n) ↔
    ∃ k, s = .ordinary k ∧ (typeHierarchy classes).direct n k := by
  rw [supersOf, superOf_ordinary, List.mem_append, List.mem_map]
  refine Iff.trans (or_congr List.mem_map Iff.rfl) ?_
  constructor
  · rintro (⟨k, hk, rfl⟩ | ⟨k, hk, rfl⟩)
    · exact ⟨k, rfl, Or.inr hk⟩
    · exact ⟨k, rfl, Or.inl (Option.mem_toList.mp hk)⟩
  · rintro ⟨k, rfl, hk | hk⟩
    · exact Or.inr ⟨k, Option.mem_toList.mpr hk, rfl⟩
    · exact Or.inl ⟨k, hk, rfl⟩

theorem direct_lt (h : (typeHierarchy classes).direct n m) : m < n :=
  h.elim (fun h => classes.super_lt h) fun h => classes.interface_lt h

/-! ### The display and the superinterfaces -/

namespace AllTablesInv

theorem mem_hierarchy (h : AllTablesInv classes w) (x : ClassId) (n : Nat) :
    w.SetUp (.ordinary n) → (x ∈ (w.cd (.ordinary n)).hierarchy ↔
      ∃ m, x = .ordinary m ∧ ReflTransGen (SuperOf classes) n m) := by
  induction n using Nat.strong_induction_on with
  | _ n ih =>
    intro hs
    rw [(h.tables _ hs).hierarchy, List.mem_append, List.mem_singleton]
    cases hsuper : classes.superClass n with
    | none =>
      simp only [Classes.superOf, hsuper, Option.map_none, Option.elim_none, List.not_mem_nil,
        false_or]
      constructor
      · rintro rfl
        exact ⟨n, rfl, .refl⟩
      · rintro ⟨m, rfl, hm⟩
        rcases hm.cases_head with rfl | ⟨k, hk, -⟩
        · rfl
        · rw [SuperOf, hsuper] at hk
          cases hk
    | some s =>
      have hsup : classes.superOf (.ordinary n) = some (.ordinary s) := by
        simp [Classes.superOf, hsuper]
      have hset := (h.tables _ hs).supers (.ordinary s) (by simp [supersOf, hsup])
      rw [hsup, Option.elim_some, ih s (classes.super_lt hsuper) hset]
      constructor
      · rintro (⟨m, rfl, hm⟩ | rfl)
        · exact ⟨m, rfl, hm.head hsuper⟩
        · exact ⟨n, rfl, .refl⟩
      · rintro ⟨m, rfl, hm⟩
        rcases hm.cases_head with rfl | ⟨k, hk, hkm⟩
        · exact Or.inr rfl
        · rw [SuperOf, hsuper] at hk
          cases hk
          exact Or.inl ⟨m, rfl, hkm⟩

theorem mem_interfaces (h : AllTablesInv classes w) (hwf : WellFormed classes) (x : ClassId)
    (n : Nat) : w.SetUp (.ordinary n) → (x ∈ (w.cd (.ordinary n)).interfaces ↔
      ∃ m, x = .ordinary m ∧ classes.isInterface m = true ∧
        ReflTransGen (typeHierarchy classes).direct n m) := by
  induction n using Nat.strong_induction_on with
  | _ n ih =>
    intro hs
    rw [(h.tables _ hs).interfaces]
    constructor
    · rintro (⟨hi, rfl⟩ | ⟨-, s, hmem, hx⟩)
      · exact ⟨n, rfl, hi, .refl⟩
      · have hset := (h.tables _ hs).supers s hmem
        obtain ⟨k, rfl, hk⟩ := mem_supersOf_iff.mp hmem
        obtain ⟨m, rfl, hi, hm⟩ := (ih k (direct_lt hk) hset).mp hx
        exact ⟨m, rfl, hi, hm.head hk⟩
    · rintro ⟨m, rfl, hi, hm⟩
      rcases hm.cases_head with rfl | ⟨k, hk, hkm⟩
      · exact Or.inl ⟨hi, rfl⟩
      · have hmem := mem_supersOf_iff.mpr ⟨k, rfl, hk⟩
        refine Or.inr ⟨fun hnone => ?_, .ordinary k, hmem, ?_⟩
        · have hn : classes.superClass n = none := by
            simpa [Classes.superOf] using hnone
          obtain rfl := hwf.root.mp hn
          rcases hk with hk | hk
          · rw [hn] at hk
            cases hk
          · rw [hwf.object_interfaces] at hk
            cases hk
        · exact (ih k (direct_lt hk) ((h.tables _ hs).supers _ hmem)).mpr ⟨m, rfl, hi, hkm⟩

/-- The display of a superclass begins the display. -/
theorem hierarchy_prefix (h : AllTablesInv classes w) (n : Nat) : w.SetUp (.ordinary n) →
    ∀ x ∈ (w.cd (.ordinary n)).hierarchy,
      (w.cd x).hierarchy <+: (w.cd (.ordinary n)).hierarchy := by
  induction n using Nat.strong_induction_on with
  | _ n ih =>
    intro hs x hx
    have hh := (h.tables _ hs).hierarchy
    rw [hh, List.mem_append, List.mem_singleton] at hx
    rcases hx with hx | rfl
    · cases hsuper : classes.superClass n with
      | none => simp [Classes.superOf, hsuper] at hx
      | some s =>
        have hsup : classes.superOf (.ordinary n) = some (.ordinary s) := by
          simp [Classes.superOf, hsuper]
        have hset := (h.tables _ hs).supers (.ordinary s) (by simp [supersOf, hsup])
        rw [hsup, Option.elim_some] at hx hh
        rw [hh]
        exact (ih s (classes.super_lt hsuper) hset x hx).trans (List.prefix_append _ _)
    · exact List.prefix_rfl

/-- The display holds a superclass where its own display ends. -/
theorem instanceofSuper_iff (h : AllTablesInv classes w) (hc : w.SetUp c)
    (hd : w.SetUp (.ordinary m)) :
    instanceofSuper w c (.ordinary m) = true ↔ .ordinary m ∈ (w.cd c).hierarchy := by
  obtain ⟨l, hl⟩ : ∃ l, (w.cd (.ordinary m)).hierarchy = l ++ [.ordinary m] :=
    ⟨_, (h.tables _ hd).hierarchy⟩
  have hprefix : .ordinary m ∈ (w.cd c).hierarchy →
      (w.cd (.ordinary m)).hierarchy <+: (w.cd c).hierarchy := by
    intro hmem
    obtain ⟨e, _ | d⟩ := c
    · cases e with
      | ordinary n => exact h.hierarchy_prefix n hc _ hmem
      | primitive k =>
        have := (h.tables _ hc).hierarchy
        rw [this] at hmem
        simp [Classes.superOf] at hmem
    · have hh := (h.tables _ hc).hierarchy
      have hsup := superOf_array classes ⟨e, d⟩
      have hset := (h.tables _ hc).supers (.ordinary classes.object) (by
        simp [supersOf, show classes.superOf ⟨e, d + 1⟩ = _ from hsup])
      rw [show classes.superOf ⟨e, d + 1⟩ = _ from hsup, Option.elim_some] at hh
      rw [hh, List.mem_append, List.mem_singleton] at hmem
      rw [hh]
      exact (h.hierarchy_prefix _ hset _ (hmem.resolve_right (by simp))).trans
        (List.prefix_append _ _)
  rw [instanceofSuper, hl]
  simp only [List.length_append, List.length_singleton, Nat.add_sub_cancel, Bool.and_eq_true,
    decide_eq_true_eq]
  constructor
  · exact fun h => List.mem_of_getElem? h.2
  · intro hmem
    obtain ⟨t, ht⟩ := hprefix hmem
    rw [← ht, hl]
    simp

end AllTablesInv

/-! ### Comparing -/

theorem removeDims_eq : ∀ (k : Nat) (o t : ClassId), k ≤ t.dimensions →
    removeDims k o t = if k ≤ o.dimensions then
      some ({ o with dimensions := o.dimensions - k }, { t with dimensions := t.dimensions - k })
      else none
  | 0, o, t, _ => rfl
  | k + 1, ⟨eo, do_⟩, ⟨et, dt⟩, h => by
    obtain ⟨dt, rfl⟩ : ∃ j, dt = j + 1 := ⟨dt - 1, by dsimp only at h; omega⟩
    cases do_ with
    | zero => simp [removeDims, ClassId.oneFewerDim]
    | succ do_ =>
      have := removeDims_eq k ⟨eo, do_⟩ ⟨et, dt⟩ (Nat.le_of_succ_le_succ h)
      simp only [removeDims, ClassId.oneFewerDim, this, Nat.add_le_add_iff_right,
        Nat.add_sub_add_right]

theorem mem_supersOf_array_iff {s : ClassId} : s ∈ supersOf classes c.array ↔
    ∃ k, s = .ordinary k ∧ (typeHierarchy classes).aboveArrays k := by
  rw [supersOf_array]
  simp only [typeHierarchy, List.mem_cons, List.not_mem_nil, or_false]
  constructor
  · rintro (rfl | rfl | rfl)
    · exact ⟨_, rfl, Or.inl rfl⟩
    · exact ⟨_, rfl, Or.inr (Or.inl rfl)⟩
    · exact ⟨_, rfl, Or.inr (Or.inr rfl)⟩
  · rintro ⟨k, rfl, rfl | rfl | rfl⟩
    · exact Or.inl rfl
    · exact Or.inr (Or.inl rfl)
    · exact Or.inr (Or.inr rfl)

/-- The comparison of a class with one that is no array. -/
theorem instanceofNormal_ordinary (h : AllTablesInv classes w) (hwf : WellFormed classes)
    (hn : w.SetUp (.ordinary n)) (hm : w.SetUp (.ordinary m)) :
    instanceofNormal classes w (.ordinary n) (.ordinary m) = true ↔
      ReflTransGen (typeHierarchy classes).direct n m := by
  rw [instanceofNormal, show classes.isInterfaceClass (.ordinary m) = classes.isInterface m from rfl]
  cases hi : classes.isInterface m with
  | true =>
    rw [if_pos rfl, instanceofInterface, Bool.or_eq_true, decide_eq_true_eq, decide_eq_true_eq,
      h.mem_interfaces hwf _ n hn]
    constructor
    · rintro (heq | ⟨k, heq, -, hle⟩)
      · cases heq
        exact .refl
      · cases heq
        exact hle
    · exact fun hle => Or.inr ⟨m, rfl, hi, hle⟩
  | false =>
    rw [if_neg Bool.false_ne_true, h.instanceofSuper_iff hn hm, h.mem_hierarchy _ n hn,
      ← hwf.superOf_iff hi]
    constructor
    · rintro ⟨k, heq, hle⟩
      cases heq
      exact hle
    · exact fun hle => ⟨m, rfl, hle⟩

/-- The comparison of an array class with one that is no array. -/
theorem instanceofNormal_array (h : AllTablesInv classes w) (hwf : WellFormed classes)
    (hc : w.SetUp c.array) (hm : w.SetUp (.ordinary m)) :
    instanceofNormal classes w c.array (.ordinary m) = true ↔
      ∃ d, (typeHierarchy classes).aboveArrays d ∧
        ReflTransGen (typeHierarchy classes).direct d m := by
  have hset : ∀ d, (typeHierarchy classes).aboveArrays d → w.SetUp (.ordinary d) := fun d hd =>
    (h.tables _ hc).supers _ (mem_supersOf_array_iff.mpr ⟨d, rfl, hd⟩)
  have hne : ClassId.ordinary m ≠ c.array := fun heq =>
    absurd (congrArg (·.dimensions) heq) (Nat.succ_ne_zero _).symm
  rw [instanceofNormal, show classes.isInterfaceClass (.ordinary m) = classes.isInterface m from rfl]
  cases hi : classes.isInterface m with
  | true =>
    rw [if_pos rfl, instanceofInterface, Bool.or_eq_true, decide_eq_true_eq, decide_eq_true_eq,
      or_iff_right hne.symm, (h.tables _ hc).interfaces, or_iff_right fun hx => hne hx.2,
      superOf_array]
    constructor
    · rintro ⟨-, s, hs, hmem⟩
      obtain ⟨d, rfl, hd⟩ := mem_supersOf_array_iff.mp hs
      obtain ⟨k, heq, -, hle⟩ := (h.mem_interfaces hwf _ d (hset d hd)).mp hmem
      cases heq
      exact ⟨d, hd, hle⟩
    · rintro ⟨d, hd, hle⟩
      exact ⟨by simp, .ordinary d, mem_supersOf_array_iff.mpr ⟨d, rfl, hd⟩,
        (h.mem_interfaces hwf _ d (hset d hd)).mpr ⟨m, rfl, hi, hle⟩⟩
  | false =>
    have hobject : (typeHierarchy classes).aboveArrays classes.object := by simp [typeHierarchy]
    rw [if_neg Bool.false_ne_true, h.instanceofSuper_iff hc hm, (h.tables _ hc).hierarchy,
      superOf_array, Option.elim_some, List.mem_append, List.mem_singleton, or_iff_left hne,
      h.mem_hierarchy _ _ (hset _ hobject)]
    constructor
    · rintro ⟨k, heq, hle⟩
      cases heq
      exact ⟨_, hobject, (hwf.superOf_iff hi).mp hle⟩
    · rintro ⟨d, hd, hle⟩
      refine ⟨m, rfl, ?_⟩
      have hm : m = classes.object := by
        rcases List.mem_cons.mp hd with rfl | hd
        · exact hwf.eq_object_of_interface hwf.arrays.1 hi hle
        rcases List.mem_cons.mp hd with rfl | hd
        · exact hwf.eq_object_of_interface hwf.arrays.2 hi hle
        · rw [List.mem_singleton.mp hd] at hle
          exact hwf.eq_object hle
      rw [hm]

theorem instanceofNormal_iff (h : AllTablesInv classes w) (hwf : WellFormed classes)
    (hc : w.SetUp c) (hk : c.kind ≠ .primitive) (hm : w.SetUp (.ordinary m)) :
    instanceofNormal classes w c (.ordinary m) = true ↔
      IsSubtype (typeHierarchy classes) (typeOf c) (.ofClass m) := by
  obtain ⟨e, _ | d⟩ := c
  · cases e with
    | primitive k => exact absurd rfl hk
    | ordinary n =>
      rw [show typeOf (.ordinary n) = JType.ofClass n from rfl, isSubtype_ofClass_iff,
        instanceofNormal_ordinary h hwf hc hm]
      constructor
      · exact fun hle => ⟨m, rfl, hle⟩
      · rintro ⟨k, heq, hle⟩
        cases heq
        exact hle
  · exact (instanceofNormal_array (c := ⟨e, d⟩) h hwf hc hm).trans isSubtype_array_ofClass_iff.symm

/-- The class of an array that is linked, with some of the dimensions left, is set up. -/
theorem TablesInvRun.setUp_of_isLinked (h : TablesInvRun classes w) {e : Element} {i k : Nat}
    (hexists : w.Exists ⟨e, k⟩) (hl : (w.state ⟨e, k⟩).isLinked = true) (hik : i ≤ k)
    (hkind : ClassId.kind ⟨e, i⟩ ≠ .primitive) : w.SetUp ⟨e, i⟩ := by
  cases e with
  | ordinary n =>
    have hchain := h.chain n
    have h0 : (w.state (.ordinary n)).isLinked = true := by
      rcases Nat.eq_zero_or_pos k with rfl | hk
      · exact hl
      · exact hchain.element k hk hexists hl
    rcases Nat.eq_zero_or_pos i with rfl | hi
    · exact h.run.inv.linked n h0 (by simp)
    · have hi' : i ≤ w.depth (.ordinary n) := hik.trans hexists
      exact hchain.setUp i hi hi' (hchain.arrays i hi hi' h0)
  | primitive p =>
    rcases Nat.eq_zero_or_pos i with rfl | hi
    · exact absurd rfl hkind
    · exact (h.primitive p i (hik.trans hexists)).2 hi

section

variable {s t : ClassId}

theorem elementType_ne_array (e : Element) (u : JType Nat TypeKind) : elementType e ≠ .array u := by
  cases e <;> simp [elementType]

theorem elementType_inj {e e' : Element} (h : elementType e = elementType e') : e = e' := by
  cases e <;> cases e' <;> simp_all [elementType]

/-- Dimensions that are removed from both sides do not matter. -/
theorem isSubtype_removeDims (h : t.dimensions ≤ s.dimensions) :
    IsSubtype (typeHierarchy classes) (typeOf s) (typeOf t) ↔
      IsSubtype (typeHierarchy classes)
        (typeOf { s with dimensions := s.dimensions - t.dimensions }) (elementType t.element) := by
  have harrays := isSubtype_arrays_iff (H := typeHierarchy classes) (s := elementType s.element)
    (t := elementType t.element) (s.dimensions - t.dimensions) t.dimensions
  rwa [Nat.sub_add_cancel h] at harrays

/-- A primitive type is a subtype of itself alone. -/
theorem isSubtype_primitive_cases {j : Nat} {e e' : Element}
    (hprim : (j = 0 ∧ ∃ k, e = .primitive k) ∨ ∃ k, e' = .primitive k)
    (h : IsSubtype (typeHierarchy classes) (.arrays j (elementType e)) (elementType e')) :
    j = 0 ∧ e = e' := by
  rcases hprim with ⟨rfl, k, rfl⟩ | ⟨k, rfl⟩
  · exact ⟨rfl, elementType_inj (isSubtype_primitive_iff.mp h).symm⟩
  · cases j with
    | zero =>
      refine ⟨rfl, ?_⟩
      cases e with
      | ordinary n =>
        obtain ⟨d, hd, -⟩ := isSubtype_ofClass_iff.mp h
        cases hd
      | primitive k' => exact elementType_inj (isSubtype_primitive_iff.mp h).symm
    | succ j => exact absurd h not_isSubtype_array_primitive

/-- Where dimensions are removed first. -/
theorem instanceof_ordinaryArray (h : TablesInvRun classes w) (hwf : WellFormed classes)
    (hs : w.Exists s) (ht : w.Exists t) (hsk : s.kind = .ordinaryArray) (htk : t.kind ≠ .ordinary)
    (hst : s ≠ t) (hsl : (w.state s).isLinked = true) (htl : (w.state t).isLinked = true) :
    instanceof classes w s t = true ↔ IsSubtype (typeHierarchy classes) (typeOf s) (typeOf t) := by
  rw [Linker.instanceof, if_neg hst, if_pos htk, if_neg (by rw [hsk]; simp), if_pos hsk,
    removeDims_eq _ _ _ le_rfl]
  by_cases hd : t.dimensions ≤ s.dimensions
  · rw [if_pos hd, isSubtype_removeDims hd, Nat.sub_self]
    dsimp only
    by_cases hprim : ClassId.kind { s with dimensions := s.dimensions - t.dimensions } = .primitive ∨
        ClassId.kind { t with dimensions := 0 } = .primitive
    · rw [if_pos hprim]
      refine iff_of_false Bool.false_ne_true fun hsub => hst ?_
      have hprim' : (s.dimensions - t.dimensions = 0 ∧ ∃ k, s.element = .primitive k) ∨
          ∃ k, t.element = .primitive k := by
        refine hprim.imp (fun hk => ?_) fun hk => ?_
        · obtain ⟨k, hk⟩ := eq_of_kind_primitive hk
          exact ⟨congrArg (·.dimensions) hk, k, congrArg (·.element) hk⟩
        · obtain ⟨k, hk⟩ := eq_of_kind_primitive hk
          exact ⟨k, congrArg (·.element) hk⟩
      obtain ⟨hj, he⟩ := isSubtype_primitive_cases hprim' hsub
      have hdims : s.dimensions = t.dimensions := by omega
      cases s
      cases t
      cases he
      cases hdims
      rfl
    · rw [if_neg hprim]
      obtain ⟨hp₁, hp₂⟩ := not_or.mp hprim
      have hc := h.setUp_of_isLinked (i := s.dimensions - t.dimensions) hs hsl (Nat.sub_le _ _) hp₁
      obtain ⟨⟨m⟩ | ⟨k⟩, d⟩ := t
      · exact instanceofNormal_iff h.run.inv.toAllTablesInv hwf hc hp₁
          (h.setUp_of_isLinked (i := 0) ht htl (Nat.zero_le _) hp₂)
      · exact absurd rfl hp₂
  · rw [if_neg hd]
    exact iff_of_false Bool.false_ne_true
      (not_isSubtype_arrays_of_lt (elementType_ne_array _) (not_le.mp hd))

theorem dimensions_pos (htk : t.kind ≠ .ordinary) (htk' : t.kind ≠ .primitive) :
    ∃ d, t = ClassId.array ⟨t.element, d⟩ := by
  obtain ⟨⟨n⟩ | ⟨k⟩, _ | d⟩ := t
  · exact absurd rfl htk
  · exact ⟨d, rfl⟩
  · exact absurd rfl htk'
  · exact ⟨d, rfl⟩

/-- Arrays of one dimension of a primitive type. -/
theorem instanceof_primitiveArray (classes : Classes) (w : World) {k : TypeKind}
    (htk : t.kind ≠ .ordinary) (htk' : t.kind ≠ .primitive) (hst : ⟨.primitive k, 1⟩ ≠ t) :
    ¬ IsSubtype (typeHierarchy classes) (typeOf ⟨.primitive k, 1⟩) (typeOf t) ∧
      (instanceof classes w ⟨.primitive k, 1⟩ t = true ↔
        k = .boolean ∧ ∃ n, t = ⟨.ordinary n, 1⟩) := by
  obtain ⟨d, ht⟩ := dimensions_pos htk htk'
  constructor
  · rw [ht]
    intro hsub
    have heq := isSubtype_primitive_iff.mp (isSubtype_array_array_iff.mp hsub)
    cases d with
    | zero =>
      refine hst (ht.trans ?_).symm
      rw [show t.element = .primitive k from elementType_inj heq]
    | succ d => cases heq
  · rw [Linker.instanceof, if_neg hst, if_pos htk, if_neg (by simp [ClassId.kind]),
      if_neg (by simp [ClassId.kind]), Bool.and_eq_true, decide_eq_true_eq, decide_eq_true_eq]
    obtain ⟨⟨n⟩ | ⟨k'⟩, i⟩ := t
    · constructor
      · rintro ⟨rfl, hk⟩
        exact ⟨hk.symm, n, rfl⟩
      · rintro ⟨rfl, m, hm⟩
        cases hm
        exact ⟨rfl, rfl⟩
    · constructor
      · rintro ⟨hi, hk⟩
        have hi : i = 1 := hi
        have hk : k' = k := hk
        subst hi hk
        exact absurd rfl hst
      · rintro ⟨-, m, hm⟩
        cases hm

end

/-- Between types that are linked `instanceof` is the subtype relation, but for arrays of booleans
and the arrays of one dimension of classes. -/
theorem TablesInvRun.instanceof_iff (h : TablesInvRun classes w) (hwf : WellFormed classes)
    {s t : ClassId} (hs : w.Exists s) (ht : w.Exists t) (hsk : s.kind ≠ .primitive)
    (htk : t.kind ≠ .primitive) (hsl : (w.state s).isLinked = true)
    (htl : (w.state t).isLinked = true) :
    (instanceof classes w s t = true ↔
      IsSubtype (typeHierarchy classes) (typeOf s) (typeOf t)) ↔
    ¬ (s = ⟨.primitive .boolean, 1⟩ ∧ ∃ n, t = ⟨.ordinary n, 1⟩) := by
  rcases eq_or_ne s t with rfl | hst
  · refine iff_of_true (iff_of_true (if_pos rfl) (.refl _)) ?_
    rintro ⟨rfl, n, hn⟩
    cases hn
  by_cases hto : t.kind = .ordinary
  · have ht' : ∃ m, t = .ordinary m := by
      obtain ⟨⟨m⟩ | ⟨k⟩, _ | _ | d⟩ := t <;> cases hto
      exact ⟨m, rfl⟩
    obtain ⟨m, rfl⟩ := ht'
    refine iff_of_true ?_ fun hb => by
      obtain ⟨-, n, hn⟩ := hb
      cases hn
    rw [Linker.instanceof, if_neg hst, if_neg (not_not.mpr hto)]
    exact instanceofNormal_iff h.run.inv.toAllTablesInv hwf
      (h.setUp_of_isLinked hs hsl le_rfl hsk) hsk (h.setUp_of_isLinked ht htl le_rfl htk)
  cases hk : s.kind with
  | primitive => exact absurd hk hsk
  | ordinary =>
    obtain ⟨d, ht'⟩ := dimensions_pos hto htk
    have hs0 : s.dimensions = 0 := by
      obtain ⟨⟨n⟩ | ⟨k⟩, _ | _ | d⟩ := s <;> cases hk
      rfl
    refine iff_of_true (iff_of_false ?_ ?_) ?_
    · rw [Linker.instanceof, if_neg hst, if_pos hto, if_pos hk]
      exact Bool.false_ne_true
    · refine not_isSubtype_arrays_of_lt (elementType_ne_array _) ?_
      rw [hs0, ht']
      exact Nat.succ_pos _
    · rintro ⟨rfl, -⟩
      cases hk
  | ordinaryArray =>
    refine iff_of_true (instanceof_ordinaryArray h hwf hs ht hk hto hst hsl htl) ?_
    rintro ⟨rfl, -⟩
    cases hk
  | primitiveArray =>
    have hs' : ∃ k, s = ⟨.primitive k, 1⟩ := by
      obtain ⟨⟨n⟩ | ⟨k⟩, _ | _ | d⟩ := s <;> cases hk
      exact ⟨k, rfl⟩
    obtain ⟨k, rfl⟩ := hs'
    obtain ⟨hsub, hiff⟩ := instanceof_primitiveArray classes w hto htk hst
    rw [hiff, iff_false_right hsub]
    simp

theorem instanceof_iff_of_run (hwf : WellFormed classes)
    (run : Run classes (TablesStep classes) w) {s t : ClassId} (hs : w.Exists s) (ht : w.Exists t)
    (hsk : s.kind ≠ .primitive) (htk : t.kind ≠ .primitive)
    (hsl : (w.state s).isLinked = true) (htl : (w.state t).isLinked = true) :
    (instanceof classes w s t = true ↔
      IsSubtype (typeHierarchy classes) (typeOf s) (typeOf t)) ↔
    ¬ (s = ⟨.primitive .boolean, 1⟩ ∧ ∃ n, t = ⟨.ordinary n, 1⟩) :=
  (TablesInvRun.of_run run).instanceof_iff hwf hs ht hsk htk hsl htl

theorem wellFormed_sampleClasses : WellFormed sampleClasses where
  interface_flag h := nomatch h
  interface_super {n} h := by
    have : n = 1 ∨ n = 2 := by simpa [sampleClasses] using h
    rcases this with rfl | rfl <;> rfl
  root {n} := by
    simp only [sampleClasses]
    split_ifs <;> simp_all
  object_interfaces := rfl
  arrays := ⟨rfl, rfl⟩

/-- A class and its superclass can be linked. -/
theorem run_sampleClasses : ∃ w, Run sampleClasses (TablesStep sampleClasses) w ∧
    w.Exists (.ordinary 3) ∧ w.Exists (.ordinary 0) ∧
    (w.state (.ordinary 3)).isLinked = true ∧ (w.state (.ordinary 0)).isLinked = true := by
  obtain ⟨w, hw⟩ : ∃ w, (Op.link (.ordinary 3)).apply sampleClasses 5 .start = some w := ⟨_, rfl⟩
  have run : Run sampleClasses (TablesStep sampleClasses) w := by
    refine .step 5 .start hw ⟨⟨?_, fun h => nomatch h⟩, fun _ _ _ => Or.inl rfl⟩
    have hlog : w.log = [.returned (.ordinary 3) false, .returned (.ordinary 0) false,
        .entered (.ordinary 0), .entered (.ordinary 3)] := by
      cases hw
      rfl
    rw [NotRetried, hlog]
    simp
  refine ⟨w, run, ?_⟩
  cases hw
  exact ⟨Nat.zero_le _, Nat.zero_le _, rfl, rfl⟩

/-- A class and its superclass. -/
theorem instanceof_sample : ∃ w, Run sampleClasses (TablesStep sampleClasses) w ∧
    ((instanceof sampleClasses w (.ordinary 3) (.ordinary 0) = true ↔
      IsSubtype (typeHierarchy sampleClasses) (typeOf (.ordinary 3)) (typeOf (.ordinary 0))) ↔
    ¬ (ClassId.ordinary 3 = ⟨.primitive .boolean, 1⟩ ∧
      ∃ n, ClassId.ordinary 0 = ⟨.ordinary n, 1⟩)) := by
  obtain ⟨w, run, hs, ht, hsl, htl⟩ := run_sampleClasses
  exact ⟨w, run, instanceof_iff_of_run wellFormed_sampleClasses run hs ht (by decide) (by decide)
    hsl htl⟩

/-- An array of booleans passes for an array of objects. -/
theorem booleans_instanceof_objects : ∃ w, Run sampleClasses (fun _ _ _ => True) w ∧
    w.state ⟨.primitive .boolean, 1⟩ = .initialized ∧ w.state ⟨.ordinary 0, 1⟩ = .linked ∧
    instanceof sampleClasses w ⟨.primitive .boolean, 1⟩ ⟨.ordinary 0, 1⟩ = true ∧
    ¬ IsSubtype (typeHierarchy sampleClasses) (typeOf ⟨.primitive .boolean, 1⟩)
      (typeOf ⟨.ordinary 0, 1⟩) := by
  obtain ⟨w, hw⟩ : ∃ w, applyAll sampleClasses 5 [.link (.ordinary 0), .link (.ordinary 1),
    .link (.ordinary 2), .getOrCreateArray ⟨.primitive .boolean, 0⟩,
    .getOrCreateArray (.ordinary 0)] .start = some w := ⟨_, rfl⟩
  refine ⟨w, run_applyAll .start hw, ?_⟩
  cases hw
  refine ⟨rfl, rfl, rfl, fun h => ?_⟩
  have heq := isSubtype_primitive_iff.mp (isSubtype_array_array_iff.mp h)
  cases heq

end BJvm.Linker
