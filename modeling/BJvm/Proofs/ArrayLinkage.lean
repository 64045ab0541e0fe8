import BJvm.Proofs.LinkRuns

/-!
# Array classes and their element

An array class that is made while its element is only loaded, and is the only one when that element
is linked, is set up once and has the element's state (`arraysKept_of_run`).  Made later it gets its
display twice, and of two array classes the second is marked as linked without any tables
(`twoDimensions_notSetUp`).
-/

namespace BJvm.Linker

variable {classes : Classes} {w w' : World} {c : ClassId} {n m : Nat} {op : Op}

/-- Every array class has the state of its element, and one that is linked has its display and its
tables set up exactly once. -/
structure ArraysKept (w : World) : Prop where
  state : ∀ {e : Element} {k : Nat}, 0 < k → k ≤ w.depth e → w.state ⟨e, k⟩ = w.state ⟨e, 0⟩
  setUpOnce : ∀ {e : Element} {k : Nat}, 0 < k → k ≤ w.depth e → (w.state ⟨e, k⟩).isLinked →
    (w.cd ⟨e, k⟩).hierarchySetups = 1 ∧ (w.cd ⟨e, k⟩).tableSetups = 1

/-- A class gets linked while it has no array class, or only that of one dimension and linking it
succeeds. -/
def LinkedAlone (w w' : World) : Prop :=
  ∀ n, w.state (.ordinary n) = .loaded → w'.state (.ordinary n) ≠ .loaded →
    w.depth (.ordinary n) = 0 ∨
      (w.depth (.ordinary n) = 1 ∧ w'.state (.ordinary n) ≠ .linkageError)

/-- The steps that keep array classes in step with their element. -/
structure InStep (w : World) (op : Op) (w' : World) : Prop where
  /-- Array classes are made while their component is not linked, or for a primitive type. -/
  created : ∀ {c : ClassId}, op = .getOrCreateArray c → w.arrayType c = none →
    (w.state c).isLinked = false ∨ c.kind = .primitive
  /-- An array class is not the one that `link_class` is asked to link. -/
  asked : ∀ {c : ClassId}, op = .link c → 0 < c.dimensions → w.state c ≠ .loaded
  linked : LinkedAlone w w'
  /-- The initialization of a class starts while it has no array class. -/
  initialized : ∀ n, w.state (.ordinary n) ≠ .initializing →
    w'.state (.ordinary n) = .initializing → w.depth (.ordinary n) = 0

/-- What holds of a chain of `depth` array classes. -/
structure ChainInv (depth : Nat) (c : Nat → Classdesc) : Prop where
  state : ∀ k, 0 < k → k ≤ depth → (c k).state = (c 0).state
  setups : ∀ k, 0 < k → k ≤ depth →
    (c k).hierarchySetups = (if (c 0).state.isLinked then 1 else 0) ∧
      (c k).tableSetups = if (c 0).state.isLinked then 1 else 0
  initializing : (c 0).state = .initializing → depth = 0

namespace ChainInv

variable {depth : Nat} {c₁ c₂ : Nat → Classdesc}

theorem of_depth_zero (c : Nat → Classdesc) : ChainInv 0 c where
  state _ h h' := absurd h (by omega)
  setups _ h h' := absurd h (by omega)
  initializing _ := rfl

/-- Linking keeps the chain of an element in step. -/
theorem chainEffect (h : ChainInv depth c₁) (he : ChainEffect depth c₁ c₂)
    (hd : (c₁ 0).state = .loaded → (c₂ 0).state ≠ .loaded →
      depth = 0 ∨ (depth = 1 ∧ (c₂ 0).state ≠ .linkageError)) : ChainInv depth c₂ := by
  have hchanged : (c₁ 0).state = .loaded → (c₂ 0).state = .linked ∨ (c₂ 0).state = .linkageError →
      depth = 0 ∨ (depth = 1 ∧ (c₂ 0).state = .linked) := fun hs h2 => by
    refine (hd hs (by rcases h2 with h | h <;> simp [h])).imp id fun h => ⟨h.1, ?_⟩
    exact h2.resolve_right h.2
  cases he with
  | same => exact h
  | alone hs hs' _ hk =>
    rcases hchanged hs (hs'.symm.imp And.left id) with rfl | ⟨rfl, h2⟩
    · exact of_depth_zero c₂
    · rcases hs' with h' | ⟨-, h' | h'⟩
      · simp [h'] at h2
      · cases h'
      · rw [h.state 1 Nat.one_pos le_rfl, hs] at h'
        cases h'
  | withArrays hs hs' _ hd' hl hl' hh ht hk =>
    rcases hchanged hs hs' with rfl | ⟨rfl, h2⟩
    · exact of_depth_zero c₂
    · have h1 := h.setups 1 Nat.one_pos le_rfl
      simp only [hs, State.isLinked, Bool.false_eq_true, if_false] at h1
      refine ⟨?_, ?_, fun h => by simp [h2] at h⟩
      · rintro k hk0 hk1
        obtain rfl : k = 1 := by omega
        rw [hl', h2]
      · rintro k hk0 hk1
        obtain rfl : k = 1 := by omega
        rw [hh, ht, h1.1, h1.2, h2]
        exact ⟨rfl, rfl⟩

/-- A class that starts or ends its initialization has no array classes. -/
theorem of_depth_eq_zero (h : depth = 0) : ChainInv depth c₂ := h ▸ of_depth_zero c₂

/-- One array class more, over a component that is not linked. -/
theorem create (h : ChainInv depth c₁) (hlinked : (c₁ depth).state.isLinked = false)
    (hk : ∀ k, k ≤ depth → c₂ k = c₁ k)
    (hlast : c₂ (depth + 1) = { state := (c₁ depth).state }) : ChainInv (depth + 1) c₂ := by
  have h0 : (c₁ depth).state = (c₁ 0).state := by
    rcases Nat.eq_zero_or_pos depth with rfl | hd
    · rfl
    · exact h.state depth hd le_rfl
  have h20 : c₂ 0 = c₁ 0 := hk 0 (Nat.zero_le _)
  rw [h0] at hlinked hlast
  refine ⟨fun k hk0 hk1 => ?_, fun k hk0 hk1 => ?_, fun hi => ?_⟩
  · rcases Nat.lt_or_ge depth k with hlt | hle
    · obtain rfl : k = depth + 1 := by omega
      rw [hlast, h20]
    · rw [hk k hle, h20]
      exact h.state k hk0 hle
  · rw [h20]
    rcases Nat.lt_or_ge depth k with hlt | hle
    · obtain rfl : k = depth + 1 := by omega
      rw [hlast, hlinked]
      exact ⟨rfl, rfl⟩
    · rw [hk k hle]
      exact h.setups k hk0 hle
  · rw [h20] at hi
    rw [hi] at hlinked
    cases hlinked

end ChainInv

/-- Every chain is in step, and primitive types are initialized. -/
structure ArrayInv (w : World) : Prop where
  chain : ∀ e, ChainInv (w.depth e) (w.chain e)
  primitive : ∀ k, (w.chain (.primitive k) 0).state = .initialized

theorem ArrayInv.kept (h : ArrayInv w) : ArraysKept w where
  state hk hd := (h.chain _).state _ hk hd
  setUpOnce {e k} hk hd hl := by
    have hs := (h.chain e).state k hk hd
    have hc := (h.chain e).setups k hk hd
    rw [World.state, ← World.chain] at hl
    rw [← hs, hl] at hc
    exact hc

theorem ArrayInv.of_cd (h : ArrayInv w) (hd : w'.depth = w.depth) (hcd : w'.cd = w.cd) :
    ArrayInv w' := by
  have hc : ∀ e, w'.chain e = w.chain e := fun e => funext fun k => congrFun hcd _
  exact ⟨fun e => by rw [hd, hc]; exact h.chain e, fun k => by rw [hc]; exact h.primitive k⟩

theorem ArrayInv.linkClass {f : Nat} {r : Bool} (h : ArrayInv w)
    (hl : linkClass classes f w (.ordinary n) = some (r, w')) (hd : LinkedAlone w w') :
    ArrayInv w' := by
  have hlinks := links_of_linkClass hl
  refine ⟨fun e => ?_, fun k => ?_⟩
  · cases e with
    | ordinary m =>
      rw [hlinks.depth_eq]
      exact (h.chain _).chainEffect (hlinks.chainEffect m) (hd m)
    | primitive k =>
      have hc : w'.chain (.primitive k) = w.chain (.primitive k) :=
        funext fun i => hlinks.untouched (fun _ h => by cases h) i
      rw [hlinks.depth_eq, hc]
      exact h.chain _
  · rw [← h.primitive k]
    exact congrArg (·.state) (hlinks.untouched (e := .primitive k) (fun _ h => by cases h) 0)

/-- A class that is loaded only is an ordinary class, or an array class. -/
theorem ArrayInv.ordinary_of_loaded (h : ArrayInv w) (hs : w.state c = .loaded)
    (hd : c.dimensions = 0) : ∃ n, c = .ordinary n := by
  obtain ⟨⟨n⟩ | ⟨k⟩, d⟩ := c
  · cases hd
    exact ⟨n, rfl⟩
  · cases hd
    have hp := h.primitive k
    rw [World.chain, ← World.state, hs] at hp
    cases hp

theorem ArrayInv.link {f : Nat} {r : Bool} (h : ArrayInv w)
    (hl : Linker.linkClass classes f w c = some (r, w')) (ha : 0 < c.dimensions → w.state c ≠ .loaded)
    (hd : LinkedAlone w w') : ArrayInv w' := by
  rcases eq_or_ne (w.state c) .loaded with hs | hs
  · obtain ⟨n, rfl⟩ := h.ordinary_of_loaded hs (by
      by_contra hc
      exact ha (Nat.pos_of_ne_zero hc) hs)
    exact h.linkClass hl hd
  · cases f with
    | zero => cases hl
    | succ f =>
      rw [linkClass_of_ne_loaded hs] at hl
      cases hl
      exact h.of_cd rfl rfl

/-- Writing the state of one class that has no array classes. -/
theorem ArrayInv.setState {s : State} (h : ArrayInv w) (hd : w.depth (.ordinary n) = 0) :
    ArrayInv (w.setState (.ordinary n) s) := by
  refine ⟨fun e => ?_, fun k => ?_⟩
  · rcases eq_or_ne e (.ordinary n) with rfl | he
    · exact .of_depth_eq_zero hd
    · rw [chain_setState (by exact he)]
      exact h.chain e
  · rw [chain_setState (by simp)]
    exact h.primitive k

theorem ArrayInv.initializeClass {f : Nat} (h : ArrayInv w)
    (hl : Linker.initializeClass classes f w n = some w') (hd : LinkedAlone w w')
    (hi : w.state (.ordinary n) ≠ .initializing → w'.state (.ordinary n) = .initializing →
      w.depth (.ordinary n) = 0) : ArrayInv w' := by
  cases initializeStep hl with
  | returns => exact h
  | starts _ idle => exact h.setState (hi idle (by simp))
  | links _ hx => exact h.linkClass hx hd
  | @linksAndStarts x unlinked hx =>
    have hdepth := hi (fun h => unlinked (by rw [h]; rfl)) (by simp)
    refine (h.linkClass hx fun m hm hm' => ?_).setState ((links_of_linkClass hx).depth_eq ▸ hdepth)
    rcases eq_or_ne m n with rfl | hmn
    · exact Or.inl hdepth
    · have hm'' : (x.setState (.ordinary n) .initializing).state (.ordinary m) =
          x.state (.ordinary m) := by simp [hmn]
      exact hm'' ▸ hd m hm (by rwa [hm''])

/-- One array class more. -/
theorem ArrayInv.push {x : World} (h : ArrayInv w)
    (hw' : w' = { x with depth := Function.update w.depth c.element (c.dimensions + 1) })
    (hx : ∀ d, d ≠ c.array → x.cd d = w.cd d)
    (hc : ChainInv (c.dimensions + 1) (x.chain c.element)) : ArrayInv w' := by
  have hchain : w'.chain = x.chain := by
    subst hw'
    rfl
  refine ⟨fun e => ?_, fun k => ?_⟩
  · rw [hchain, hw']
    rcases eq_or_ne e c.element with rfl | he
    · simpa using hc
    · have hxe : x.chain e = w.chain e :=
        funext fun k => hx _ fun h => he (congrArg (·.element) h)
      simp only [Function.update_of_ne he, hxe]
      exact h.chain e
  · rw [hchain, World.chain, hx _ fun h => absurd (congrArg (·.dimensions) h) (by simp)]
    exact h.primitive k

theorem ArrayInv.create (h : ArrayInv w) (hl : Created classes w c w')
    (hc : w.depth c.element = c.dimensions → (w.state c).isLinked = false ∨ c.kind = .primitive) :
    ArrayInv w' := by
  have hchain := h.chain c.element
  cases hl with
  | existing => exact h
  | @primitive k hk hd =>
    subst hk
    have hne : ∀ {d : ClassId}, d ≠ ClassId.array ⟨.primitive k, 0⟩ →
        (((w.withArray ⟨.primitive k, 0⟩ .initialized).setupSuperHierarchy classes
          (ClassId.array ⟨.primitive k, 0⟩)).setUpFunctionTables classes
            (ClassId.array ⟨.primitive k, 0⟩)).cd d = w.cd d := fun h => by
      rw [cd_setUpFunctionTables_of_ne _ _ _ _ h, cd_setupSuperHierarchy_of_ne _ _ _ _ h,
        cd_withArray h]
    have h0 := (congrArg (·.state) (hne (array_ne _))).trans (h.primitive k)
    have h1 := cd_setUp classes (w.withArray ⟨.primitive k, 0⟩ .initialized)
      (ClassId.array ⟨.primitive k, 0⟩) (superOf_array classes ⟨.primitive k, 0⟩)
    rw [World.state, cd_withArray_self] at h1
    refine h.push rfl (fun d => hne) ?_
    refine ⟨fun i hi0 hi1 => ?_, fun i hi0 hi1 => ?_, fun hi => ?_⟩
    · obtain rfl : i = 1 := le_antisymm hi1 hi0
      exact (congrArg (·.state) h1).trans h0.symm
    · obtain rfl : i = 1 := le_antisymm hi1 hi0
      rw [World.chain, World.chain, h0]
      exact ⟨congrArg (·.hierarchySetups) h1, congrArg (·.tableSetups) h1⟩
    · exact absurd (h0.symm.trans hi) (by simp)
  | unlinked hk hd hlinked =>
    rw [hd] at hchain
    refine h.push rfl (fun d => cd_withArray) (hchain.create hlinked (fun k hk => ?_) ?_)
    · refine cd_withArray fun h => ?_
      have := congrArg (·.dimensions) h
      dsimp only at this
      omega
    · exact cd_withArray_self
  | linked hk hd hlinked =>
    rcases hc hd with h' | h'
    · rw [hlinked] at h'
      cases h'
    · exact absurd h' hk

theorem ArrayInv.finishInitialization {error : Bool} (h : ArrayInv w)
    (hs : w.state (.ordinary n) = .initializing) :
    ArrayInv (Linker.finishInitialization w n error) := by
  have hd := (h.chain (.ordinary n)).initializing hs
  unfold Linker.finishInitialization
  generalize (if error then State.linkageError else State.initialized) = s
  refine (h.setState (s := s) hd).of_cd rfl (funext fun d => ?_)
  rw [cd_setArrayStates, if_neg]
  · rfl
  · rintro ⟨-, h0, h1⟩
    rw [depth_setState, hd] at h1
    omega

theorem ArrayInv.start : ArrayInv .start :=
  ⟨fun _ => .of_depth_zero _, fun _ => rfl⟩

theorem ArrayInv.apply {f : Nat} (h : ArrayInv w) (ha : op.apply classes f w = some w')
    (hp : InStep w op w') : ArrayInv w' := by
  cases op with
  | link c =>
    simp only [Op.apply] at ha
    split_ifs at ha with he
    obtain ⟨⟨r, x⟩, hx, rfl⟩ := Option.map_eq_some_iff.mp ha
    exact h.link hx (hp.asked rfl) hp.linked
  | getOrCreateArray c =>
    simp only [Op.apply] at ha
    split_ifs at ha with he
    exact h.create (created_of_getOrCreate he ha) fun hd => hp.created rfl (by simp [World.arrayType, hd])
  | initializeClass n => exact h.initializeClass ha hp.linked (hp.initialized n)
  | finishInitialization n error =>
    simp only [Op.apply] at ha
    split_ifs at ha with hs
    cases ha
    exact h.finishInitialization hs

theorem arraysKept_of_run (run : Run classes InStep w) : ArraysKept w := by
  have hinv : ArrayInv w := by
    induction run with
    | start => exact .start
    | step fuel _ ha hp ih => exact ih.apply ha hp
  exact hinv.kept

/-- A class that is linked while it has an array class of one dimension. -/
theorem arraysKept_sample : ∃ w, Run sampleClasses InStep w ∧
    w.state ⟨.ordinary 3, 1⟩ = .linked ∧ ArraysKept w := by
  obtain ⟨w₁, h₁⟩ : ∃ w₁, (Op.getOrCreateArray (.ordinary 3)).apply sampleClasses 5 .start =
    some w₁ := ⟨_, rfl⟩
  obtain ⟨w₂, h₂⟩ : ∃ w₂, (Op.link (.ordinary 3)).apply sampleClasses 5 w₁ = some w₂ := by
    cases h₁
    exact ⟨_, rfl⟩
  have run₁ : Run sampleClasses InStep w₁ := by
    refine .step 5 .start h₁ ⟨?_, ?_, fun _ _ _ => Or.inl rfl, fun _ _ _ => rfl⟩
    · rintro c ⟨⟩ -
      exact Or.inl rfl
    · rintro c ⟨⟩
  have hdepth : ∀ n, n ≠ 3 → w₁.depth (.ordinary n) = 0 := by
    intro n hn
    cases h₁
    exact Function.update_of_ne (by simp [hn]) ..
  have run₂ : Run sampleClasses InStep w₂ := by
    refine .step 5 run₁ h₂ ⟨?_, ?_, fun n _ _ => ?_, fun n _ hi => ?_⟩
    · rintro c ⟨⟩
    · rintro c ⟨⟩ hc
      cases hc
    · rcases eq_or_ne n 3 with rfl | hn
      · cases h₁
        cases h₂
        exact Or.inr ⟨rfl, by decide⟩
      · exact Or.inl (hdepth n hn)
    · rcases eq_or_ne n 3 with rfl | hn
      · cases h₁
        cases h₂
        cases hi
      · exact hdepth n hn
  refine ⟨w₂, run₂, ?_, arraysKept_of_run run₂⟩
  cases h₁
  cases h₂
  rfl

/-- Of two array classes, the second is left without tables when their element is linked. -/
theorem twoDimensions_notSetUp : ∃ w, Run sampleClasses (fun _ _ _ => True) w ∧
    w.state ⟨.ordinary 3, 2⟩ = .linked ∧ (w.cd ⟨.ordinary 3, 2⟩).hierarchySetups = 0 ∧
    (w.cd ⟨.ordinary 3, 2⟩).tableSetups = 0 ∧ ¬ ArraysKept w := by
  obtain ⟨w, hw⟩ : ∃ w, applyAll sampleClasses 5 [.getOrCreateArray (.ordinary 3),
    .getOrCreateArray ⟨.ordinary 3, 1⟩, .link (.ordinary 3)] .start = some w := ⟨_, rfl⟩
  refine ⟨w, run_applyAll .start hw, ?_⟩
  cases hw
  refine ⟨rfl, rfl, rfl, fun h => ?_⟩
  have := (h.setUpOnce (e := .ordinary 3) (k := 2) (by decide) (by decide) rfl).1
  cases this

end BJvm.Linker
