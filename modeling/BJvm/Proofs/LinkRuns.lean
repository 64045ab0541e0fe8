import BJvm.Linkage.ClassLinker
import Mathlib.Data.List.Basic
import Mathlib.Order.Basic
import Mathlib.Tactic.Common

/-!
# Runs of the linker
-/

namespace BJvm.Linker

variable {classes : Classes} {w w' w₁ w₂ : World} {c c' d : ClassId} {n m : Nat} {r : Bool}

/-! ### What the parts of the linker write -/

section

variable (classes) (w) (c d : ClassId) (s : State) (e : Element) (call : Call)

@[simp] theorem depth_setState : (w.setState c s).depth = w.depth := rfl
@[simp] theorem depth_setArrayStates : (w.setArrayStates e s).depth = w.depth := rfl
@[simp] theorem depth_setupSuperHierarchy : (w.setupSuperHierarchy classes c).depth = w.depth := rfl
@[simp] theorem depth_setUpFunctionTables : (w.setUpFunctionTables classes c).depth = w.depth := rfl
@[simp] theorem depth_record : (w.record call).depth = w.depth := rfl

@[simp] theorem log_setState : (w.setState c s).log = w.log := rfl
@[simp] theorem log_setArrayStates : (w.setArrayStates e s).log = w.log := rfl
@[simp] theorem log_setupSuperHierarchy : (w.setupSuperHierarchy classes c).log = w.log := rfl
@[simp] theorem log_setUpFunctionTables : (w.setUpFunctionTables classes c).log = w.log := rfl
@[simp] theorem log_record : (w.record call).log = call :: w.log := rfl

@[simp] theorem cd_record : (w.record call).cd = w.cd := rfl
@[simp] theorem state_record : (w.record call).state d = w.state d := rfl

theorem cd_setState :
    (w.setState c s).cd d = { w.cd d with state := if d = c then s else w.state d } := by
  simp only [World.setState, Function.update_apply]
  split_ifs with h
  · rw [h]
  · rfl

theorem cd_setState_of_ne (h : d ≠ c) : (w.setState c s).cd d = w.cd d :=
  Function.update_of_ne h ..

theorem cd_setArrayStates :
    (w.setArrayStates e s).cd d = { w.cd d with
      state := if d.element = e ∧ 0 < d.dimensions ∧ d.dimensions ≤ w.depth e then s
        else w.state d } := by
  simp only [World.setArrayStates]
  split_ifs <;> rfl

theorem cd_setupSuperHierarchy_of_ne (h : d ≠ c) :
    (w.setupSuperHierarchy classes c).cd d = w.cd d := Function.update_of_ne h ..

theorem cd_setUpFunctionTables_of_ne (h : d ≠ c) :
    (w.setUpFunctionTables classes c).cd d = w.cd d := Function.update_of_ne h ..

@[simp] theorem state_setState :
    (w.setState c s).state d = if d = c then s else w.state d := by
  rw [World.state, cd_setState]

@[simp] theorem state_setArrayStates :
    (w.setArrayStates e s).state d =
      if d.element = e ∧ 0 < d.dimensions ∧ d.dimensions ≤ w.depth e then s else w.state d := by
  rw [World.state, cd_setArrayStates]

@[simp] theorem state_setupSuperHierarchy :
    (w.setupSuperHierarchy classes c).state d = w.state d := by
  rcases eq_or_ne d c with rfl | h
  · simp [World.state, World.setupSuperHierarchy]
  · rw [World.state, cd_setupSuperHierarchy_of_ne _ _ _ _ h]
    rfl

@[simp] theorem state_setUpFunctionTables :
    (w.setUpFunctionTables classes c).state d = w.state d := by
  rcases eq_or_ne d c with rfl | h
  · simp [World.state, World.setUpFunctionTables]
  · rw [World.state, cd_setUpFunctionTables_of_ne _ _ _ _ h]
    rfl

/-- Whatever writes no itables changes nothing for the class that is set up next. -/
theorem setupItables_congr {super : ClassId} (h : ∀ x, (w.cd x).interfaces = (w'.cd x).interfaces) :
    w.setupItables classes super c = w'.setupItables classes super c := by
  simp only [World.setupItables, h]

@[simp] theorem interfaces_setupSuperHierarchy :
    ((w.setupSuperHierarchy classes c).cd d).interfaces = (w.cd d).interfaces := by
  rcases eq_or_ne d c with rfl | h
  · simp [World.setupSuperHierarchy]
  · rw [cd_setupSuperHierarchy_of_ne _ _ _ _ h]

/-- A class right after its tables are set up. -/
theorem cd_setUp {super : ClassId} (hsuper : classes.superOf c = some super) :
    ((w.setupSuperHierarchy classes c).setUpFunctionTables classes c).cd c =
      { state := w.state c
        hierarchy := (w.cd super).hierarchy ++ [c]
        interfaces := if classes.isInterfaceClass c then w.setupItables classes super c ++ [c]
          else w.setupItables classes super c
        hierarchySetups := (w.cd c).hierarchySetups + 1
        tableSetups := (w.cd c).tableSetups + 1 } := by
  rw [World.setUpFunctionTables]
  simp only [hsuper, Function.update_self]
  rw [setupItables_congr _ _ _ fun x => interfaces_setupSuperHierarchy classes w c x]
  simp only [World.setupSuperHierarchy, hsuper, Function.update_self]
  rfl

end

theorem superOf_array (classes : Classes) (c : ClassId) :
    classes.superOf c.array = some (.ordinary classes.object) := by
  obtain ⟨⟨n⟩ | ⟨k⟩, d⟩ := c <;> rfl

/-! ### Linking ordinary classes -/

section

variable (classes)

/-- What comes of the array classes when their element, which is not loaded only, is linked. -/
def linkArraysOf (w : World) (n : Nat) : World :=
  if w.depth (.ordinary n) = 0 ∨ (w.state (ClassId.ordinary n).array).isLinked then w
  else
    let a := (ClassId.ordinary n).array
    let w := ((w.setState a .linked).record (.entered (.ordinary n))).record
      (.returned (.ordinary n) false)
    ((w.setArrayStates (.ordinary n) .linked).setupSuperHierarchy classes a).setUpFunctionTables
      classes a

/-- `link_class` on classes that are no arrays, in order and up to one that fails. -/
inductive Links : World → List Nat → Bool → World → Prop
  | nil {w : World} : Links w [] false w
  | skip {w w' : World} {n : Nat} {ns : List Nat} {r : Bool} :
      w.state (.ordinary n) ≠ .loaded →
      Links ((w.record (.entered (.ordinary n))).record (.returned (.ordinary n) false)) ns r w' →
      Links w (n :: ns) r w'
  | superFails {w w₁ : World} {n : Nat} {ns : List Nat} :
      w.state (.ordinary n) = .loaded →
      Links (w.record (.entered (.ordinary n))) (classes.superClass n).toList true w₁ →
      Links w (n :: ns) true
        ((w₁.setState (.ordinary n) .linkageError).record (.returned (.ordinary n) true))
  | interfaceFails {w w₁ w₂ : World} {n : Nat} {ns : List Nat} :
      w.state (.ordinary n) = .loaded →
      Links (w.record (.entered (.ordinary n))) (classes.superClass n).toList false w₁ →
      Links (w₁.setupSuperHierarchy classes (.ordinary n)) (classes.interfaces n) true w₂ →
      Links w (n :: ns) true
        ((w₂.setState (.ordinary n) .linkageError).record (.returned (.ordinary n) true))
  | rejected {w w₁ w₂ : World} {n : Nat} {ns : List Nat} :
      w.state (.ordinary n) = .loaded →
      Links (w.record (.entered (.ordinary n))) (classes.superClass n).toList false w₁ →
      Links (w₁.setupSuperHierarchy classes (.ordinary n)) (classes.interfaces n) false w₂ →
      Links w (n :: ns) true
        (((linkArraysOf classes (w₂.setState (.ordinary n) .linked) n).setState
          (.ordinary n) .linkageError).record (.returned (.ordinary n) true))
  | linked {w w₁ w₂ w' : World} {n : Nat} {ns : List Nat} {r : Bool} :
      w.state (.ordinary n) = .loaded →
      Links (w.record (.entered (.ordinary n))) (classes.superClass n).toList false w₁ →
      Links (w₁.setupSuperHierarchy classes (.ordinary n)) (classes.interfaces n) false w₂ →
      Links (((linkArraysOf classes (w₂.setState (.ordinary n) .linked) n).setUpFunctionTables
        classes (.ordinary n)).record (.returned (.ordinary n) false)) ns r w' →
      Links w (n :: ns) r w'

end

/-- A class is linked once; after that `link_class` finds nothing to do. -/
theorem linkClass_of_ne_loaded {f : Nat} (h : w.state c ≠ .loaded) :
    linkClass classes (f + 1) w c =
      some (false, (w.record (.entered c)).record (.returned c false)) := by
  rw [linkClass, linkBody, state_record, if_pos h]

theorem linkArrayClass_cases {f : Nat} (h : w.state (.ordinary n) ≠ .loaded)
    (hd : w.depth (.ordinary n) ≠ 0)
    (hl : linkArrayClass classes (linkClass classes f) w (ClassId.ordinary n).array =
      some (r, w')) : w' = linkArraysOf classes w n := by
  unfold linkArraysOf
  by_cases ha : (w.state (ClassId.ordinary n).array).isLinked
  · rw [linkArrayClass, if_pos ha] at hl
    cases hl
    rw [if_pos (Or.inr ha)]
  · rw [linkArrayClass, if_neg ha] at hl
    rw [if_neg (by simp [hd, ha])]
    have hs : (w.setState (ClassId.ordinary n).array .linked).state (.ordinary n) ≠ .loaded := by
      rwa [state_setState, if_neg (by simp [ClassId.array])]
    cases f with
    | zero => cases hl
    | succ f =>
      simp only [ClassId.baseComponent, ClassId.array, linkClass_of_ne_loaded hs] at hl
      cases hl
      rfl

theorem linkArrayType_cases {f : Nat} (h : w.state (.ordinary n) ≠ .loaded)
    (hl : linkArrayType classes (linkClass classes f) w (.ordinary n) = some (r, w')) :
    w' = linkArraysOf classes w n := by
  unfold linkArrayType at hl
  rcases eq_or_ne (w.depth (.ordinary n)) 0 with hd | hd
  · simp only [World.arrayType, hd, lt_irrefl, if_false] at hl
    cases hl
    rw [linkArraysOf, if_pos (Or.inl hd)]
  · simp only [World.arrayType, Nat.pos_of_ne_zero hd, if_true] at hl
    exact linkArrayClass_cases h hd hl

theorem linkOrdinary_cases {f : Nat}
    (h : linkOrdinary classes (linkClass classes f) w (.ordinary n) = some (r, w')) :
    (r = true ∧ w' = (linkArraysOf classes (w.setState (.ordinary n) .linked) n).setState
      (.ordinary n) .linkageError) ∨
    (r = false ∧ w' = (linkArraysOf classes (w.setState (.ordinary n) .linked) n).setUpFunctionTables
      classes (.ordinary n)) := by
  unfold linkOrdinary at h
  rcases hq : linkArrayType classes (linkClass classes f) (w.setState (.ordinary n) .linked)
    (.ordinary n) with _ | ⟨b, x⟩
  · rw [hq] at h
    cases h
  · rw [hq] at h
    obtain rfl := linkArrayType_cases (by simp) hq
    dsimp only at h
    split_ifs at h
    · cases h
      exact Or.inr ⟨rfl, rfl⟩
    · cases h
      exact Or.inl ⟨rfl, rfl⟩

section

variable (classes)

/-- A call of `link_class` that is the first of a row of calls. -/
def LinksFirst (link : World → ClassId → Option (Bool × World)) : Prop :=
  ∀ ⦃w w₁ w' : World⦄ ⦃n : Nat⦄ ⦃ns : List Nat⦄ ⦃r r' : Bool⦄,
    link w (.ordinary n) = some (r, w₁) →
    (r = true → r' = true ∧ w' = w₁) → (r = false → Links classes w₁ ns r' w') →
    Links classes w (n :: ns) r' w'

end

theorem linkAll_links {link : World → ClassId → Option (Bool × World)}
    (hlink : LinksFirst classes link) : ∀ {ns : List Nat} {w w' : World} {r : Bool},
    linkAll link w (ns.map ClassId.ordinary) = some (r, w') → Links classes w ns r w'
  | [], _, _, _, h => by
    cases h
    exact .nil
  | n :: ns, w, w', r, h => by
    rw [List.map_cons, linkAll] at h
    rcases hn : link w (.ordinary n) with _ | ⟨_ | _, w₁⟩ <;> rw [hn] at h
    · cases h
    · exact hlink hn (by simp) fun _ => linkAll_links hlink h
    · cases h
      exact hlink hn (fun _ => ⟨rfl, rfl⟩) (by simp)

theorem superOf_ordinary (classes : Classes) (n : Nat) :
    (classes.superOf (.ordinary n)).toList = (classes.superClass n).toList.map ClassId.ordinary := by
  cases h : classes.superClass n <;> simp [Classes.superOf, h]

/-- What `link_class` does with an ordinary class. -/
theorem linkClass_links (classes : Classes) : ∀ f : Nat, LinksFirst classes (linkClass classes f)
  | 0 => by
    intro _ _ _ _ _ _ _ h
    cases h
  | f + 1 => by
    intro w w₁ w' n ns r r' h ht hf
    have hall := fun {ns x x' q} => @linkAll_links _ _ (linkClass_links classes f) ns x x' q
    unfold linkClass at h
    rcases hb : linkBody classes (linkClass classes f) (w.record (.entered (.ordinary n)))
      (.ordinary n) with _ | ⟨q, x⟩ <;> rw [hb] at h
    · cases h
    cases h
    unfold linkBody at hb
    by_cases hs : w.state (.ordinary n) ≠ .loaded
    · rw [state_record, if_pos hs] at hb
      cases hb
      exact .skip hs (hf rfl)
    · rw [state_record, if_neg hs, superOf_ordinary] at hb
      have hs : w.state (.ordinary n) = .loaded := not_not.mp hs
      rcases h₁ : linkAll (linkClass classes f) (w.record (.entered (.ordinary n)))
        ((classes.superClass n).toList.map ClassId.ordinary) with _ | ⟨_ | _, w₁⟩ <;> rw [h₁] at hb
      · cases hb
      · dsimp only at hb
        rcases h₂ : linkAll (linkClass classes f) (w₁.setupSuperHierarchy classes (.ordinary n))
          (classes.interfacesOf (.ordinary n)) with _ | ⟨_ | _, w₂⟩ <;> rw [h₂] at hb
        · cases hb
        · dsimp only at hb
          rw [if_neg (by simp [ClassId.kind])] at hb
          rcases linkOrdinary_cases hb with ⟨rfl, rfl⟩ | ⟨rfl, rfl⟩
          · obtain ⟨rfl, rfl⟩ := ht rfl
            exact .rejected hs (hall h₁) (hall h₂)
          · exact .linked hs (hall h₁) (hall h₂) (hf rfl)
        · cases hb
          obtain ⟨rfl, rfl⟩ := ht rfl
          exact .interfaceFails hs (hall h₁) (hall h₂)
      · cases hb
        obtain ⟨rfl, rfl⟩ := ht rfl
        exact .superFails hs (hall h₁)

theorem links_of_linkClass {f : Nat} (h : linkClass classes f w (.ordinary n) = some (r, w')) :
    Links classes w [n] r w' :=
  linkClass_links classes f h (fun hr => ⟨hr, rfl⟩) fun hr => hr ▸ .nil

theorem super_lt_of_mem (h : m ∈ (classes.superClass n).toList) : m < n :=
  classes.super_lt (Option.mem_toList.mp h)

/-! ### What linking leaves alone -/

theorem depth_linkArraysOf : (linkArraysOf classes w n).depth = w.depth := by
  unfold linkArraysOf
  split_ifs <;> rfl

theorem cd_linkArraysOf (h : d.element = .ordinary n → d.dimensions = 0) :
    (linkArraysOf classes w n).cd d = w.cd d := by
  unfold linkArraysOf
  split_ifs with hl
  · rfl
  · have hd : d ≠ (ClassId.ordinary n).array := by
      rintro rfl
      simp at h
    dsimp only
    rw [cd_setUpFunctionTables_of_ne _ _ _ _ hd, cd_setupSuperHierarchy_of_ne _ _ _ _ hd,
  cd_setArrayStates, if_neg (fun hc => absurd (h hc.1) (Nat.ne_of_gt hc.2.1)),
      state_record, state_record, state_setState, if_neg hd]
    simp only [cd_record, cd_setState_of_ne _ _ _ _ hd]
    rfl


theorem state_linkArraysOf (h : d.dimensions = 0) :
    (linkArraysOf classes w n).state d = w.state d := by
  rw [World.state, cd_linkArraysOf fun _ => h]
  rfl

/-- The array class of one dimension when its element is linked. -/
theorem cd_linkArraysOf_array {a : ClassId} (ha : a = (ClassId.ordinary n).array)
    (hd : w.depth (.ordinary n) ≠ 0) (hl : (w.state a).isLinked = false) :
    (linkArraysOf classes w n).cd a =
      { state := .linked
        hierarchy := (w.cd (.ordinary classes.object)).hierarchy ++ [a]
        interfaces := w.setupItables classes (.ordinary classes.object) a
        hierarchySetups := (w.cd a).hierarchySetups + 1
        tableSetups := (w.cd a).tableSetups + 1 } := by
  have hsuper : classes.superOf a = some (.ordinary classes.object) := by
    rw [ha]
    rfl
  have hiface : classes.isInterfaceClass a = false := by
    rw [ha]
    rfl
  have hobject : ClassId.ordinary classes.object ≠ a := by
    rw [ha]
    simp
  rw [linkArraysOf, if_neg (by rw [← ha]; simp [hd, hl]), ← ha]
  dsimp only
  rw [cd_setUp _ _ _ hsuper, hiface, if_neg Bool.false_ne_true, state_setArrayStates,
    if_pos ⟨by rw [ha], by simp [ha], by rw [ha]; exact Nat.pos_of_ne_zero hd⟩]
  simp only [cd_setArrayStates, cd_record, cd_setState]
  congr 1
  exact setupItables_congr classes _ a fun x => by
    rw [cd_setArrayStates, cd_record, cd_record, cd_setState]

/-- The array classes of more dimensions then. -/
theorem cd_linkArraysOf_higher {k : Nat} (hk : 1 < k) (hd : w.depth (.ordinary n) ≠ 0)
    (hl : (w.state (ClassId.ordinary n).array).isLinked = false) :
    (linkArraysOf classes w n).cd ⟨.ordinary n, k⟩ =
      if k ≤ w.depth (.ordinary n) then { w.cd ⟨.ordinary n, k⟩ with state := .linked }
      else w.cd ⟨.ordinary n, k⟩ := by
  have hne : (⟨.ordinary n, k⟩ : ClassId) ≠ (ClassId.ordinary n).array := fun h =>
    absurd (congrArg (·.dimensions) h) (Nat.ne_of_gt hk)
  rw [linkArraysOf, if_neg (by simp [hd, hl])]
  dsimp only
  rw [cd_setUpFunctionTables_of_ne _ _ _ _ hne, cd_setupSuperHierarchy_of_ne _ _ _ _ hne,
    cd_setArrayStates, cd_record, cd_record, cd_setState_of_ne _ _ _ _ hne]
  have hk0 : 0 < k := by omega
  simp only [hk0, true_and, state_record, state_setState, if_neg hne, depth_record, depth_setState]
  split_ifs <;> rfl

theorem log_linkArraysOf {s : State} :
    w.log <:+ (linkArraysOf classes (w.setState c s) n).log := by
  unfold linkArraysOf
  split_ifs
  · exact List.suffix_rfl
  · exact ⟨[.returned (.ordinary n) false, .entered (.ordinary n)], rfl⟩

/-- Linking the classes does not reach the element: it is not loaded only, or defined behind. -/
def OutOfReach (w : World) (ns : List Nat) (e : Element) : Prop :=
  ∀ m, e = .ordinary m → w.state (.ordinary m) ≠ .loaded ∨ ∀ n ∈ ns, n < m

namespace OutOfReach

variable {ns l : List Nat} {e : Element}

theorem tail (h : OutOfReach w (n :: ns) e) : OutOfReach w ns e := fun m hm =>
  (h m hm).imp id fun hlt i hi => hlt i (List.mem_cons_of_mem _ hi)

theorem ne (h : OutOfReach w (n :: ns) e) (hs : w.state (.ordinary n) = .loaded) :
    e ≠ .ordinary n := by
  rintro rfl
  rcases h n rfl with h | h
  · exact h hs
  · exact lt_irrefl n (h n List.mem_cons_self)

theorem supers (h : OutOfReach w (n :: ns) e) (hl : ∀ i ∈ l, i < n) : OutOfReach w l e :=
  fun m hm => (h m hm).imp id fun h i hi => (hl i hi).trans (h n List.mem_cons_self)

theorem of_cd (h : OutOfReach w ns e) (hcd : ∀ k, w'.cd ⟨e, k⟩ = w.cd ⟨e, k⟩) :
    OutOfReach w' ns e := by
  rintro m rfl
  refine (h m rfl).imp (fun h => ?_) id
  rwa [World.state, hcd 0]

end OutOfReach

namespace Links

variable {ns : List Nat}

theorem depth_eq (h : Links classes w ns r w') : w'.depth = w.depth := by
  induction h with
  | nil => rfl
  | skip _ _ ih => exact ih
  | superFails _ _ ih => exact ih
  | interfaceFails _ _ _ ih₁ ih₂ => exact ih₂.trans ih₁
  | rejected _ _ _ ih₁ ih₂ => exact depth_linkArraysOf.trans (ih₂.trans ih₁)
  | linked _ _ _ _ ih₁ ih₂ ih => exact ih.trans (depth_linkArraysOf.trans (ih₂.trans ih₁))

theorem log_suffix (h : Links classes w ns r w') : w.log <:+ w'.log := by
  induction h with
  | nil => exact List.suffix_rfl
  | skip _ _ ih => exact (List.suffix_append [_, _] _).trans ih
  | superFails _ _ ih => exact (List.suffix_cons _ _).trans (ih.trans (List.suffix_cons _ _))
  | interfaceFails _ _ _ ih₁ ih₂ =>
    exact (List.suffix_cons _ _).trans (ih₁.trans (ih₂.trans (List.suffix_cons _ _)))
  | rejected _ _ _ ih₁ ih₂ =>
    exact (List.suffix_cons _ _).trans (ih₁.trans (ih₂.trans
      (log_linkArraysOf.trans (List.suffix_cons _ _))))
  | linked _ _ _ _ ih₁ ih₂ ih =>
    exact (List.suffix_cons _ _).trans (ih₁.trans (ih₂.trans
      ((log_linkArraysOf.trans (List.suffix_cons _ _)).trans ih)))

/-- What linking the supers of a class leaves alone. -/
theorem supers_untouched {e : Element} (hs : w.state (.ordinary n) = .loaded)
    (he : OutOfReach w (n :: ns) e)
    (ih₁ : ∀ {e : Element}, OutOfReach w (classes.superClass n).toList e →
      ∀ k, w₁.cd ⟨e, k⟩ = w.cd ⟨e, k⟩)
    (ih₂ : ∀ {e : Element},
      OutOfReach (w₁.setupSuperHierarchy classes (.ordinary n)) (classes.interfaces n) e →
      ∀ k, w₂.cd ⟨e, k⟩ = (w₁.setupSuperHierarchy classes (.ordinary n)).cd ⟨e, k⟩) :
    ∀ k, w₂.cd ⟨e, k⟩ = w.cd ⟨e, k⟩ := by
  have h₁ : ∀ k, (w₁.setupSuperHierarchy classes (.ordinary n)).cd ⟨e, k⟩ = w.cd ⟨e, k⟩ :=
    fun k => (cd_setupSuperHierarchy_of_ne _ _ _ _
      fun h => he.ne hs (congrArg (·.element) h)).trans
      (ih₁ (he.supers fun _ => super_lt_of_mem) k)
  exact fun k => (ih₂ ((he.supers fun _ => classes.interface_lt).of_cd h₁) k).trans (h₁ k)

/-- Linking leaves alone the elements that it does not reach, with their arrays. -/
theorem untouched (h : Links classes w ns r w') : ∀ {e : Element}, OutOfReach w ns e →
    ∀ k, w'.cd ⟨e, k⟩ = w.cd ⟨e, k⟩ := by
  induction h with
  | nil => exact fun _ _ => rfl
  | skip _ _ ih => exact fun he => ih he.tail
  | @superFails w w₁ n ns hs _ ih =>
    intro e he k
    rw [cd_record, cd_setState_of_ne _ _ _ _ fun h => he.ne hs (congrArg (·.element) h)]
    exact ih (he.supers fun _ => super_lt_of_mem) k
  | @interfaceFails w w₁ w₂ n ns hs _ _ ih₁ ih₂ =>
    intro e he k
    rw [cd_record, cd_setState_of_ne _ _ _ _ fun h => he.ne hs (congrArg (·.element) h)]
    exact supers_untouched hs he ih₁ ih₂ k
  | @rejected w w₁ w₂ n ns hs _ _ ih₁ ih₂ =>
    intro e he k
    have hk : (⟨e, k⟩ : ClassId) ≠ .ordinary n := fun h => he.ne hs (congrArg (·.element) h)
    rw [cd_record, cd_setState_of_ne _ _ _ _ hk, cd_linkArraysOf fun h => absurd h (he.ne hs),
      cd_setState_of_ne _ _ _ _ hk]
    exact supers_untouched hs he ih₁ ih₂ k
  | @linked w w₁ w₂ w' n ns r hs _ _ _ ih₁ ih₂ ih =>
    intro e he
    have h₂ : ∀ k, (((linkArraysOf classes (w₂.setState (.ordinary n) .linked) n).setUpFunctionTables
        classes (.ordinary n)).record (.returned (.ordinary n) false)).cd ⟨e, k⟩ =
        w.cd ⟨e, k⟩ := by
      intro k
      have hk : (⟨e, k⟩ : ClassId) ≠ .ordinary n := fun h => he.ne hs (congrArg (·.element) h)
      rw [cd_record, cd_setUpFunctionTables_of_ne _ _ _ _ hk,
        cd_linkArraysOf fun h => absurd h (he.ne hs), cd_setState_of_ne _ _ _ _ hk]
      exact supers_untouched hs he ih₁ ih₂ k
    exact fun k => (ih (he.tail.of_cd h₂) k).trans (h₂ k)

end Links

/-! ### What linking does to an element and its arrays -/

/-- The class of an element and its array classes. -/
def World.chain (w : World) (e : Element) (k : Nat) : Classdesc := w.cd ⟨e, k⟩

/-- What linking does to a chain of `depth` array classes: nothing, or it links the class, and with
it the array class of one dimension if that is not linked; array classes of more dimensions then
get the state only. -/
inductive ChainEffect (depth : Nat) : (Nat → Classdesc) → (Nat → Classdesc) → Prop
  | same {c : Nat → Classdesc} : ChainEffect depth c c
  | alone {c c' : Nat → Classdesc} : (c 0).state = .loaded →
      (c' 0).state = .linkageError ∨
        ((c' 0).state = .linked ∧ (depth = 0 ∨ (c 1).state.isLinked = true)) →
      ((c' 0).state = .linkageError → (c' 0).tableSetups = (c 0).tableSetups) →
      (∀ k, 0 < k → c' k = c k) → ChainEffect depth c c'
  | withArrays {c c' : Nat → Classdesc} : (c 0).state = .loaded →
      (c' 0).state = .linked ∨ (c' 0).state = .linkageError →
      ((c' 0).state = .linkageError → (c' 0).tableSetups = (c 0).tableSetups) →
      0 < depth → (c 1).state.isLinked = false → (c' 1).state = .linked →
      (c' 1).hierarchySetups = (c 1).hierarchySetups + 1 →
      (c' 1).tableSetups = (c 1).tableSetups + 1 →
      (∀ k, 1 < k → c' k = if k ≤ depth then { c k with state := .linked } else c k) →
      ChainEffect depth c c'

section

variable {e : Element} {s : State}

theorem chain_setState (h : e ≠ c.element) : (w.setState c s).chain e = w.chain e :=
  funext fun _ => cd_setState_of_ne _ _ _ _ fun hd => h (congrArg (·.element) hd)

theorem chain_setArrayStates {e' : Element} (h : e ≠ e') :
    (w.setArrayStates e' s).chain e = w.chain e := funext fun k => by
  rw [World.chain, cd_setArrayStates, if_neg fun hc => h hc.1]
  rfl

theorem chain_setupSuperHierarchy (h : e ≠ c.element) :
    (w.setupSuperHierarchy classes c).chain e = w.chain e :=
  funext fun _ => cd_setupSuperHierarchy_of_ne _ _ _ _ fun hd => h (congrArg (·.element) hd)

theorem chain_setUpFunctionTables (h : e ≠ c.element) :
    (w.setUpFunctionTables classes c).chain e = w.chain e :=
  funext fun _ => cd_setUpFunctionTables_of_ne _ _ _ _ fun hd => h (congrArg (·.element) hd)

theorem chain_linkArraysOf (h : e ≠ .ordinary n) :
    (linkArraysOf classes w n).chain e = w.chain e :=
  funext fun _ => cd_linkArraysOf fun hd => absurd hd h

end

theorem ChainEffect.trans {depth : Nat} {c₁ c₂ c₃ : Nat → Classdesc} (h₁ : ChainEffect depth c₁ c₂)
    (h₂ : ChainEffect depth c₂ c₃) : ChainEffect depth c₁ c₃ := by
  have hsame : (c₂ 0).state ≠ .loaded → c₃ = c₂ := by
    intro h
    cases h₂ with
    | same => rfl
    | alone hs => exact absurd hs h
    | withArrays hs => exact absurd hs h
  cases h₁ with
  | same => exact h₂
  | alone hs hs' ht0 hk =>
    obtain rfl := hsame (by rcases hs' with h | ⟨h, -⟩ <;> simp [h])
    exact .alone hs hs' ht0 hk
  | withArrays hs hs' ht0 hd hl hl' hh ht hk =>
    obtain rfl := hsame (by rcases hs' with h | h <;> simp [h])
    exact .withArrays hs hs' ht0 hd hl hl' hh ht hk

/-- What linking an ordinary class does to its own chain once its supers are linked. -/
theorem chainEffect_finish (classes : Classes) {c : Nat → Classdesc} (hs : (c 0).state = .loaded)
    (hk : ∀ k, 0 < k → w.chain (.ordinary n) k = c k)
    (h0 : (w'.chain (.ordinary n) 0).state = .linked ∨
      (w'.chain (.ordinary n) 0).state = .linkageError)
    (ht0 : (w'.chain (.ordinary n) 0).state = .linkageError →
      (w'.chain (.ordinary n) 0).tableSetups = (c 0).tableSetups)
    (hw' : ∀ k, 0 < k → w'.chain (.ordinary n) k =
      (linkArraysOf classes (w.setState (.ordinary n) .linked) n).chain (.ordinary n) k) :
    ChainEffect (w.depth (.ordinary n)) c (w'.chain (.ordinary n)) := by
  have hset : ∀ k, 0 < k → (w.setState (.ordinary n) .linked).cd ⟨.ordinary n, k⟩ = c k := by
    intro k hk0
    rw [cd_setState, if_neg (by simp [Nat.ne_of_gt hk0])]
    exact hk k hk0
  by_cases ha : w.depth (.ordinary n) = 0 ∨ (c 1).state.isLinked
  · have hl : linkArraysOf classes (w.setState (.ordinary n) .linked) n =
        w.setState (.ordinary n) .linked := if_pos (ha.imp id fun h => by
      rwa [World.state, hset 1 Nat.one_pos])
    rw [hl] at hw'
    refine .alone hs (h0.symm.imp id fun h => ⟨h, ha⟩) ht0 fun k hk0 => ?_
    exact (hw' k hk0).trans (hset k hk0)
  · obtain ⟨hd, hl⟩ := not_or.mp ha
    have hl' : ((w.setState (.ordinary n) .linked).state (ClassId.ordinary n).array).isLinked =
        false := by
      rw [World.state, hset 1 Nat.one_pos]
      exact Bool.eq_false_iff.mpr hl
    have h1 : w'.chain (.ordinary n) 1 = _ := (hw' 1 Nat.one_pos).trans
      (cd_linkArraysOf_array rfl (by exact hd) hl')
    have hc1 := hset 1 Nat.one_pos
    refine .withArrays hs h0 ht0 (Nat.pos_of_ne_zero hd) (Bool.eq_false_iff.mpr hl) ?_ ?_ ?_ ?_
    · rw [h1]
    · rw [h1, ← hc1]
    · rw [h1, ← hc1]
    · intro k hk1
      rw [hw' k (by omega), ← hset k (by omega)]
      exact cd_linkArraysOf_higher hk1 hd hl'

namespace Links

variable {ns : List Nat}

/-- The chain of a class is as it was after its supers are linked. -/
theorem chain_supers (h₁ : Links classes (w.record (.entered (.ordinary n)))
      (classes.superClass n).toList r w₁) (k : Nat) :
    w₁.cd ⟨.ordinary n, k⟩ = w.cd ⟨.ordinary n, k⟩ :=
  h₁.untouched (fun _ h => by cases h; exact Or.inr fun _ => super_lt_of_mem) k

theorem chain_interfaces (h₂ : Links classes w (classes.interfaces n) r w₂) (k : Nat) :
    w₂.cd ⟨.ordinary n, k⟩ = w.cd ⟨.ordinary n, k⟩ :=
  h₂.untouched (fun _ h => by cases h; exact Or.inr fun _ => classes.interface_lt) k

/-- The array classes of a class when its supers are linked. -/
theorem chain_supers_interfaces (h₁ : Links classes (w.record (.entered (.ordinary n)))
      (classes.superClass n).toList false w₁)
    (h₂ : Links classes (w₁.setupSuperHierarchy classes (.ordinary n)) (classes.interfaces n) r w₂)
    {k : Nat} (hk : 0 < k) : w₂.chain (.ordinary n) k = w.chain (.ordinary n) k :=
  (chain_interfaces h₂ k).trans ((cd_setupSuperHierarchy_of_ne _ _ _ _
    (by simp [Nat.ne_of_gt hk])).trans (chain_supers h₁ k))

theorem tableSetups_supers_interfaces (h₁ : Links classes (w.record (.entered (.ordinary n)))
      (classes.superClass n).toList false w₁)
    (h₂ : Links classes (w₁.setupSuperHierarchy classes (.ordinary n)) (classes.interfaces n) r w₂) :
    (w₂.cd (.ordinary n)).tableSetups = (w.cd (.ordinary n)).tableSetups := by
  rw [show w₂.cd (.ordinary n) = _ from chain_interfaces h₂ 0, World.setupSuperHierarchy,
    show w₁.cd (.ordinary n) = w.cd (.ordinary n) from chain_supers h₁ 0]
  simp

theorem depth_supers_interfaces (h₁ : Links classes (w.record (.entered (.ordinary n)))
      (classes.superClass n).toList false w₁)
    (h₂ : Links classes (w₁.setupSuperHierarchy classes (.ordinary n)) (classes.interfaces n) r w₂) :
    w₂.depth = w.depth :=
  h₂.depth_eq.trans h₁.depth_eq

/-- What linking the supers of a class does to another one. -/
theorem chainEffect_supers {e : Element} (he : e ≠ .ordinary n)
    (h₁ : Links classes (w.record (.entered (.ordinary n))) (classes.superClass n).toList false w₁)
    (ih₁ : ChainEffect (w.depth e) (w.chain e) (w₁.chain e))
    (ih₂ : ChainEffect (w₁.depth e) ((w₁.setupSuperHierarchy classes (.ordinary n)).chain e)
      (w₂.chain e)) : ChainEffect (w.depth e) (w.chain e) (w₂.chain e) := by
  rw [chain_setupSuperHierarchy he, h₁.depth_eq] at ih₂
  exact ih₁.trans ih₂

theorem chainEffect (h : Links classes w ns r w') (m : Nat) :
    ChainEffect (w.depth (.ordinary m)) (w.chain (.ordinary m)) (w'.chain (.ordinary m)) := by
  induction h with
  | nil => exact .same
  | skip _ _ ih => exact ih
  | @superFails w w₁ n ns hs h₁ ih =>
    rcases eq_or_ne m n with rfl | hmn
    · refine .alone hs (Or.inl (by simp [World.chain, cd_setState])) (fun _ => ?_) fun k hk => ?_
      · rw [World.chain, cd_record, cd_setState]
        exact congrArg (·.tableSetups) (chain_supers h₁ 0)
      · exact (cd_setState_of_ne _ _ _ _ (by simp [Nat.ne_of_gt hk])).trans (chain_supers h₁ k)
    · have hmn : Element.ordinary m ≠ .ordinary n := by simp [hmn]
      have hc : ((w₁.setState (.ordinary n) .linkageError).record
        (.returned (.ordinary n) true)).chain (.ordinary m) = w₁.chain (.ordinary m) :=
        chain_setState hmn
      rw [hc]
      exact ih
  | @interfaceFails w w₁ w₂ n ns hs h₁ h₂ ih₁ ih₂ =>
    rcases eq_or_ne m n with rfl | hmn
    · refine .alone hs (Or.inl (by simp [World.chain, cd_setState])) (fun _ => ?_) fun k hk => ?_
      · rw [World.chain, cd_record, cd_setState]
        exact tableSetups_supers_interfaces h₁ h₂
      · exact (cd_setState_of_ne _ _ _ _ (by simp [Nat.ne_of_gt hk])).trans
          (chain_supers_interfaces h₁ h₂ hk)
    · have hmn : Element.ordinary m ≠ .ordinary n := by simp [hmn]
      have hc : ((w₂.setState (.ordinary n) .linkageError).record
        (.returned (.ordinary n) true)).chain (.ordinary m) = w₂.chain (.ordinary m) :=
        chain_setState hmn
      rw [hc]
      exact chainEffect_supers hmn h₁ ih₁ ih₂
  | @rejected w w₁ w₂ n ns hs h₁ h₂ ih₁ ih₂ =>
    rcases eq_or_ne m n with rfl | hmn
    · rw [← depth_supers_interfaces h₁ h₂]
      refine chainEffect_finish classes hs (fun k hk => chain_supers_interfaces h₁ h₂ hk)
        (Or.inr (by simp [World.chain, cd_setState])) (fun _ => ?_) fun k hk => ?_
      · rw [World.chain, cd_record, cd_setState, cd_linkArraysOf fun _ => rfl, cd_setState]
        exact tableSetups_supers_interfaces h₁ h₂
      · exact cd_setState_of_ne _ _ _ _ (by simp [Nat.ne_of_gt hk])
    · have hmn : Element.ordinary m ≠ .ordinary n := by simp [hmn]
      have hc : (((linkArraysOf classes (w₂.setState (.ordinary n) .linked) n).setState
        (.ordinary n) .linkageError).record (.returned (.ordinary n) true)).chain (.ordinary m) =
        w₂.chain (.ordinary m) :=
        (chain_setState hmn).trans ((chain_linkArraysOf hmn).trans (chain_setState hmn))
      rw [hc]
      exact chainEffect_supers hmn h₁ ih₁ ih₂
  | @linked w w₁ w₂ w' n ns r hs h₁ h₂ h ih₁ ih₂ ih =>
    have hdepth : (((linkArraysOf classes (w₂.setState (.ordinary n) .linked) n).setUpFunctionTables
        classes (.ordinary n)).record (.returned (.ordinary n) false)).depth = w₂.depth :=
      depth_linkArraysOf
    rw [depth_supers_interfaces h₁ h₂] at hdepth
    rw [hdepth] at ih
    refine ChainEffect.trans ?_ ih
    rcases eq_or_ne m n with rfl | hmn
    · rw [← depth_supers_interfaces h₁ h₂]
      refine chainEffect_finish classes hs (fun k hk => chain_supers_interfaces h₁ h₂ hk)
        (Or.inl ?_) (fun hs' => ?_) fun k hk => ?_
      · refine (state_setUpFunctionTables _ _ _ _).trans ((state_linkArraysOf rfl).trans ?_)
        rw [state_setState, if_pos rfl]
      · rw [World.chain, cd_record, ← World.state, state_setUpFunctionTables,
          state_linkArraysOf rfl, state_setState, if_pos rfl] at hs'
        cases hs'
      · exact cd_setUpFunctionTables_of_ne _ _ _ _ (by simp [Nat.ne_of_gt hk])
    · have hmn : Element.ordinary m ≠ .ordinary n := by simp [hmn]
      have hc : (((linkArraysOf classes (w₂.setState (.ordinary n) .linked) n).setUpFunctionTables
        classes (.ordinary n)).record (.returned (.ordinary n) false)).chain (.ordinary m) =
        w₂.chain (.ordinary m) :=
        (chain_setUpFunctionTables hmn).trans ((chain_linkArraysOf hmn).trans (chain_setState hmn))
      rw [hc]
      exact chainEffect_supers hmn h₁ ih₁ ih₂

/-- The state of a class right after it is linked. -/
theorem state_single (h : Links classes w [n] r w') (hs : w.state (.ordinary n) = .loaded) :
    w'.state (.ordinary n) = if r then .linkageError else .linked := by
  cases h with
  | skip hn => exact absurd hs hn
  | superFails => simp
  | interfaceFails => simp
  | rejected => simp
  | linked _ _ _ h =>
    cases h
    rw [state_record, state_setUpFunctionTables, state_linkArraysOf rfl, state_setState, if_pos rfl]
    rfl

end Links

/-! ### Making array classes -/

/-- A new array class, which the chain does not have yet. -/
def World.withArray (w : World) (c : ClassId) (s : State) : World :=
  { w with cd := Function.update w.cd c.array { state := s } }

theorem array_ne (c : ClassId) : c ≠ c.array := fun h =>
  absurd (congrArg (·.dimensions) h) (Nat.ne_of_lt (Nat.lt_succ_self _))

theorem cd_withArray {s : State} (h : d ≠ c.array) : (w.withArray c s).cd d = w.cd d :=
  Function.update_of_ne h ..

theorem cd_withArray_self {s : State} : (w.withArray c s).cd c.array = { state := s } :=
  Function.update_self ..

/-- What `get_or_create_array_classdesc` does: nothing, where the array class is there, or it makes
one for a primitive type, or for a component that is not linked, or for one that is. -/
inductive Created (classes : Classes) (w : World) (c : ClassId) : World → Prop
  | existing : Created classes w c w
  | primitive {k : TypeKind} : c = ⟨.primitive k, 0⟩ → w.depth c.element = 0 →
      Created classes w c { ((w.withArray c .initialized).setupSuperHierarchy classes
        c.array).setUpFunctionTables classes c.array with
          depth := Function.update w.depth c.element (c.dimensions + 1) }
  | unlinked : c.kind ≠ .primitive → w.depth c.element = c.dimensions →
      (w.state c).isLinked = false →
      Created classes w c { w.withArray c (w.state c) with
        depth := Function.update w.depth c.element (c.dimensions + 1) }
  | linked {f : Nat} {r : Bool} {x : World} : c.kind ≠ .primitive →
      w.depth c.element = c.dimensions → (w.state c).isLinked = true →
      linkClass classes f (w.withArray c .loaded) c.array = some (r, x) →
      Created classes w c { x.setState c.array (x.state c) with
        depth := Function.update x.depth c.element (c.dimensions + 1) }

theorem eq_of_kind_primitive (h : c.kind = .primitive) : ∃ k, c = ⟨.primitive k, 0⟩ := by
  obtain ⟨⟨n⟩ | ⟨k⟩, d | d | d⟩ := c <;> simp [ClassId.kind] at h
  exact ⟨k, rfl⟩

theorem created_of_getOrCreate {f : Nat} (hexists : w.Exists c)
    (h : getOrCreateArrayClassdesc classes f w c = some w') : Created classes w c w' := by
  unfold getOrCreateArrayClassdesc at h
  by_cases ha : (w.arrayType c).isSome
  · rw [if_pos ha] at h
    cases h
    exact .existing
  rw [if_neg ha] at h
  have hd : w.depth c.element = c.dimensions := by
    have hnone : w.arrayType c = none := by simpa using ha
    unfold World.arrayType at hnone
    split_ifs at hnone with hlt
    exact le_antisymm (not_lt.mp hlt) hexists
  obtain ⟨x, hx, rfl⟩ := Option.map_eq_some_iff.mp h
  by_cases hp : c.kind = .primitive
  · rw [if_pos hp] at hx
    cases hx
    obtain ⟨k, rfl⟩ := eq_of_kind_primitive hp
    exact .primitive rfl hd
  · rw [if_neg hp, ordinaryArrayClassdesc] at hx
    have hc : ((w.withArray c .loaded).state c) = w.state c := by
      rw [World.state, cd_withArray (array_ne c)]
      rfl
    obtain ⟨y, hy, rfl⟩ := Option.map_eq_some_iff.mp hx
    by_cases hl : (w.state c).isLinked
    · rw [if_pos (by rw [← hc] at hl; exact hl)] at hy
      obtain ⟨⟨r, z⟩, hz, rfl⟩ := Option.map_eq_some_iff.mp hy
      exact .linked hp hd hl hz
    · rw [if_neg (by rw [← hc] at hl; exact hl)] at hy
      cases hy
      have hset : (w.withArray c .loaded).setState c.array ((w.withArray c .loaded).state c) =
          w.withArray c (w.state c) := by
        rw [hc, World.withArray, World.setState, World.withArray]
        simp only [Function.update_self, Function.update_idem]
      have hcreated : Created classes w c _ := .unlinked hp hd (Bool.eq_false_iff.mpr hl)
      rw [← hset] at hcreated
      exact hcreated

/-! ### A small hierarchy -/

theorem sampleSuperClass_lt {n s : Nat}
    (h : (if n = 0 then none else if n = 4 then some 3 else if n = 6 then some 5 else some 0) =
      some s) : s < n := by
  split_ifs at h <;> cases h <;> omega

theorem noInterface_lt {n i : Nat} (h : i ∈ ([] : List Nat)) : i < n := absurd h List.not_mem_nil

/-- What `initialize_class` comes to before it goes on to the supers. -/
inductive InitializeStep (classes : Classes) (fuel : Nat) (w : World) (n : Nat) : World → Prop
  | returns : InitializeStep classes fuel w n w
  | starts (linked : (w.state (.ordinary n)).isLinked = true)
      (idle : w.state (.ordinary n) ≠ .initializing) :
      InitializeStep classes fuel w n (w.setState (.ordinary n) .initializing)
  | links {failed : Bool} {x : World} (unlinked : (w.state (.ordinary n)).isLinked ≠ true)
      (link : linkClass classes fuel w (.ordinary n) = some (failed, x)) :
      InitializeStep classes fuel w n x
  | linksAndStarts {x : World} (unlinked : (w.state (.ordinary n)).isLinked ≠ true)
      (link : linkClass classes fuel w (.ordinary n) = some (false, x))
      (sound : x.state (.ordinary n) ≠ .linkageError) :
      InitializeStep classes fuel w n (x.setState (.ordinary n) .initializing)

theorem initializeStep {fuel : Nat} (hl : Linker.initializeClass classes fuel w n = some w') :
    InitializeStep classes fuel w n w' := by
  unfold Linker.initializeClass at hl
  dsimp only at hl
  split_ifs at hl with hdone hlinked
  · cases hl
    exact .returns
  · replace hl := Option.some.inj hl
    simp only [Bool.false_eq_true, if_false] at hl
    split_ifs at hl with hs
    · exact hl ▸ .returns
    · exact hl ▸ .starts hlinked fun hi => hs (.inl hi)
  · obtain ⟨⟨failed, x⟩, hx, rfl⟩ := Option.map_eq_some_iff.mp hl
    dsimp only
    split_ifs with hf hs
    · exact .links hlinked hx
    · exact .links hlinked hx
    · obtain rfl : failed = false := by simpa using hf
      exact .linksAndStarts hlinked hx fun he => hs (.inr he)

/-- `Object`, the two interfaces of arrays, a class with a subclass, and a class that does not
verify with a subclass. -/
def sampleClasses : Classes where
  superClass n := if n = 0 then none else if n = 4 then some 3 else if n = 6 then some 5 else some 0
  interfaces _ := []
  isInterface n := n = 1 || n = 2
  verifies n := n ≠ 5
  object := 0
  cloneable := 1
  serializable := 2
  super_lt := sampleSuperClass_lt
  interface_lt := noInterface_lt

/-- The world after a row of steps. -/
def applyAll (classes : Classes) (fuel : Nat) : List Op → World → Option World
  | [], w => some w
  | op :: ops, w => (op.apply classes fuel w).bind (applyAll classes fuel ops)

/-- Any steps make a run. -/
theorem run_applyAll {fuel : Nat} : ∀ {ops : List Op} {w w' : World},
    Run classes (fun _ _ _ => True) w → applyAll classes fuel ops w = some w' →
    Run classes (fun _ _ _ => True) w'
  | [], _, _, run, h => by
    cases h
    exact run
  | _ :: _, _, _, run, h => by
    obtain ⟨x, hx, h⟩ := Option.bind_eq_some_iff.mp h
    exact run_applyAll (.step fuel run hx trivial) h

end BJvm.Linker
