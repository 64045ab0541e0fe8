import BJvm.Proofs.LinkRuns

/-!
# What linking does to the states of classes

Linking changes only classes that are loaded and nothing more: it links them or puts them into the
error state.  No class is linked above one that is only loaded.
-/

namespace BJvm.Linker

variable {classes : Classes} {w w' w₁ : World} {c : ClassId} {r : Bool} {n : Nat}

/-- Classes that are not loaded only keep their state, and the others are linked or fail. -/
structure StatesKept (w w' : World) : Prop where
  kept : ∀ n, w.state (.ordinary n) ≠ .loaded → w'.state (.ordinary n) = w.state (.ordinary n)
  linked : ∀ n, w'.state (.ordinary n) = w.state (.ordinary n) ∨
    w'.state (.ordinary n) = .linked ∨ w'.state (.ordinary n) = .linkageError

/-- The supers of a linked class are not loaded only. -/
def SupersNotLoaded (classes : Classes) (w : World) : Prop :=
  ∀ n, (w.state (.ordinary n)).isLinked → ∀ s, (classes.superClass n = some s ∨
    s ∈ classes.interfaces n) → w.state (.ordinary s) ≠ .loaded

/-- What a call of the linker does to the states. -/
structure LinkEffect (classes : Classes) (w : World) (c : ClassId) (r : Bool) (w' : World) :
    Prop where
  states : StatesKept w w'
  supers : SupersNotLoaded classes w → SupersNotLoaded classes w'
  notLoaded : ∀ n, c = .ordinary n → w'.state c ≠ .loaded
  failed : r = true → ∀ n, c = .ordinary n → w'.state c = .linkageError
  linked : r = false → ∀ n, c = .ordinary n → w.state c = .loaded → w'.state c = .linked

namespace StatesKept

theorem of_eq (h : ∀ n, w'.state (.ordinary n) = w.state (.ordinary n)) : StatesKept w w' :=
  ⟨fun n _ => h n, fun n => Or.inl (h n)⟩

theorem trans (h : StatesKept w w₁) (h' : StatesKept w₁ w') : StatesKept w w' where
  kept n hn := by
    have h₁ := h.kept n hn
    exact (h'.kept n (h₁ ▸ hn)).trans h₁
  linked n := by
    rcases h'.linked n with heq | heq
    · rw [heq]
      exact h.linked n
    · exact Or.inr heq

theorem ne_loaded (h : StatesKept w w') (hn : w.state (.ordinary n) ≠ .loaded) :
    w'.state (.ordinary n) ≠ .loaded := by
  rw [h.kept n hn]
  exact hn

end StatesKept

theorem SupersNotLoaded.of_eq (h : SupersNotLoaded classes w)
    (heq : ∀ n, w'.state (.ordinary n) = w.state (.ordinary n)) : SupersNotLoaded classes w' := by
  intro n hn s hs
  rw [heq] at hn ⊢
  exact h n hn s hs

theorem state_setState_of_ne {s : State} (h : ClassId.ordinary n ≠ c) :
    (w.setState c s).state (.ordinary n) = w.state (.ordinary n) := by
  rw [state_setState, if_neg h]

theorem state_setArrayStates_ordinary {e : Element} {s : State} :
    (w.setArrayStates e s).state (.ordinary n) = w.state (.ordinary n) := by
  rw [state_setArrayStates, if_neg]
  simp

/-- The links that the parts of `link_class` make. -/
def LinksWell (classes : Classes) (link : World → ClassId → Option (Bool × World)) : Prop :=
  ∀ {w c r w'}, link w c = some (r, w') → LinkEffect classes w c r w'

section

variable {link : World → ClassId → Option (Bool × World)} (hlink : LinksWell classes link)
include hlink

theorem linkArrayClass_effect (hc : ∀ n, ClassId.ordinary n ≠ c)
    (h : linkArrayClass classes link w c = some (r, w')) :
    StatesKept w w' ∧ (SupersNotLoaded classes w → SupersNotLoaded classes w') := by
  unfold linkArrayClass at h
  split_ifs at h
  · cases h
    exact ⟨.of_eq fun _ => rfl, fun h => h⟩
  · have hset : ∀ n, (w.setState c .linked).state (.ordinary n) = w.state (.ordinary n) :=
      fun n => state_setState_of_ne (hc n)
    simp only [] at h
    split at h
    · cases h
      have heq : ∀ n, (((w.setState c .linked).setupSuperHierarchy classes c).setUpFunctionTables
          classes c).state (.ordinary n) = w.state (.ordinary n) := fun n => by
        rw [state_setUpFunctionTables, state_setupSuperHierarchy, hset]
      exact ⟨.of_eq heq, fun h => h.of_eq heq⟩
    · rename_i base _
      split at h
      · cases h
      · rename_i failed w₁ hbase
        cases h
        have heff := hlink hbase
        have heq : ∀ n, (((w₁.setArrayStates base.element
            (if r then .linkageError else .linked)).setupSuperHierarchy classes
              c).setUpFunctionTables classes c).state (.ordinary n) = w₁.state (.ordinary n) :=
          fun n => by
            rw [state_setUpFunctionTables, state_setupSuperHierarchy,
              state_setArrayStates_ordinary]
        exact ⟨(StatesKept.of_eq hset).trans (heff.states.trans (.of_eq heq)),
          fun h => (heff.supers (h.of_eq hset)).of_eq heq⟩

theorem linkAll_effect {cs : List ClassId} (h : linkAll link w cs = some (r, w')) :
    StatesKept w w' ∧ (SupersNotLoaded classes w → SupersNotLoaded classes w') ∧
      (r = false → ∀ n, .ordinary n ∈ cs → w'.state (.ordinary n) ≠ .loaded) := by
  induction cs generalizing w with
  | nil =>
    unfold linkAll at h
    cases h
    exact ⟨.of_eq fun _ => rfl, fun h => h, fun _ _ hm => absurd hm List.not_mem_nil⟩
  | cons c cs ih =>
    unfold linkAll at h
    split at h
    · cases h
    · rename_i w₁ hc
      cases h
      have heff := hlink hc
      exact ⟨heff.states, heff.supers, fun h => by cases h⟩
    · rename_i w₁ hc
      have heff := hlink hc
      obtain ⟨hstates, hsupers, hall⟩ := ih h
      refine ⟨heff.states.trans hstates, fun h => hsupers (heff.supers h), fun hr n hm => ?_⟩
      rcases List.mem_cons.mp hm with rfl | hm
      · exact hstates.ne_loaded (heff.notLoaded n rfl)
      · exact hall hr n hm

theorem linkArrayType_effect (h : linkArrayType classes link w c = some (r, w')) :
    StatesKept w w' ∧ (SupersNotLoaded classes w → SupersNotLoaded classes w') := by
  unfold linkArrayType at h
  split at h
  · rename_i a ha
    refine linkArrayClass_effect hlink (fun n hn => ?_) h
    unfold World.arrayType at ha
    split_ifs at ha
    cases ha
    have := congrArg ClassId.dimensions hn
    simp at this
  · cases h
    exact ⟨.of_eq fun _ => rfl, fun h => h⟩

/-- The end of linking an ordinary class that was loaded and whose supers are not any more. -/
theorem linkOrdinary_effect (hloaded : w.state (.ordinary n) = .loaded)
    (hsup : ∀ s, (classes.superClass n = some s ∨ s ∈ classes.interfaces n) →
      w.state (.ordinary s) ≠ .loaded)
    (h : linkOrdinary classes link w (.ordinary n) = some (r, w')) :
    LinkEffect classes w (.ordinary n) r w' := by
  have hset : ∀ m, m ≠ n → (w.setState (.ordinary n) .linked).state (.ordinary m) =
      w.state (.ordinary m) := fun m hm => state_setState_of_ne (by simpa using hm)
  have hself : (w.setState (.ordinary n) .linked).state (.ordinary n) = .linked := by simp
  have hsupers₀ : SupersNotLoaded classes w →
      SupersNotLoaded classes (w.setState (.ordinary n) .linked) := by
    intro hs m hm s hms
    have hne : w.state (.ordinary s) ≠ .loaded := by
      rcases eq_or_ne m n with rfl | hmn
      · exact hsup s hms
      · rw [hset m hmn] at hm
        exact hs m hm s hms
    rcases eq_or_ne s n with rfl | hsn
    · rw [hself]
      simp
    · rwa [hset s hsn]
  unfold linkOrdinary at h
  split at h
  · rename_i b w₁ m harray helem
    cases helem
    obtain ⟨hstates, hsupers⟩ := linkArrayType_effect hlink harray
    have hn₁ : w₁.state (.ordinary n) = .linked := by
      rw [hstates.kept n (by rw [hself]; simp), hself]
    -- what the array classes do is kept, whatever the class itself becomes
    have hfinish : ∀ (w₂ : World) {s : State}, (s = .linked ∨ s = .linkageError) →
        w₂.state (.ordinary n) = s →
        (∀ m, m ≠ n → w₂.state (.ordinary m) = w₁.state (.ordinary m)) → StatesKept w w₂ ∧
          (SupersNotLoaded classes w → SupersNotLoaded classes w₂) := by
      intro w₂ s hs hself₂ hne₂
      refine ⟨⟨fun m hm => ?_, fun m => ?_⟩, fun hsup₀ m hm s' hms => ?_⟩
      · have hmn : m ≠ n := fun h => hm (h ▸ hloaded)
        rw [hne₂ m hmn, hstates.kept m (by rwa [hset m hmn]), hset m hmn]
      · rcases eq_or_ne m n with rfl | hmn
        · rw [hself₂]
          exact Or.inr hs
        · rw [hne₂ m hmn, ← hset m hmn]
          exact hstates.linked m
      · have h₁ : SupersNotLoaded classes w₁ := hsupers (hsupers₀ hsup₀)
        have hne : w₁.state (.ordinary s') ≠ .loaded := by
          rcases eq_or_ne m n with rfl | hmn
          · exact h₁ m (by rw [hn₁]; rfl) s' hms
          · rw [hne₂ m hmn] at hm
            exact h₁ m hm s' hms
        rcases eq_or_ne s' n with rfl | hsn
        · rw [hself₂]
          rcases hs with rfl | rfl <;> simp
        · rwa [hne₂ s' hsn]
    split_ifs at h
    · cases h
      obtain ⟨hs, hj⟩ := hfinish (w₁.setUpFunctionTables classes (.ordinary n)) (Or.inl rfl)
        (by rw [state_setUpFunctionTables, hn₁]) (fun m _ => state_setUpFunctionTables ..)
      have hn₂ : (w₁.setUpFunctionTables classes (.ordinary n)).state (.ordinary n) = .linked := by
        rw [state_setUpFunctionTables, hn₁]
      exact ⟨hs, hj, fun m _ => by simp [hn₂], fun h => (by cases h), fun _ _ _ _ => hn₂⟩
    · cases h
      obtain ⟨hs, hj⟩ := hfinish (w₁.setState (.ordinary n) .linkageError) (Or.inr rfl)
        (by simp) (fun m hm => state_setState_of_ne (by simpa using hm))
      exact ⟨hs, hj, fun m _ => by simp, fun _ m _ => by simp, fun h => by cases h⟩
  · rename_i helem
    cases helem
  · cases h

end

theorem eq_ordinary_of_kind (h : c.kind = .ordinary) : ∃ n, c = .ordinary n := by
  obtain ⟨⟨n⟩ | ⟨k⟩, d⟩ := c
  · cases d with
    | zero => exact ⟨n, rfl⟩
    | succ d => cases h
  · rcases d with - | - | d <;> cases h

theorem linkClass_effect (f : Nat) : LinksWell classes (linkClass classes f) := by
  induction f with
  | zero =>
    intro w c r w' h
    cases h
  | succ f ih =>
    intro w c r w' h
    unfold linkClass at h
    split at h
    · cases h
    rename_i failed w₂ hbody
    cases h
    suffices LinkEffect classes (w.record (.entered c)) c r w₂ from
      ⟨⟨this.states.kept, this.states.linked⟩, this.supers, this.notLoaded, this.failed, this.linked⟩
    -- the call itself is only recorded
    generalize w.record (.entered c) = w at hbody
    unfold linkBody at hbody
    by_cases hc : w.state c = .loaded
    swap
    · rw [if_pos hc] at hbody
      cases hbody
      exact ⟨.of_eq fun _ => rfl, fun h => h, fun _ _ => hc, fun h => (by cases h),
        fun _ _ _ h => absurd h hc⟩
    rw [if_neg (not_not.mpr hc)] at hbody
    -- a super that fails makes the class fail
    have hfail : ∀ {w₁ : World}, StatesKept w w₁ →
        (SupersNotLoaded classes w → SupersNotLoaded classes w₁) →
        LinkEffect classes w c true (w₁.setState c .linkageError) := by
      intro w₁ hstates hsupers
      have hstate : ∀ m, (w₁.setState c .linkageError).state (.ordinary m) =
          if .ordinary m = c then .linkageError else w₁.state (.ordinary m) := by simp
      refine ⟨⟨fun m hm => ?_, fun m => ?_⟩, fun hsup m hm s hms => ?_, ?_, ?_,
        fun h => by cases h⟩
      · have hmc : ClassId.ordinary m ≠ c := fun h => hm (h ▸ hc)
        rw [hstate, if_neg hmc]
        exact hstates.kept m hm
      · rw [hstate]
        split_ifs
        · exact Or.inr (Or.inr rfl)
        · exact hstates.linked m
      · rw [hstate] at hm ⊢
        split_ifs at hm
        · cases hm
        · split_ifs
          · simp
          · exact hsupers hsup m hm s hms
      · rintro m rfl
        simp
      · rintro - m rfl
        simp
    split at hbody
    · cases hbody
    · rename_i w₁ hsuper
      cases hbody
      obtain ⟨hstates, hsupers, -⟩ := linkAll_effect ih hsuper
      exact hfail hstates hsupers
    · rename_i w₁ hsuper
      obtain ⟨hstates₁, hsupers₁, hall₁⟩ := linkAll_effect ih hsuper
      have heq : ∀ m, (w₁.setupSuperHierarchy classes c).state (.ordinary m) =
          w₁.state (.ordinary m) := fun m => state_setupSuperHierarchy ..
      simp only [] at hbody
      split at hbody
      · cases hbody
      · rename_i w₃ hinterfaces
        cases hbody
        obtain ⟨hstates, hsupers, -⟩ := linkAll_effect ih hinterfaces
        exact hfail (hstates₁.trans ((StatesKept.of_eq heq).trans hstates))
          fun h => hsupers ((hsupers₁ h).of_eq heq)
      · rename_i w₃ hinterfaces
        obtain ⟨hstates, hsupers, hall⟩ := linkAll_effect ih hinterfaces
        have hstates₃ : StatesKept w w₃ :=
          hstates₁.trans ((StatesKept.of_eq heq).trans hstates)
        have hsupers₃ : SupersNotLoaded classes w → SupersNotLoaded classes w₃ :=
          fun h => hsupers ((hsupers₁ h).of_eq heq)
        by_cases hkind : c.kind = .ordinary
        · obtain ⟨n, rfl⟩ := eq_ordinary_of_kind hkind
          rw [if_neg (not_not.mpr hkind)] at hbody
          -- the class is still loaded, since its supers come before it
          have hsup : ∀ s, (classes.superClass n = some s ∨ s ∈ classes.interfaces n) →
              w₃.state (.ordinary s) ≠ .loaded := by
            rintro s (hs | hs)
            · refine (StatesKept.of_eq heq |>.trans hstates).ne_loaded (hall₁ rfl s ?_)
              rw [superOf_ordinary, hs]
              simp
            · refine hall rfl s ?_
              rw [Classes.interfacesOf]
              exact List.mem_map_of_mem hs
          have hn : w₃.state (.ordinary n) = .loaded := by
            rw [superOf_ordinary] at hsuper
            have h₁ := (linkAll_links (linkClass_links classes f) hsuper).untouched
              (e := .ordinary n) (fun m hm => Or.inr fun i hi => by
                cases hm
                exact super_lt_of_mem hi) 0
            have h₃ := (linkAll_links (linkClass_links classes f) hinterfaces).untouched
              (e := .ordinary n) (fun m hm => Or.inr fun i hi => by
                cases hm
                exact classes.interface_lt hi) 0
            rw [← hc, World.state, h₃, ← World.state, heq, World.state, h₁]
            rfl
          have heff := linkOrdinary_effect ih hn hsup hbody
          exact ⟨hstates₃.trans heff.states, fun h => heff.supers (hsupers₃ h), heff.notLoaded,
            heff.failed, fun hr m hm _ => heff.linked hr m hm (by cases hm; exact hn)⟩
        · rw [if_pos hkind] at hbody
          obtain ⟨hstates₄, hsupers₄⟩ := linkArrayClass_effect ih
            (fun m hm => hkind (by rw [← hm]; rfl)) hbody
          refine ⟨hstates₃.trans hstates₄, fun h => hsupers₄ (hsupers₃ h), fun m hm => ?_,
            fun _ m hm => ?_, fun _ m hm _ => ?_⟩ <;> exact absurd (by rw [hm]; rfl) hkind

/-- What linking a class and making an array class do to the states. -/
theorem apply_effect {f : Nat} {op : Op} (hop : (∃ c, op = .link c) ∨ ∃ c, op = .getOrCreateArray c)
    (h : op.apply classes f w = some w') :
    StatesKept w w' ∧ (SupersNotLoaded classes w → SupersNotLoaded classes w') := by
  rcases hop with ⟨c, rfl⟩ | ⟨c, rfl⟩
  · simp only [Op.apply] at h
    split_ifs at h
    rw [Option.map_eq_some_iff] at h
    obtain ⟨⟨r, w₁⟩, hl, rfl⟩ := h
    have heff := linkClass_effect f hl
    exact ⟨heff.states, heff.supers⟩
  · have hne : ∀ n, ClassId.ordinary n ≠ c.array := fun n hn => by
      have := congrArg ClassId.dimensions hn
      simp at this
    have hupdate : ∀ (d : Classdesc) (n : Nat), ({ w with cd := Function.update w.cd c.array d } :
        World).state (.ordinary n) = w.state (.ordinary n) := fun d n => by
      simp only [World.state]
      rw [Function.update_of_ne (hne n)]
    simp only [Op.apply] at h
    split_ifs at h
    unfold getOrCreateArrayClassdesc at h
    split_ifs at h
    · cases h
      exact ⟨.of_eq fun _ => rfl, fun h => h⟩
    · simp only [Option.map_some, Option.some.injEq] at h
      subst h
      have heq : ∀ n, (primitiveArrayClassdesc classes w c).state (.ordinary n) =
          w.state (.ordinary n) := fun n => by
        unfold primitiveArrayClassdesc
        simp only [state_setUpFunctionTables, state_setupSuperHierarchy]
        exact hupdate _ n
      exact ⟨.of_eq heq, fun h => h.of_eq heq⟩
    · rw [Option.map_eq_some_iff] at h
      obtain ⟨w₁, h₁, rfl⟩ := h
      unfold ordinaryArrayClassdesc at h₁
      simp only [Option.map_eq_some_iff] at h₁
      obtain ⟨w₂, h₂, rfl⟩ := h₁
      have heq : ∀ n, (w₂.setState c.array (w₂.state c)).state (.ordinary n) =
          w₂.state (.ordinary n) := fun n => state_setState_of_ne (hne n)
      suffices StatesKept w w₂ ∧ (SupersNotLoaded classes w → SupersNotLoaded classes w₂) from
        ⟨⟨(this.1.trans (.of_eq heq)).kept, (this.1.trans (.of_eq heq)).linked⟩,
          fun h => (this.2 h).of_eq heq⟩
      split_ifs at h₂
      · rw [Option.map_eq_some_iff] at h₂
        obtain ⟨⟨r, w₃⟩, hl, rfl⟩ := h₂
        have heff := linkClass_effect f hl
        exact ⟨(StatesKept.of_eq (hupdate _)).trans heff.states,
          fun h => heff.supers (h.of_eq (hupdate _))⟩
      · cases h₂
        exact ⟨.of_eq (hupdate _), fun h => h.of_eq (hupdate _)⟩

end BJvm.Linker
