import BJvm.Proofs.LoadingRuns

/-!
# What the loaders' tables bind

A table entry is written by `define_class` at its end, when other code may have bound the name
since the check at its start, and by `lookup_class` behind `loadClass`, which may return any class.
As long as neither happens, a name keeps the class that it is bound to, and that class has the name
(`bindingsProper_of_run`).
-/

namespace BJvm.Loading

variable {w w' : World} {t : ThreadId} {definer : ClassId → LoaderId} {c : ClassId} {name : Name}
  {cl : LoaderId} {rest : List Activation} {classpath : Name → Option (Except Name ClassFile)}

/-- A loader binds a name to one class for all time, the class has that name, a second definition
is a `LinkageError`, and the recording of initiating loaders has never left the chain and ends
within as many rounds as there are loaders. -/
structure BindingsProper (w : World) : Prop where
  once : ∀ {l n c c'}, (l, n, c) ∈ w.bound → (l, n, c') ∈ w.bound → c = c'
  inPlace : ∀ {l n c}, (l, n, c) ∈ w.bound ↔ w.initiating l n = some c
  named : ∀ {l n c}, (l, n, c) ∈ w.bound → (w.classes c).name = n
  onChain : w.leftChain = false
  ends : ∀ name c target cl fuel, cl < w.loaderCount → w.loaderCount < fuel →
    recordInitiating name c target fuel (some cl) w =
      recordInitiating name c target (w.loaderCount + 1) (some cl) w
  second : ∀ {l n c}, (l, n, c) ∈ w.bound → ∀ t rest file,
    defineClass w t rest l n file =
      w.raise t rest "java/lang/LinkageError" "Class already defined".toList

/-- The loader, and then its parents up to the loader of the class, have the name free or bound to
this class, which is its name. -/
inductive Delegates (w : World) (name : Name) (c : ClassId) : LoaderId → Prop
  | defining {cl : LoaderId} : (w.classes c).classloader = some cl → Delegates w name c cl
  | parent {cl p : LoaderId} : w.parent cl = some p →
      (w.initiating cl name = none ∨ w.initiating cl name = some c) →
      (w.classes c).name = name → Delegates w name c p → Delegates w name c cl

/-- What a step that ends a definition or a load must find: the name still free and the class of
that name; a class whose loader is the one asked or an ancestor, as it should be recorded. -/
def BindsProperly (t : ThreadId) (w : World) (e : Event) (_ : World) : Prop :=
  ∀ junk, e = .advance junk → match (w.thread t).control, (w.thread t).returned with
    | .resolveSupers cl chars cd [] :: _, none =>
      w.initiating cl chars = none ∧ (w.classes cd).name = chars
    | .awaitLoad cl _ classname _ dimensions :: _, some returned => cl ≠ bootstrapClassloader →
      if (w.thread t).exception = none then ∀ c, returned = some c → Delegates w classname c cl
      else dimensions ≠ none
    | _, _ => True

/-! ### The tables -/

structure BindingsInv (w : World) : Prop where
  inPlace : ∀ l n c, (l, n, c) ∈ w.bound ↔ w.initiating l n = some c
  named : ∀ l n c, (l, n, c) ∈ w.bound → c < w.classCount ∧ (w.classes c).name = n
  onChain : w.leftChain = false
  parent : ∀ l p, w.parent l = some p → p < l

/-- Parents are registered first, so the recording ends. -/
theorem recordInitiating_fuel {target : Option LoaderId} (hparent : ∀ l p, w.parent l = some p →
    p < l) {fuel fuel' : Nat} (hfuel : cl < fuel) (hfuel' : cl < fuel') :
    recordInitiating name c target fuel (some cl) w =
      recordInitiating name c target fuel' (some cl) w := by
  induction fuel generalizing fuel' cl w with
  | zero => exact absurd hfuel (Nat.not_lt_zero _)
  | succ fuel ih =>
    cases fuel' with
    | zero => exact absurd hfuel' (Nat.not_lt_zero _)
    | succ fuel' =>
      unfold recordInitiating
      split_ifs
      · rfl
      · cases hp : w.parent cl with
        | none => cases fuel <;> cases fuel' <;> rfl
        | some p =>
          have hlt := hparent cl p hp
          exact ih (w := w.bind cl name c) hparent (hlt.trans_le (Nat.le_of_lt_succ hfuel))
            (hlt.trans_le (Nat.le_of_lt_succ hfuel'))

theorem BindingsInv.proper (h : BindingsInv w) : BindingsProper w where
  once h₁ h₂ := Option.some.inj
    (((h.inPlace _ _ _).mp h₁).symm.trans ((h.inPlace _ _ _).mp h₂))
  inPlace := h.inPlace _ _ _
  named hm := (h.named _ _ _ hm).2
  onChain := h.onChain
  ends _ _ _ _ _ hcl hfuel :=
    recordInitiating_fuel h.parent (hcl.trans hfuel) (hcl.trans (Nat.lt_succ_self _))
  second hm t rest file := by
    unfold defineClass
    rw [(h.inPlace _ _ _).mp hm]

/-- The tables are as they were, and the classes have their names. -/
structure SameTables (w w' : World) : Prop where
  initiating : w'.initiating = w.initiating
  bound : w'.bound = w.bound
  leftChain : w'.leftChain = w.leftChain
  parent : w'.parent = w.parent
  count : w.classCount ≤ w'.classCount
  name : ∀ c < w.classCount, (w'.classes c).name = (w.classes c).name

namespace SameTables

variable {w'' : World}

theorem refl (w : World) : SameTables w w := ⟨rfl, rfl, rfl, rfl, le_rfl, fun _ _ => rfl⟩

theorem trans (h : SameTables w w') (h' : SameTables w' w'') : SameTables w w'' where
  initiating := h'.initiating.trans h.initiating
  bound := h'.bound.trans h.bound
  leftChain := h'.leftChain.trans h.leftChain
  parent := h'.parent.trans h.parent
  count := h.count.trans h'.count
  name c hc := (h'.name c (hc.trans_le h.count)).trans (h.name c hc)

theorem setThread (w : World) (t : ThreadId) (th : Thread) : SameTables w (w.setThread t th) :=
  ⟨rfl, rfl, rfl, rfl, le_rfl, fun _ _ => rfl⟩

theorem answer (w : World) (cl : LoaderId) (name : Name) (r : Option ClassId) :
    SameTables w (w.answer cl name r) :=
  ⟨rfl, rfl, rfl, rfl, le_rfl, fun _ _ => rfl⟩

theorem setInchoate (w : World) (name : Name) (loading : Bool) :
    SameTables w (w.setInchoate name loading) :=
  ⟨rfl, rfl, rfl, rfl, le_rfl, fun _ _ => rfl⟩

theorem setInfo (w : World) (c : ClassId) (i : Nat) (x : CpClassInfo) :
    SameTables w (w.setInfo c i x) :=
  ⟨rfl, rfl, rfl, rfl, le_rfl, fun d _ => World.setInfo_name w c i x d⟩

theorem allocate (w : World) (desc : Classdesc) : SameTables w (w.allocate desc) := by
  refine ⟨rfl, rfl, rfl, rfl, Nat.le_succ _, fun c hc => ?_⟩
  rw [World.classes_allocate, if_neg hc.ne]

theorem lookupFound (hinv : LoadingInv definer w) (c : ClassId) (n : Nat) :
    SameTables w (lookupFound w t rest cl name c n) := by
  have hd := hinv.pools.deriveArray c n
  obtain ⟨definer', -, hext⟩ := hd.pools
  unfold Loading.lookupFound
  refine trans ?_ ((answer _ cl name _).trans (setThread _ t _))
  exact ⟨hd.initiating, hd.bound, hd.leftChain, hd.parent, hext.count, hext.name⟩

theorem lookupFailed {classname : Name} {raise : Bool}
    (hstep : lookupFailed w t rest cl name classname raise = some w') : SameTables w w' := by
  unfold Loading.lookupFailed at hstep
  simp only [] at hstep
  split_ifs at hstep <;> simp only [Option.some.injEq] at hstep <;> subst hstep <;>
    exact (answer w cl name none).trans (setThread _ t _)

theorem lookupClass {raise : Bool} (hinv : LoadingInv definer w)
    (hstep : lookupClass classpath w t rest cl name raise = some w') : SameTables w w' := by
  unfold Loading.lookupClass at hstep
  split at hstep
  · rw [Option.map_eq_some_iff] at hstep
    obtain ⟨k, -, rfl⟩ := hstep
    exact lookupFound hinv k _
  · split at hstep
    · cases hstep
      exact lookupFound hinv _ _
    · simp only [] at hstep
      split_ifs at hstep
      · split at hstep
        · cases hstep
          exact (setInchoate w _ true).trans (setThread _ t _)
        · cases hstep
          exact (setInchoate w _ true).trans (setThread _ t _)
      · cases hstep
        exact (setInchoate w _ true).trans (setThread _ t _)

theorem resolveClassImpl {calls : List Activation} {request : Request}
    (hstep : resolveClassImpl w t calls request = some w') : SameTables w w' := by
  unfold Loading.resolveClassImpl at hstep
  rw [Option.map_eq_some_iff] at hstep
  obtain ⟨info, -, rfl⟩ := hstep
  split
  · exact setThread w t _
  · exact setThread w t _
  · exact (setInfo w _ _ _).trans (setThread _ t _)
  · have hasked : SameTables w { w with asked := request :: w.asked } :=
      ⟨rfl, rfl, rfl, rfl, le_rfl, fun _ _ => rfl⟩
    exact hasked.trans (setThread _ t _)

theorem resolveResume {request : Request} {returned : Option ClassId}
    (hstep : resolveResume w t rest request returned = some w') : SameTables w w' := by
  unfold Loading.resolveResume at hstep
  rw [Option.map_eq_some_iff] at hstep
  obtain ⟨info, -, rfl⟩ := hstep
  exact (setInfo w _ _ _).trans (setThread _ t _)

theorem defineClass (w : World) (chars : Name) (file : Except Name ClassFile) :
    SameTables w (defineClass w t rest cl chars file) := by
  unfold Loading.defineClass
  split
  · exact setThread w t _
  · exact setThread w t _
  · exact (allocate w _).trans (setThread _ t _)

theorem defineNext {chars : Name} {i : Nat} {todo : List Nat}
    (hstep : defineNext w t rest cl chars c (i :: todo) = some w') : SameTables w w' := by
  unfold Loading.defineNext at hstep
  rw [Option.bind_eq_some_iff] at hstep
  obtain ⟨info, -, hstep⟩ := hstep
  split_ifs at hstep
  · cases hstep
    exact setThread w t _
  · exact resolveClassImpl hstep

theorem defineResume {chars : Name} {todo : List Nat} {returned : Option ClassId}
    (hstep : defineResume w t rest cl chars c returned todo = some w') : SameTables w w' := by
  cases todo with
  | nil => cases hstep
  | cons i todo =>
    unfold Loading.defineResume at hstep
    rw [Option.map_eq_some_iff] at hstep
    obtain ⟨info, -, rfl⟩ := hstep
    split
    · exact setThread w t _
    · split_ifs
      · exact setThread w t _
      · exact setThread w t _

end SameTables

theorem World.bind_initiating (w : World) (cl : LoaderId) (name : Name) (c : ClassId)
    (l : LoaderId) (n : Name) : (w.bind cl name c).initiating l n =
      if l = cl ∧ n = name then some c else w.initiating l n := by
  unfold World.bind
  simp only [Function.update_apply]
  by_cases hl : l = cl
  · subst hl
    by_cases hn : n = name
    · simp [hn]
    · simp [hn]
  · simp [hl]

namespace BindingsInv

theorem mono (h : BindingsInv w) (hsame : SameTables w w') : BindingsInv w' where
  inPlace l n c := by
    rw [hsame.bound, hsame.initiating]
    exact h.inPlace l n c
  named l n c hm := by
    rw [hsame.bound] at hm
    obtain ⟨hlt, hname⟩ := h.named l n c hm
    exact ⟨hlt.trans_le hsame.count, (hsame.name c hlt).trans hname⟩
  onChain := hsame.leftChain.trans h.onChain
  parent l p hp := h.parent l p (hsame.parent ▸ hp)

/-- A name that is free, or bound to this class, is bound to it. -/
theorem bind (h : BindingsInv w) (hfree : w.initiating cl name = none ∨
    w.initiating cl name = some c) (hc : c < w.classCount) (hname : (w.classes c).name = name) :
    BindingsInv (w.bind cl name c) where
  inPlace l n d := by
    rw [World.bind_initiating]
    unfold World.bind
    simp only [List.mem_cons, Prod.mk.injEq]
    split_ifs with heq
    · obtain ⟨rfl, rfl⟩ := heq
      rw [Option.some.injEq]
      constructor
      · rintro (⟨-, -, rfl⟩ | hm)
        · rfl
        · rw [h.inPlace] at hm
          rcases hfree with hfree | hfree <;> rw [hfree] at hm
          · cases hm
          · exact Option.some.inj hm
      · rintro rfl
        exact Or.inl ⟨rfl, rfl, rfl⟩
    · rw [← h.inPlace, or_iff_right_iff_imp]
      exact fun h => absurd ⟨h.1, h.2.1⟩ heq
  named l n d hm := by
    rcases List.mem_cons.mp hm with heq | hm
    · cases heq
      exact ⟨hc, hname⟩
    · exact h.named l n d hm
  onChain := h.onChain
  parent := h.parent

end BindingsInv

/-! ### Recording -/

/-- What has been recorded at one loader does not hinder the next. -/
theorem Delegates.bind {l : LoaderId} (h : Delegates w name c l) (cl : LoaderId) :
    Delegates (w.bind cl name c) name c l := by
  induction h with
  | defining hl => exact .defining hl
  | @parent l p hp hfree hname _ ih =>
    refine .parent hp ?_ hname ih
    rw [World.bind_initiating]
    split_ifs
    · exact Or.inr rfl
    · exact hfree

/-- A recording that goes up to the loader of the class binds the name at every loader below. -/
theorem BindingsInv.recordInitiating (h : BindingsInv w) (hd : Delegates w name c cl)
    (hc : c < w.classCount) {fuel : Nat} (hfuel : cl < fuel) :
    BindingsInv (recordInitiating name c (w.classes c).classloader fuel (some cl) w) := by
  induction fuel generalizing cl w with
  | zero => exact absurd hfuel (Nat.not_lt_zero _)
  | succ fuel ih =>
    unfold Loading.recordInitiating
    split_ifs with heq
    · exact h
    · cases hd with
      | defining hl => exact absurd hl.symm heq
      | @parent _ p hp hfree hname hd =>
        have hlt := h.parent cl p hp
        rw [hp]
        exact ih (h.bind hfree hc hname) (hd.bind cl) hc
          (hlt.trans_le (Nat.le_of_lt_succ hfuel))

theorem recordInitiating_self {target : Option LoaderId} {fuel : Nat} (h : target = some cl) :
    recordInitiating name c target (fuel + 1) (some cl) w = w := by
  unfold recordInitiating
  rw [if_pos h.symm]

theorem Delegates.setInchoate (h : Delegates w name c cl) (n : Name) (loading : Bool) :
    Delegates (w.setInchoate n loading) name c cl := by
  induction h with
  | defining hl => exact .defining hl
  | parent hp hfree hname _ ih => exact .parent hp hfree hname ih

namespace BindingsInv

variable {classname chars : Name} {raise : Bool} {dimensions : Option Nat}
  {returned : Option ClassId} {junk : Nat × Option ClassId}

theorem lookupResume (h : BindingsInv w) (hinv : LoadingInv definer w)
    (hcontrol : (w.thread t).control = .awaitLoad cl name classname raise dimensions :: rest)
    (hreturned : (w.thread t).returned = some returned)
    (hbinds : cl ≠ bootstrapClassloader → if (w.thread t).exception = none then
      ∀ c, returned = some c → Delegates w classname c cl else dimensions ≠ none)
    (hstep : lookupResume w t rest cl name classname raise dimensions returned junk = some w') :
    BindingsInv w' := by
  have hok := hinv.threads t
  have hcl : cl < w.loaderCount := hok.head_ok hcontrol
  have hgot := hok.got
  rw [hcontrol, hreturned] at hgot
  have h' : BindingsInv (w.setInchoate classname false) := h.mono (.setInchoate w _ _)
  have hinv' : LoadingInv definer (w.setInchoate classname false) := hinv.of_tables _ _ _ _ _
  -- a class whose recording keeps the tables right
  have hfound : ∀ c, (BindingsInv (Loading.recordInitiating classname c
      ((w.setInchoate classname false).classes c).classloader
      ((w.setInchoate classname false).loaderCount + 1) (some cl)
      (w.setInchoate classname false))) → BindingsInv (Loading.lookupFound
        (Loading.recordInitiating classname c
          ((w.setInchoate classname false).classes c).classloader
          ((w.setInchoate classname false).loaderCount + 1) (some cl)
          (w.setInchoate classname false)) t rest cl name c (dimensions.getD junk.1)) := by
    intro c hrec
    obtain ⟨i, b, l, heq⟩ := recordInitiating_eq classname c
      ((w.setInchoate classname false).classes c).classloader
      ((w.setInchoate classname false).loaderCount + 1) (some cl) (w.setInchoate classname false)
    rw [heq] at hrec ⊢
    have hinv'' := hinv'.of_tables (w.setInchoate classname false).loaded i
      (w.setInchoate classname false).inchoate l b
    exact hrec.mono (.lookupFound hinv'' c _)
  unfold Loading.lookupResume at hstep
  by_cases hboot : cl = bootstrapClassloader
  · simp only [hboot, ne_eq, not_true_eq_false, false_and, if_false] at hstep
    cases returned with
    | none => exact h'.mono (.lookupFailed hstep)
    | some c =>
      cases hstep
      have hfound := hfound c
      rw [hboot] at hfound
      refine hfound ?_
      have htarget : ((w.setInchoate classname false).classes c).classloader =
          some bootstrapClassloader := hgot.2 hboot
      rw [recordInitiating_self htarget]
      exact h'
  · have hbinds := hbinds hboot
    simp only [ne_eq, hboot, not_false_eq_true, true_and] at hstep
    split_ifs at hbinds with hexc
    · simp only [hexc, not_true_eq_false, if_false] at hstep
      cases returned with
      | none => exact h'.mono (.lookupFailed hstep)
      | some c =>
        cases hstep
        exact hfound c (h'.recordInitiating ((hbinds c rfl).setInchoate _ _) hgot.1.1
          (hcl.trans (Nat.lt_succ_self _)))
    · simp only [hexc, not_false_eq_true, if_true, hbinds, if_false] at hstep
      exact h'.mono (.lookupFailed hstep)

/-- A definition ends with the name still free. -/
theorem publish (h : BindingsInv w) (hinv : LoadingInv definer w)
    (hcontrol : (w.thread t).control = .resolveSupers cl chars c [] :: rest)
    (hfree : w.initiating cl chars = none) (hname : (w.classes c).name = chars)
    (hstep : defineNext w t rest cl chars c [] = some w') : BindingsInv w' := by
  obtain ⟨-, hc, -⟩ := (hinv.threads t).head_ok hcontrol
  have hnames : ∀ d, ((w.setClass c ((w.classes c).publish c cl)).classes d).name =
      (w.classes d).name := by
    intro d
    unfold World.setClass
    simp only [Function.update_apply]
    split_ifs with hd
    · rw [hd]
      rfl
    · rfl
  have hset : SameTables w ((w.setClass c ((w.classes c).publish c cl)).load cl chars c) :=
    ⟨rfl, rfl, rfl, rfl, le_rfl, fun d _ => hnames d⟩
  unfold defineNext at hstep
  cases hstep
  exact ((h.mono hset).bind (Or.inl hfree) hc ((hnames c).trans hname)).mono (.setThread _ t _)

theorem advance (h : BindingsInv w) (hinv : LoadingInv definer w)
    (hbinds : BindsProperly t w (.advance junk) w')
    (hstep : advance classpath w t junk = some w') : BindingsInv w' := by
  have hbinds := hbinds junk rfl
  unfold Loading.advance at hstep
  split at hstep
  · exact h.mono (.lookupClass hinv hstep)
  · rename_i hcontrol hreturned
    rw [hcontrol, hreturned] at hbinds
    exact h.lookupResume hinv hcontrol hreturned hbinds hstep
  · exact h.mono (.resolveResume hstep)
  · cases hstep
    exact h.mono (.defineClass w _ _)
  · rename_i cl chars cd todo rest hcontrol hreturned
    cases todo with
    | nil =>
      rw [hcontrol, hreturned] at hbinds
      exact h.publish hinv hcontrol hbinds.1 hbinds.2 hstep
    | cons => exact h.mono (.defineNext hstep)
  · exact h.mono (.defineResume hstep)
  · exact h.mono (.resolveClassImpl hstep)
  · split_ifs at hstep
    · cases hstep
      exact h.mono (.setThread w t _)
    · cases hstep
      exact h.mono (.setThread w t _)
  · cases hstep
    exact h.mono (.setThread w t _)
  · cases hstep

theorem register (h : BindingsInv w) {parent : LoaderId} (hp : parent < w.loaderCount) :
    BindingsInv (w.register parent) where
  inPlace := h.inPlace
  named := h.named
  onChain := h.onChain
  parent l p hl := by
    unfold World.register at hl
    simp only [Function.update_apply] at hl
    split_ifs at hl with heq
    · rw [heq, ← Option.some.inj hl]
      exact hp
    · exact h.parent l p hl

theorem step {e : Event} (h : BindingsInv w) (hinv : LoadingInv definer w)
    (hbinds : BindsProperly t w e w') (hstep : step classpath w t e = some w') :
    BindingsInv w' := by
  cases e with
  | advance junk => exact h.advance hinv hbinds hstep
  | newLoader parent =>
    simp only [Loading.step] at hstep
    split_ifs at hstep with hp
    cases hstep
    exact h.register hp
  | resolveClass index =>
    simp only [Loading.step] at hstep
    split at hstep
    · exact h.mono (.resolveClassImpl hstep)
    · cases hstep
  | returns value exception =>
    simp only [Loading.step] at hstep
    split at hstep
    · split_ifs at hstep
      cases hstep
      exact h.mono (.setThread w t _)
    · cases hstep
  | catches =>
    simp only [Loading.step] at hstep
    split at hstep
    · cases hstep
      exact h.mono (.setThread w t _)
    · cases hstep
  | suspend =>
    simp only [Loading.step] at hstep
    split at hstep
    · split_ifs at hstep
      cases hstep
      exact h.mono (.setThread w t _)
    · cases hstep
  | outOfMemory =>
    simp only [Loading.step] at hstep
    split at hstep
    · cases hstep
      exact h.mono ((SameTables.answer w _ _ none).trans (.setThread _ t _))
    · cases hstep
  | _ =>
    simp only [Loading.step] at hstep
    split_ifs at hstep
    cases hstep
    exact h.mono (.setThread w t _)

theorem start : BindingsInv World.start where
  inPlace l n c := by
    unfold World.start
    simp
  named _ _ _ hm := absurd hm List.not_mem_nil
  onChain := rfl
  parent _ _ hp := by cases hp

end BindingsInv

/-- In a run whose definitions and loads end as `BindsProperly` says, a loader binds a name to one
class for ever, and that class has the name. -/
theorem bindingsProper_of_run (h : Run classpath BindsProperly w) : BindingsProper w := by
  suffices BindingsInv w from this.proper
  induction h with
  | start => exact .start
  | step t hrun hstep hbinds ih =>
    obtain ⟨definer, hinv⟩ := loadingInv_of_run hrun
    exact ih.step hinv hbinds hstep

/-! ### Examples -/

def plainFile (name : Char) : ClassFile where
  classInfos := [[name]]

/-- A class `A` whose superclass is `S`. -/
def subclassFile : ClassFile where
  classInfos := [['A'], ['S']]
  superClass := some 1

/-- The bootstrap class `L`, whose methods then run. -/
def loaderEvents : List (ThreadId × Event) :=
  [(0, .newLoader bootstrapClassloader),
    (0, .defineClass bootstrapClassloader ['L'] (.ok (plainFile 'L'))),
    (0, .advance (0, none)), (0, .advance (0, none)), (0, .invoke 9)]

/-- While `A` is being defined, `loadClass` of its superclass defines `A` too. -/
def reentrantEvents : List (ThreadId × Event) :=
  loaderEvents ++ [(0, .defineClass 1 ['A'] (.ok subclassFile)), (0, .advance (0, none)),
    (0, .advance (0, none)), (0, .advance (0, none)), (0, .invoke 9),
    (0, .defineClass 1 ['A'] (.ok (plainFile 'A'))), (0, .advance (0, none)),
    (0, .advance (0, none)), (0, .defineClass 1 ['S'] (.ok (plainFile 'S'))),
    (0, .advance (0, none)), (0, .advance (0, none)), (0, .returns (some 12) none),
    (0, .advance (0, none)), (0, .advance (0, none)), (0, .advance (0, none)),
    (0, .advance (0, none))]

/-- The name `A` is bound to the inner class and then to the outer one. -/
theorem reentrant_bindsTwice : ∃ w, Run (fun _ => none) (fun _ _ _ _ => True) w ∧
    (1, ['A'], 11) ∈ w.bound ∧ (1, ['A'], 10) ∈ w.bound ∧ w.initiating 1 ['A'] = some 10 ∧
    ¬ BindingsProper w := by
  obtain ⟨w, hw⟩ : ∃ w, stepAll (fun _ => none) .start reentrantEvents = some w := ⟨_, rfl⟩
  refine ⟨w, run_stepAll .start hw, ?_⟩
  cases hw
  have h₁ : ((1, ['A'], 11) : LoaderId × Name × ClassId) ∈
      [(1, ['A'], 10), (1, ['S'], 12), (1, ['A'], 11), (0, ['L'], 9)] := by decide
  have h₂ : ((1, ['A'], 10) : LoaderId × Name × ClassId) ∈
      [(1, ['A'], 10), (1, ['S'], 12), (1, ['A'], 11), (0, ['L'], 9)] := by decide
  refine ⟨h₁, h₂, rfl, fun h => ?_⟩
  have := h.once h₁ h₂
  cases this

/-- A loader that delegates to the bootstrap loader is recorded as initiating loader. -/
theorem delegated_bindingsProper : ∃ w, w.initiating 1 ['L'] = some 9 ∧ BindingsProper w := by
  have h₀ : Run (fun _ => none) BindsProperly .start := .start
  have h₁ := h₀.step (e := .newLoader bootstrapClassloader) 0 rfl fun _ h => by cases h
  have h₂ := h₁.step (e := .defineClass bootstrapClassloader ['L'] (.ok (plainFile 'L'))) 0 rfl
    fun _ h => by cases h
  have h₃ := h₂.step (e := .advance (0, none)) 0 rfl fun _ _ => trivial
  have h₄ := h₃.step (e := .advance (0, none)) 0 rfl fun _ _ => ⟨rfl, rfl⟩
  have h₅ := h₄.step (e := .invoke 9) 0 rfl fun _ h => by cases h
  have h₆ := h₅.step (e := .lookupClass 1 ['L'] true) 0 rfl fun _ h => by cases h
  have h₇ := h₆.step (e := .advance (0, none)) 0 rfl fun _ _ => trivial
  have h₈ := h₇.step (e := .invoke 9) 0 rfl fun _ h => by cases h
  have h₉ := h₈.step (e := .returns (some 9) none) 0 rfl fun _ h => by cases h
  have h := h₉.step (e := .advance (0, none)) 0 rfl fun _ _ _ c hc => by
    obtain rfl : 9 = c := Option.some.inj hc
    exact .parent rfl (Or.inl rfl) rfl (.defining rfl)
  exact ⟨_, rfl, bindingsProper_of_run h⟩

end BJvm.Loading
