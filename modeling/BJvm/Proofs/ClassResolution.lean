import BJvm.Proofs.LoadingRuns

/-!
# Who is asked for a class reference

Bytecode runs with a frame of its own class on top, and `define_class` passes its loader on, so
these ask the defining loader of the class that owns the reference.  The natives of
`java/lang/Class` have their own frame on top and ask the bootstrap loader
(`resolvedByDefiner_iff`).
-/

namespace BJvm.Loading

variable {w : World} {classpath : Name → Option (Except Name ClassFile)}
  {P : ThreadId → World → Event → World → Prop}

/-- Each class reference is looked up by the defining loader of its class only, and is resolved to
what a lookup by that loader has returned; the class itself needs no lookup. -/
structure ResolvedByDefiner (w : World) : Prop where
  asked : ∀ r ∈ w.asked, ∀ l, (w.classes r.owner).classloader = some l → r.loader = some l
  cached : ∀ {c i info d l}, w.info c i = some info → info.classdesc = some d →
    (w.classes c).classloader = some l →
    (i = (w.classes c).file.self ∧ d = c) ∨ (l, info.name, some d) ∈ w.answered

/-- The natives of `java/lang/Class` have looked up references of bootstrap classes only. -/
def NativesAskedForBootstrap (w : World) : Prop :=
  ∀ r ∈ w.asked, ∀ fn, r.origin = .native fn →
    (w.classes r.owner).classloader = some bootstrapClassloader

theorem LoadingInv.asked_definer {definer : ClassId → LoaderId} {l : LoaderId} {r : Request}
    (h : LoadingInv definer w) (hnative : NativesAskedForBootstrap w) (hr : r ∈ w.asked)
    (hl : (w.classes r.owner).classloader = some l) : r.loader = some l := by
  by_cases hfn : ∃ fn, r.origin = .native fn
  · obtain ⟨fn, hfn⟩ := hfn
    rw [(h.pools.byNative r hr fn hfn).1, ← hnative r hr fn hfn, hl]
  · simp only [not_exists] at hfn
    rw [h.pools.byClass r hr hfn, (h.pools.loader hl).1]

/-- Class references are resolved through the defining loader of their class if and only if the
natives of `java/lang/Class` have not looked up references of classes of other loaders. -/
theorem resolvedByDefiner_iff (h : Run classpath P w) :
    ResolvedByDefiner w ↔ NativesAskedForBootstrap w := by
  obtain ⟨definer, hinv⟩ := loadingInv_of_run h
  constructor
  · intro hres r hr fn hfn
    obtain ⟨hboot, hpub⟩ := hinv.pools.byNative r hr fn hfn
    obtain ⟨l, hl⟩ := Option.isSome_iff_exists.mp hpub
    rw [hl, ← hres.asked r hr l hl, hboot]
  · intro hnative
    refine ⟨fun r hr l hl => hinv.asked_definer hnative hr hl, fun {c i info d l} hi hd hl => ?_⟩
    refine (hinv.pools.cached hi hd).imp_right ?_
    rintro ⟨r, hr, rfl, -, l', hl', hmem⟩
    have : some l' = some l := hl'.symm.trans (hinv.asked_definer hnative hr hl)
    rwa [Option.some.inj this] at hmem

/-- A class `A` that permits a subclass `B`. -/
def sealedFile : ClassFile where
  classInfos := [['A'], ['B']]
  permittedSubclasses := some [1]

/-- `A` is defined by a loader of its own, and one of its methods asks for its permitted
subclasses. -/
def sealedEvents : List (ThreadId × Event) :=
  [(0, .newLoader bootstrapClassloader), (0, .defineClass 1 ['A'] (.ok sealedFile)),
    (0, .advance (0, none)), (0, .advance (0, none)), (0, .invoke 9),
    (0, .classNative .getPermittedSubclasses 9), (0, .advance (0, none))]

/-- What the entry of `B` holds when the bootstrap loader has not found it. -/
def notFound : CpClassInfo where
  name := ['B']
  vmObject := some (.vm "java/lang/ClassNotFoundException" ['B'])

/-- The reference to `B` is looked up by the bootstrap loader, which has no such class, and the
failure is what every later resolution gets. -/
theorem sealed_asksBootstrap : ∃ w, Run (fun _ => none) (fun _ _ _ _ => True) w ∧
    (w.classes 9).classloader = some 1 ∧ w.info 9 1 = some notFound ∧ ¬ ResolvedByDefiner w := by
  obtain ⟨w, hw⟩ : ∃ w, stepAll (fun _ => none) .start (sealedEvents ++
      [(0, .advance (0, none)), (0, .advance (0, none)), (0, .advance (0, none))]) = some w :=
    ⟨_, rfl⟩
  refine ⟨w, run_stepAll .start hw, ?_⟩
  cases hw
  refine ⟨rfl, rfl, fun h => ?_⟩
  have := h.asked _ List.mem_cons_self 1 rfl
  cases this

/-- When the bytecode of `A` resolves the entry instead, the loader of `A` is asked. -/
theorem sealed_asksDefiner : ∃ w, (∃ r ∈ w.asked, r.owner = 9 ∧ r.loader = some 1) ∧
    ResolvedByDefiner w := by
  obtain ⟨w, hw⟩ : ∃ w, stepAll (fun _ => none) .start
      (sealedEvents.take 5 ++ [(0, .resolveClass 1)]) = some w := ⟨_, rfl⟩
  refine ⟨w, ?_, (resolvedByDefiner_iff (run_stepAll .start hw)).mpr fun r hr fn hfn => ?_⟩
  · cases hw
    exact ⟨_, List.mem_cons_self, rfl, rfl⟩
  · cases hw
    obtain rfl := List.mem_singleton.mp hr
    cases hfn

end BJvm.Loading
