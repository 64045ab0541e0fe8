import BJvm.Interpreter.Invokespecial
import BJvm.Proofs.MethodResolution

/-!
# What `invokespecial` calls

The rule is the resolved method, or, where it looks above the current class, the nearest instance
method of the classes from its superclass on.  The code looks above the current class if the *caller*
is no constructor and the class of the *resolved method* is a superclass, and takes the nearest
declaration, static or not (`impl_above`); otherwise it calls the resolved method (`impl_kept`).
-/

namespace BJvm.Interp

open Linkage Relation Graph

variable {classes : Nat → Classdesc} {linked : List Nat} {t : Tables} {accSuper : Nat → Bool}
  {name descriptor : List Char} {b c d symbolic receiver n fuel : Nat} {method resolved x y : MethodPtr}

/-! ### The display of superclasses -/

theorem hierarchy_foldl {α : Type} {f : Tables → α → Tables}
    (hf : ∀ t a, (f t a).hierarchy = t.hierarchy) :
    ∀ (l : List α) (t : Tables), (l.foldl f t).hierarchy = t.hierarchy
  | [], _ => rfl
  | a :: l, t => (hierarchy_foldl hf l (f t a)).trans (hf t a)

theorem hierarchy_linkClass (classes : Nat → Classdesc) (t : Tables) (c : Nat) :
    (linkClass classes t c).hierarchy =
      Function.update t.hierarchy c ((classes c).superClass.elim [] t.hierarchy ++ [c]) := by
  have hown : ∀ t : Tables, (if (classes c).accessFlags.isInterface then pushOwnItable classes c t
      else t).hierarchy = t.hierarchy := fun t => by split_ifs <;> rfl
  have hnew : ∀ t : Tables, (pushNewMethods classes c t).hierarchy = t.hierarchy := fun t => by
    rw [pushNewMethods]
    refine hierarchy_foldl (fun t m => ?_) _ _
    split_ifs <;> rfl
  have hcopy : ∀ (slots : List MethodPtr) (t : Tables),
      (copyVtable classes c slots t).hierarchy = t.hierarchy := fun slots t => by
    refine hierarchy_foldl (fun t s => ?_) slots t
    split
    · split_ifs <;> rfl
    · rfl
  rw [linkClass, setUpFunctionTables, hnew, hown]
  cases hs : (classes c).superClass with
  | none => rw [setupSuperHierarchy, hs, Option.elim_none]
  | some b =>
    have hitables : ∀ t : Tables, (setupItables classes b c t).hierarchy = t.hierarchy :=
      fun _ => rfl
    simp only [hitables, hcopy]
    rw [setupSuperHierarchy, hs, Option.elim_some]

theorem linked_parent (h : Linked classes linked t) : ∀ c ∈ linked, ∀ d, Parent classes c d →
    d ∈ linked := by
  induction h with
  | nil => exact fun c hc => absurd hc List.not_mem_nil
  | @link linked t cd _ _ hsuper hiface ih =>
    intro c hc d hd
    rcases List.mem_cons.mp hc with rfl | hc
    · refine List.mem_cons_of_mem _ ?_
      rcases hd with hd | hd
      · exact hsuper d hd
      · exact hiface d hd
    · exact List.mem_cons_of_mem _ (ih c hc d hd)

theorem hierarchy_eq (h : Linked classes linked t) : ∀ c ∈ linked,
    t.hierarchy c = (classes c).superClass.elim [] t.hierarchy ++ [c] := by
  induction h with
  | nil => exact fun c hc => absurd hc List.not_mem_nil
  | @link linked t cd h hnew hsuper _ ih =>
    have hkeep : ∀ d ∈ linked, (linkClass classes t cd).hierarchy d = t.hierarchy d :=
      fun d hd => by
        have hne : d ≠ cd := fun heq => hnew (heq ▸ hd)
        rw [hierarchy_linkClass, Function.update_of_ne hne]
    -- the superclasses of the linked classes are linked
    have helim : ∀ c, (∀ b, (classes c).superClass = some b → b ∈ linked) →
        (classes c).superClass.elim [] (linkClass classes t cd).hierarchy =
          (classes c).superClass.elim [] t.hierarchy := fun c hc => by
      rcases hs : (classes c).superClass with _ | b
      · rfl
      · exact hkeep b (hc b hs)
    intro c hc
    rcases List.mem_cons.mp hc with rfl | hc
    · rw [helim c hsuper, hierarchy_linkClass, Function.update_self]
    · rw [helim c fun b hb => linked_parent h c hc b (.inl hb), hkeep c hc, ih c hc]

/-- The display of a class ends in the class, and begins with that of each class in it, which are
its superclasses. -/
theorem hierarchy_spec (h : Linked classes linked t) : ∀ {n c : Nat},
    Within (Parent classes) n c → c ∈ linked →
    (∀ x, x ∈ t.hierarchy c ↔ ReflTransGen (SuperOf classes) c x) ∧
      ∀ x ∈ t.hierarchy c, t.hierarchy x <+: t.hierarchy c
  | _, c, .mk hw, hc => by
    have heq := hierarchy_eq h c hc
    rcases hs : (classes c).superClass with _ | b
    · rw [hs, Option.elim_none, List.nil_append] at heq
      rw [heq]
      refine ⟨fun x => ?_, fun x hx => ?_⟩
      · rw [List.mem_singleton, ReflTransGen.cases_head_iff]
        refine ⟨fun hx => .inl hx.symm, ?_⟩
        rintro (rfl | ⟨b, hb, -⟩)
        · rfl
        · exact absurd (hs.symm.trans hb) (by simp)
      · obtain rfl := List.mem_singleton.mp hx
        exact ⟨[], by rw [heq, List.append_nil]⟩
    · obtain ⟨ih₁, ih₂⟩ := hierarchy_spec h (hw b (.inl hs)) (linked_parent h c hc b (.inl hs))
      rw [hs, Option.elim_some] at heq
      refine ⟨fun x => ?_, fun x hx => ?_⟩
      · rw [heq, List.mem_append, List.mem_singleton, ih₁]
        constructor
        · rintro (hx | rfl)
          · exact .head hs hx
          · exact .refl
        · intro hx
          rcases ReflTransGen.cases_head hx with rfl | ⟨b', hb', hx⟩
          · exact .inr rfl
          · exact .inl ((Option.some.inj (hs.symm.trans hb')) ▸ hx)
      · rw [heq, List.mem_append, List.mem_singleton] at hx
        rcases hx with hx | rfl
        · rw [heq]
          exact (ih₂ x hx).trans (List.prefix_append _ _)
        · exact List.prefix_rfl

theorem instanceofSuper_iff (h : Linked classes linked t) (hc : c ∈ linked) (hd : d ∈ linked) :
    instanceofSuper t c d = true ↔ ReflTransGen (SuperOf classes) c d := by
  obtain ⟨hmem, hprefix⟩ := hierarchy_spec h (within_of_linked h c hc) hc
  have heq := hierarchy_eq h d hd
  rw [← hmem, instanceofSuper]
  simp only [Bool.and_eq_true, decide_eq_true_eq]
  constructor
  · exact fun h => List.mem_of_getElem? h.2
  · intro hx
    obtain ⟨rest, hrest⟩ := hprefix d hx
    rw [← hrest, heq]
    simp

/-! ### The rule -/

section

variable (classes : Nat → Classdesc) (accSuper : Nat → Bool) (method resolved : MethodPtr)
  (symbolic : Nat)

/-- An instance method of `c` with the name and descriptor of the resolved method. -/
def DeclaresInstance (c : Nat) (x : MethodPtr) : Prop :=
  x.myClass = c ∧ Declared classes x ∧ SameSignature classes x resolved ∧
    (methodAt classes x).accessFlags.isStatic = false

/-- The nearest such method from `c` on upwards. -/
inductive NearestInstance : Nat → MethodPtr → Prop
  | here {c : Nat} {x : MethodPtr} : DeclaresInstance classes resolved c x → NearestInstance c x
  | up {c b : Nat} {x : MethodPtr} : (∀ y, ¬ DeclaresInstance classes resolved c y) →
      SuperOf classes c b → NearestInstance b x → NearestInstance c x

/-- The method is looked up from the superclass of the current class on: the resolved method is no
instance initialization method, and the symbolic reference names a superclass. -/
structure LooksAbove : Prop where
  notInit : (methodAt classes resolved).isCtor = false
  notInterface : (classes symbolic).accessFlags.isInterface = false
  superclass : TransGen (SuperOf classes) method.myClass symbolic
  accSuper : accSuper method.myClass = true

/-- The resolved method is an instance method, and an instance initialization method is that of the
class that the reference names. -/
structure Callable : Prop where
  isStatic : (methodAt classes resolved).accessFlags.isStatic = false
  ofSymbolic : (methodAt classes resolved).isCtor = true → resolved.myClass = symbolic

/-- A maximally specific method for the class `b` that is not abstract. -/
abbrev DefaultFor (b : Nat) (x : MethodPtr) : Prop :=
  Default classes (methodAt classes resolved).name (methodAt classes resolved).unparsedDescriptor b x

/-- The method that the rule selects; it selects none where it throws. -/
inductive SelectedSpecial : MethodPtr → Prop
  | resolved : Callable classes resolved symbolic →
      ¬ LooksAbove classes accSuper method resolved symbolic → SelectedSpecial resolved
  | nearest {b : Nat} {x : MethodPtr} : Callable classes resolved symbolic →
      LooksAbove classes accSuper method resolved symbolic → SuperOf classes method.myClass b →
      NearestInstance classes resolved b x → SelectedSpecial x
  | default {b : Nat} {x : MethodPtr} : Callable classes resolved symbolic →
      LooksAbove classes accSuper method resolved symbolic → SuperOf classes method.myClass b →
      (∀ y, ¬ NearestInstance classes resolved b y) → DefaultFor classes resolved b x →
      (∀ y, DefaultFor classes resolved b y → y = x) → SelectedSpecial x

/-- The selected method is called, or found abstract; if there is none, none is called. -/
def RunsSelected (outcome : Outcome) : Prop :=
  (∃ x, SelectedSpecial classes accSuper method resolved symbolic x ∧
      outcome = callCandidate classes x) ∨
    (∀ x, ¬ SelectedSpecial classes accSuper method resolved symbolic x) ∧
      ∀ x, outcome ≠ .invoke x

/-- The caller is no constructor, and the resolved method is in a superclass of its class. -/
def StartsAbove : Prop :=
  (methodAt classes method).isCtor = false ∧
    (classes resolved.myClass).accessFlags.isInterface = false ∧
    TransGen (SuperOf classes) method.myClass resolved.myClass

/-- The nearest declaration of the resolved method's name and descriptor, static or not. -/
abbrev NearestDeclaration (b : Nat) (x : MethodPtr) : Prop :=
  Nearest classes (methodAt classes resolved).name (methodAt classes resolved).unparsedDescriptor b x

/-- When the code calls what the rule selects. -/
structure SelectsRight : Prop where
  /-- A method that the rule does not call is abstract, and so is what is found in its place. -/
  uncallable : ¬ Callable classes resolved symbolic →
    (StartsAbove classes method resolved → ∀ b y, SuperOf classes method.myClass b →
      NearestDeclaration classes resolved b y → (methodAt classes y).accessFlags.isAbstract = true) ∧
    (¬ StartsAbove classes method resolved →
      (methodAt classes resolved).accessFlags.isAbstract = true)
  /-- No class between the current one and that of the resolved method redeclares this. -/
  redeclared : Callable classes resolved symbolic →
    ¬ LooksAbove classes accSuper method resolved symbolic → StartsAbove classes method resolved →
    ∀ x, Declared classes x → SameSignature classes x resolved →
      TransGen (SuperOf classes) method.myClass x.myClass →
      ¬ TransGen (SuperOf classes) x.myClass resolved.myClass
  /-- The nearest declaration above the current class is that of an instance method. -/
  above : Callable classes resolved symbolic →
    LooksAbove classes accSuper method resolved symbolic → StartsAbove classes method resolved →
    ∀ b y, SuperOf classes method.myClass b → NearestDeclaration classes resolved b y →
      (methodAt classes y).accessFlags.isStatic = false
  /-- No class above the current one has another instance method, and if none has any, the resolved
  method is the one maximally specific method, or abstract where there is not exactly one. -/
  kept : Callable classes resolved symbolic →
    LooksAbove classes accSuper method resolved symbolic → ¬ StartsAbove classes method resolved →
    ∀ b, SuperOf classes method.myClass b →
      (∀ x, NearestInstance classes resolved b x → x = resolved) ∧
      ((∀ x, ¬ NearestInstance classes resolved b x) →
        (DefaultFor classes resolved b resolved ∧
          ∀ y, DefaultFor classes resolved b y → y = resolved) ∨
        (¬ ∃! y, DefaultFor classes resolved b y) ∧
          (methodAt classes resolved).accessFlags.isAbstract = true)

end

/-! ### Declarations above the current class -/

theorem declaresInstance_iff (hw : WellFormedMethods classes) (hR : Declared classes resolved)
    (hc : ReflTransGen (SuperOf classes) c resolved.myClass) :
    DeclaresInstance classes resolved c x ↔
      lookupOwn classes c (methodAt classes resolved).name
          (methodAt classes resolved).unparsedDescriptor = some x ∧
        (methodAt classes x).accessFlags.isStatic = false := by
  rw [lookupOwn_iff hw hR hc, DeclaresInstance, and_assoc, and_assoc]

/-- From a subclass of the resolved method's class on there is a nearest declaration. -/
theorem nearestDeclaration_exists (hw : WellFormedMethods classes) (hR : Declared classes resolved)
    (hc : ReflTransGen (SuperOf classes) c resolved.myClass) :
    ∃ y, NearestDeclaration classes resolved c y ∧ ReflTransGen (SuperOf classes) c y.myClass ∧
      ReflTransGen (SuperOf classes) y.myClass resolved.myClass ∧ Declared classes y ∧
      SameSignature classes y resolved := by
  induction hc using ReflTransGen.head_induction_on with
  | refl =>
    have ho := (lookupOwn_iff hw hR .refl).mpr ⟨rfl, hR, rfl, rfl⟩
    exact ⟨resolved, .here ho, .refl, .refl, hR, rfl, rfl⟩
  | @head c b hcb hb ih =>
    rcases ho : lookupOwn classes c (methodAt classes resolved).name
      (methodAt classes resolved).unparsedDescriptor with _ | y
    · obtain ⟨y, hn, hby, hy⟩ := ih
      exact ⟨y, .up ho hcb hn, .head hcb hby, hy⟩
    · obtain ⟨rfl, hy⟩ := (lookupOwn_iff hw hR (.head hcb hb)).mp ho
      exact ⟨y, .here ho, .refl, .head hcb hb, hy⟩

/-- No class before the nearest declaration declares the method. -/
theorem nearest_before (h : Nearest classes name descriptor c y)
    (hd : ReflTransGen (SuperOf classes) c d) (ho : lookupOwn classes d name descriptor = some x) :
    ReflTransGen (SuperOf classes) y.myClass d := by
  induction h with
  | here hy => rwa [(lookupOwn_some hy).1]
  | up hnone hs _ ih =>
    rcases ReflTransGen.cases_head hd with rfl | ⟨b, hb, hd⟩
    · exact absurd (hnone.symm.trans ho) (by simp)
    · exact ih ((Option.some.inj (hs.symm.trans hb)) ▸ hd)

theorem nearestInstance_of_declaration (hw : WellFormedMethods classes)
    (hR : Declared classes resolved) (h : NearestDeclaration classes resolved c y)
    (hc : ReflTransGen (SuperOf classes) c resolved.myClass)
    (hy : ReflTransGen (SuperOf classes) y.myClass resolved.myClass)
    (hs : (methodAt classes y).accessFlags.isStatic = false) :
    NearestInstance classes resolved c y := by
  induction h with
  | here ho => exact .here ((declaresInstance_iff hw hR hc).mpr ⟨ho, hs⟩)
  | @up c b y ho hsuper hn ih =>
    -- the class is not that of the resolved method, which declares it
    have hb : ReflTransGen (SuperOf classes) b resolved.myClass := by
      rcases ReflTransGen.cases_head hc with rfl | ⟨b', hb', hb⟩
      · exact absurd (ho.symm.trans ((lookupOwn_iff hw hR .refl).mpr ⟨rfl, hR, rfl, rfl⟩)) (by simp)
      · exact (Option.some.inj (hsuper.symm.trans hb')) ▸ hb
    refine .up (fun x hx => ?_) hsuper (ih hb hy hs)
    exact absurd (ho.symm.trans ((declaresInstance_iff hw hR hc).mp hx).1) (by simp)

theorem nearestInstance_exists (hR : Declared classes resolved)
    (hs : (methodAt classes resolved).accessFlags.isStatic = false)
    (hc : ReflTransGen (SuperOf classes) c resolved.myClass) :
    ∃ x, NearestInstance classes resolved c x := by
  induction hc using ReflTransGen.head_induction_on with
  | refl => exact ⟨resolved, .here ⟨rfl, hR, ⟨rfl, rfl⟩, hs⟩⟩
  | @head c b hcb _ ih =>
    by_cases h : ∃ x, DeclaresInstance classes resolved c x
    · obtain ⟨x, hx⟩ := h
      exact ⟨x, .here hx⟩
    · obtain ⟨x, hx⟩ := ih
      exact ⟨x, .up (not_exists.mp h) hcb hx⟩

theorem NearestInstance.unique (hw : WellFormedMethods classes)
    (h : NearestInstance classes resolved c x) (h' : NearestInstance classes resolved c y) :
    y = x := by
  induction h with
  | here hx =>
    cases h' with
    | here hy =>
      exact hw.distinct hy.2.1 hx.2.1 (hy.1.trans hx.1.symm)
        ⟨hy.2.2.1.1.trans hx.2.2.1.1.symm, hy.2.2.1.2.trans hx.2.2.1.2.symm⟩
    | up hno _ _ => exact absurd hx (hno _)
  | up hno hs _ ih =>
    cases h' with
    | here hy => exact absurd hy (hno _)
    | up _ hs' hy => exact ih ((Option.some.inj (hs.symm.trans hs')) ▸ hy)

theorem NearestInstance.isStatic (h : NearestInstance classes resolved c x) :
    (methodAt classes x).accessFlags.isStatic = false := by
  induction h with
  | here hx => exact hx.2.2.2
  | up _ _ _ ih => exact ih

/-! ### What the code calls -/

theorem callCandidate_inj (h : callCandidate classes x = callCandidate classes y) : x = y := by
  simp only [callCandidate] at h
  split_ifs at h <;> cases h <;> rfl

theorem callCandidate_ne_invoke : (∀ y, callCandidate classes x ≠ .invoke y) ↔
    (methodAt classes x).accessFlags.isAbstract = true := by
  rw [callCandidate]
  split_ifs with h
  · simp [h]
  · simp [h]

theorem startsAtSuper_iff (h : Linked classes linked t) (hD : method.myClass ∈ linked)
    (hK : resolved.myClass ∈ linked) :
    startsAtSuper classes t method resolved = true ↔ StartsAbove classes method resolved := by
  have hne : method.myClass ≠ resolved.myClass ∧
      ReflTransGen (SuperOf classes) method.myClass resolved.myClass ↔
      TransGen (SuperOf classes) method.myClass resolved.myClass := by
    rw [reflTransGen_iff_eq_or_transGen]
    refine ⟨fun ⟨hne, h⟩ => h.resolve_left hne.symm, fun ht => ⟨fun heq => ?_, .inr ht⟩⟩
    have hirr := ((within_of_linked h _ hD).of_imp fun _ _ => Or.inl).irrefl
    rw [← heq] at ht
    exact hirr ht
  rw [startsAtSuper, StartsAbove, ← hne, ← instanceofSuper_iff h hD hK]
  simp

theorem lookupMethod_classes (fuel c : Nat) :
    lookupMethod classes name descriptor fuel c true false =
      searchClasses classes name descriptor true fuel c := by
  cases fuel with
  | zero => rfl
  | succ fuel => rw [lookupMethod, if_neg Bool.false_ne_true, Option.or_none]

/-- The resolved method is called where the lookup starts in its own class. -/
theorem impl_kept (hw : WellFormedMethods classes) (h : Linked classes linked t)
    (hfuel : linked.length ≤ fuel) (hD : method.myClass ∈ linked)
    (hK : resolved.myClass ∈ linked) (hR : Declared classes resolved)
    (hstart : ¬ StartsAbove classes method resolved) :
    invokespecialImpl classes t fuel method (some receiver) (some resolved) =
      callCandidate classes resolved := by
  have hon : lookupOn classes t method resolved = resolved.myClass :=
    if_neg ((startsAtSuper_iff h hD hK).not.mpr hstart)
  have hfound : searchClasses classes (methodAt classes resolved).name
      (methodAt classes resolved).unparsedDescriptor true fuel resolved.myClass = some resolved :=
    (searchClasses_eq_some (within_of_linked h _ hK) hfuel).mpr
      (.here ((lookupOwn_iff hw hR .refl).mpr ⟨rfl, hR, rfl, rfl⟩))
  simp only [invokespecialImpl, hon, lookupMethod_classes, hfound]

/-- Above the current class the nearest declaration is called. -/
theorem impl_above (hw : WellFormedMethods classes) (h : Linked classes linked t)
    (hfuel : linked.length ≤ fuel) (hD : method.myClass ∈ linked)
    (hK : resolved.myClass ∈ linked) (hR : Declared classes resolved)
    (hstart : StartsAbove classes method resolved) :
    ∃ b y, SuperOf classes method.myClass b ∧
      ReflTransGen (SuperOf classes) b resolved.myClass ∧
      NearestDeclaration classes resolved b y ∧ ReflTransGen (SuperOf classes) b y.myClass ∧
      ReflTransGen (SuperOf classes) y.myClass resolved.myClass ∧ Declared classes y ∧
      SameSignature classes y resolved ∧
      invokespecialImpl classes t fuel method (some receiver) (some resolved) =
        callCandidate classes y := by
  obtain ⟨b, hb, hbK⟩ := TransGen.head'_iff.mp hstart.2.2
  have hon : lookupOn classes t method resolved = b := by
    rw [lookupOn, if_pos ((startsAtSuper_iff h hD hK).mpr hstart), show _ = some b from hb,
      Option.getD_some]
  obtain ⟨y, hy, hby, hyK, hdecl, hsig⟩ := nearestDeclaration_exists hw hR hbK
  have hfound : searchClasses classes (methodAt classes resolved).name
      (methodAt classes resolved).unparsedDescriptor true fuel b = some y :=
    (searchClasses_eq_some (within_of_linked h b (linked_parent h _ hD b (.inl hb))) hfuel).mpr hy
  refine ⟨b, y, hb, hbK, hy, hby, hyK, hdecl, hsig, ?_⟩
  simp only [invokespecialImpl, hon, lookupMethod_classes, hfound]

/-! ### When that is the method selected -/

theorem linked_reaches (h : Linked classes linked t) (hc : c ∈ linked)
    (hr : ReflTransGen (Parent classes) c d) : d ∈ linked := by
  induction hr with
  | refl => exact hc
  | tail _ hd ih => exact linked_parent h _ ih _ hd

theorem linked_resolved (h : Linked classes linked t) (hS : symbolic ∈ linked)
    (hfuel : linked.length ≤ fuel)
    (hR : lookupMethod classes name descriptor fuel symbolic true true = some resolved) :
    Declared classes resolved ∧ resolved.myClass ∈ linked := by
  have hw := within_of_linked h _ hS
  rw [lookupMethod_eq hw hfuel, Option.or_eq_some_iff] at hR
  rcases hR with hR | ⟨-, hR⟩
  · have hn := (searchClasses_eq_some hw hfuel).mp hR
    have hreach := hn.reaches
    refine ⟨?_, linked_reaches h hS (ReflTransGen.mono (fun _ _ => Or.inl) _ _ hreach)⟩
    clear hreach hR
    induction hn with
    | here ho => exact (lookupOwn_some ho).2.1
    | up _ hs _ ih =>
      have hb := linked_parent h _ hS _ (.inl hs)
      exact ih hb (within_of_linked h _ hb)
  · obtain ⟨i, hi, ho⟩ := List.exists_of_findSome?_eq_some hR
    obtain ⟨hclass, hdecl, -⟩ := lookupOwn_some ho
    obtain ⟨k, hk, hki⟩ := (mem_searchOrder hw hfuel).mp hi
    refine ⟨hdecl, hclass ▸ linked_reaches h hS ?_⟩
    exact (ReflTransGen.mono (fun _ _ => Or.inl) _ _ hk).trans
      (ReflTransGen.mono (fun _ _ => Or.inr) _ _ hki.to_reflTransGen)

theorem not_selected (hR : ¬ Callable classes resolved symbolic) :
    ∀ x, ¬ SelectedSpecial classes accSuper method resolved symbolic x := by
  rintro x (⟨hc, -⟩ | ⟨hc, -⟩ | ⟨hc, -⟩) <;> exact hR hc

/-- A method of the classes above is what the rule selects if it is the nearest. -/
theorem runsSelected_iff {x : MethodPtr}
    (hx : ∀ y, SelectedSpecial classes accSuper method resolved symbolic y ↔ y = x) :
    RunsSelected classes accSuper method resolved symbolic (callCandidate classes y) ↔ y = x := by
  constructor
  · rintro (⟨z, hz, heq⟩ | ⟨hno, -⟩)
    · exact (callCandidate_inj heq).trans ((hx z).mp hz)
    · exact absurd ((hx x).mpr rfl) (hno x)
  · rintro rfl
    exact .inl ⟨y, (hx y).mpr rfl, rfl⟩

/-- Where the rule selects nothing, what the code finds must be abstract. -/
theorem runsSelected_iff_of_none
    (hno : ∀ x, ¬ SelectedSpecial classes accSuper method resolved symbolic x) :
    RunsSelected classes accSuper method resolved symbolic (callCandidate classes y) ↔
      (methodAt classes y).accessFlags.isAbstract = true := by
  rw [← callCandidate_ne_invoke]
  constructor
  · rintro (⟨z, hz, -⟩ | ⟨-, h⟩)
    · exact absurd hz (hno z)
    · exact h
  · exact fun h => .inr ⟨hno, h⟩

/-- Below the class of the resolved method, it is the nearest unless a class between redeclares it. -/
theorem nearest_eq_resolved_iff (hw : WellFormedMethods classes) (hR : Declared classes resolved)
    (hirr : ∀ c, ReflTransGen (SuperOf classes) b c → ¬ TransGen (SuperOf classes) c c)
    (hb : SuperOf classes d b) (hn : NearestDeclaration classes resolved b y)
    (hby : ReflTransGen (SuperOf classes) b y.myClass)
    (hyK : ReflTransGen (SuperOf classes) y.myClass resolved.myClass)
    (hdecl : Declared classes y) (hsig : SameSignature classes y resolved) :
    y = resolved ↔ ∀ x, Declared classes x → SameSignature classes x resolved →
      TransGen (SuperOf classes) d x.myClass →
      ¬ TransGen (SuperOf classes) x.myClass resolved.myClass := by
  constructor
  · rintro rfl x hx hxsig hdx hxy
    have hbx : ReflTransGen (SuperOf classes) b x.myClass := by
      obtain ⟨b', hb', hbx⟩ := TransGen.head'_iff.mp hdx
      exact (Option.some.inj (hb.symm.trans hb')) ▸ hbx
    have ho := (lookupOwn_iff hw hR hxy.to_reflTransGen).mpr ⟨rfl, hx, hxsig⟩
    exact hirr _ hbx (hxy.trans_left (nearest_before hn hbx ho))
  · intro hno
    rcases reflTransGen_iff_eq_or_transGen.mp hyK with heq | hyK
    · exact hw.distinct hdecl hR heq.symm hsig
    · exact absurd hyK (hno y hdecl hsig (.head' hb hby))

section

variable (hcall : Callable classes resolved symbolic)

include hcall

theorem selected_resolved (hla : ¬ LooksAbove classes accSuper method resolved symbolic) :
    SelectedSpecial classes accSuper method resolved symbolic y ↔ y = resolved := by
  constructor
  · rintro (- | ⟨-, hla', -⟩ | ⟨-, hla', -⟩)
    · rfl
    · exact absurd hla' hla
    · exact absurd hla' hla
  · rintro rfl
    exact .resolved hcall hla

variable (hla : LooksAbove classes accSuper method resolved symbolic)
  (hb : SuperOf classes method.myClass b)

include hla hb

theorem selected_nearest (hw : WellFormedMethods classes)
    (hx : NearestInstance classes resolved b x) :
    SelectedSpecial classes accSuper method resolved symbolic y ↔ y = x := by
  constructor
  · rintro (⟨-, hla'⟩ | ⟨-, -, hb', hy⟩ | ⟨-, -, hb', hno, -⟩)
    · exact absurd hla hla'
    · exact hx.unique hw (Option.some.inj (hb.symm.trans hb') ▸ hy)
    · exact absurd hx (Option.some.inj (hb.symm.trans hb') ▸ hno x)
  · rintro rfl
    exact .nearest hcall hla hb hx

theorem selected_default (hno : ∀ x, ¬ NearestInstance classes resolved b x) :
    SelectedSpecial classes accSuper method resolved symbolic y ↔
      DefaultFor classes resolved b y ∧ ∀ z, DefaultFor classes resolved b z → z = y := by
  constructor
  · rintro (⟨-, hla'⟩ | ⟨-, -, hb', hy⟩ | ⟨-, -, hb', -, hd, hu⟩)
    · exact absurd hla hla'
    · exact absurd (Option.some.inj (hb.symm.trans hb') ▸ hy) (hno y)
    · exact Option.some.inj (hb.symm.trans hb') ▸ ⟨hd, hu⟩
  · rintro ⟨hd, hu⟩
    exact .default hcall hla hb hno hd hu

/-- Where the resolved method is called though the lookup starts above the current class. -/
theorem runsSelected_kept (hw : WellFormedMethods classes) :
    RunsSelected classes accSuper method resolved symbolic (callCandidate classes resolved) ↔
      (∀ x, NearestInstance classes resolved b x → x = resolved) ∧
      ((∀ x, ¬ NearestInstance classes resolved b x) →
        (DefaultFor classes resolved b resolved ∧
          ∀ y, DefaultFor classes resolved b y → y = resolved) ∨
        (¬ ∃! y, DefaultFor classes resolved b y) ∧
          (methodAt classes resolved).accessFlags.isAbstract = true) := by
  by_cases hx : ∃ x, NearestInstance classes resolved b x
  · obtain ⟨x, hx⟩ := hx
    rw [runsSelected_iff fun y => selected_nearest hcall hla hb hw hx]
    constructor
    · rintro rfl
      exact ⟨fun y hy => hx.unique hw hy, fun hno => absurd hx (hno _)⟩
    · exact fun h => (h.1 x hx).symm
  have hno := not_exists.mp hx
  have hsel := fun y => @selected_default _ _ _ _ _ _ y hcall hla hb hno
  by_cases hd : ∃! y, DefaultFor classes resolved b y
  · obtain ⟨y, hy, hu⟩ := hd
    have hiff : ∀ z, SelectedSpecial classes accSuper method resolved symbolic z ↔ z = y :=
      fun z => (hsel z).trans ⟨fun h => hu z h.1, fun h => h ▸ ⟨hy, hu⟩⟩
    rw [runsSelected_iff hiff]
    constructor
    · rintro rfl
      exact ⟨fun x hx => absurd hx (hno x), fun _ => .inl ⟨hy, hu⟩⟩
    · intro h
      rcases h.2 hno with h | h
      · exact hu _ h.1
      · exact absurd ⟨y, hy, hu⟩ h.1
  · have hnone : ∀ y, ¬ SelectedSpecial classes accSuper method resolved symbolic y :=
      fun y hy => hd ⟨y, (hsel y).mp hy⟩
    rw [runsSelected_iff_of_none hnone]
    constructor
    · exact fun h => ⟨fun x hx => absurd hx (hno x), fun _ => .inr ⟨hd, h⟩⟩
    · intro h
      rcases h.2 hno with h | h
      · exact absurd ⟨resolved, h⟩ hd
      · exact h.2

end

theorem superOf_irrefl (h : Linked classes linked t) (hc : c ∈ linked) :
    ¬ TransGen (SuperOf classes) c c :=
  ((within_of_linked h c hc).of_imp fun _ _ => Or.inl).irrefl

/-- `invokespecial` calls the method that the rule selects if and only if the rule selects none and
what is found is abstract; or it selects the resolved method, and no class between redeclares this;
or it looks above the current class, and what is declared nearest there is an instance method, or,
where the code does not look above, no method but the resolved one can be selected there. -/
theorem invokespecial_selects_iff (hw : WellFormedMethods classes) (h : Linked classes linked t)
    (hfuel : linked.length ≤ fuel) (hD : method.myClass ∈ linked) (hS : symbolic ∈ linked)
    (hR : lookupMethod classes name descriptor fuel symbolic true true = some resolved) :
    RunsSelected classes accSuper method resolved symbolic
        (invokespecialImpl classes t fuel method (some receiver) (some resolved)) ↔
      SelectsRight classes accSuper method resolved symbolic := by
  obtain ⟨hdecl, hK⟩ := linked_resolved h hS hfuel hR
  have hkept := fun hstart => @impl_kept _ _ t receiver _ _ _ hw h hfuel hD hK hdecl hstart
  by_cases hcall : Callable classes resolved symbolic
  · by_cases hla : LooksAbove classes accSuper method resolved symbolic
    · by_cases hstart : StartsAbove classes method resolved
      · -- an instance method is found above, but a static one may come before it
        obtain ⟨b, y, hb, hbK, hn, hby, hyK, hy, hsig, himpl⟩ :=
          @impl_above _ _ t receiver _ _ _ hw h hfuel hD hK hdecl hstart
        obtain ⟨x, hx⟩ := nearestInstance_exists hdecl hcall.isStatic hbK
        rw [himpl, runsSelected_iff fun z => selected_nearest hcall hla hb hw hx]
        constructor
        · rintro rfl
          refine ⟨fun h => absurd hcall h, fun _ h => absurd hla h, fun _ _ _ b' y' hb' hy' => ?_,
            fun _ _ h => absurd hstart h⟩
          obtain rfl := hn.unique (Option.some.inj (hb.symm.trans hb') ▸ hy')
          exact hx.isStatic
        · intro hright
          have hs := hright.above hcall hla hstart b y hb hn
          exact hx.unique hw (nearestInstance_of_declaration hw hdecl hn hbK hyK hs)
      · obtain ⟨b, hb, -⟩ := TransGen.head'_iff.mp hla.superclass
        rw [hkept hstart, runsSelected_kept hcall hla hb hw]
        constructor
        · intro hright
          refine ⟨fun h => absurd hcall h, fun _ h => absurd hla h, fun _ _ h => absurd h hstart,
            fun _ _ _ b' hb' => ?_⟩
          exact Option.some.inj (hb.symm.trans hb') ▸ hright
        · exact fun hright => hright.kept hcall hla hstart b hb
    · have hsel := fun y => @selected_resolved _ accSuper symbolic method resolved y hcall hla
      by_cases hstart : StartsAbove classes method resolved
      · obtain ⟨b, y, hb, -, hn, hby, hyK, hy, hsig, himpl⟩ :=
          @impl_above _ _ t receiver _ _ _ hw h hfuel hD hK hdecl hstart
        have hirr : ∀ c, ReflTransGen (SuperOf classes) b c → ¬ TransGen (SuperOf classes) c c :=
          fun c hbc => superOf_irrefl h
            (linked_reaches h hD (ReflTransGen.mono (fun _ _ => Or.inl) _ _ (.head hb hbc)))
        rw [himpl, runsSelected_iff hsel,
          nearest_eq_resolved_iff hw hdecl hirr hb hn hby hyK hy hsig]
        constructor
        · exact fun hright => ⟨fun h => absurd hcall h, fun _ _ _ => hright,
            fun _ h => absurd h hla, fun _ h => absurd h hla⟩
        · exact fun hright => hright.redeclared hcall hla hstart
      · rw [hkept hstart, runsSelected_iff hsel]
        constructor
        · exact fun _ => ⟨fun h => absurd hcall h, fun _ _ h => absurd h hstart,
            fun _ h => absurd h hla, fun _ h => absurd h hla⟩
        · exact fun _ => rfl
  · have hnone := @not_selected _ accSuper symbolic method resolved hcall
    by_cases hstart : StartsAbove classes method resolved
    · obtain ⟨b, y, hb, -, hn, -, -, -, -, himpl⟩ :=
        @impl_above _ _ t receiver _ _ _ hw h hfuel hD hK hdecl hstart
      rw [himpl, runsSelected_iff_of_none hnone]
      constructor
      · intro habs
        refine ⟨fun _ => ⟨fun _ b' y' hb' hy' => ?_, fun h => absurd hstart h⟩,
          fun h => absurd h hcall, fun h => absurd h hcall, fun h => absurd h hcall⟩
        obtain rfl := hn.unique (Option.some.inj (hb.symm.trans hb') ▸ hy')
        exact habs
      · exact fun hright => (hright.uncallable hcall).1 hstart b y hb hn
    · rw [hkept hstart, runsSelected_iff_of_none hnone]
      constructor
      · exact fun habs => ⟨fun _ => ⟨fun h => absurd h hstart, fun _ => habs⟩,
          fun h => absurd h hcall, fun h => absurd h hcall, fun h => absurd h hcall⟩
      · exact fun hright => (hright.uncallable hcall).2 hstart

/-! ### A constructor called for an ancestor's class -/

def initMethod : Linkage.CpMethod where
  name := ['<', 'i', 'n', 'i', 't', '>']
  unparsedDescriptor := ['(', ')', 'V']

/-- `A`, its subclass `B`, and the subclass `D` of `B` with another method. -/
def ancestors : Nat → Classdesc
  | 0 => { name := ['A'], methods := [initMethod] }
  | 1 => { name := ['B'], superClass := some 0, methods := [initMethod] }
  | 2 => { name := ['D'], superClass := some 1
           methods := [initMethod, { name := ['m'], unparsedDescriptor := ['(', ')', 'V'] }] }
  | _ => default

def ancestorsTables : Tables := [0, 1, 2].foldl (linkClass ancestors) {}

theorem ancestors_linked : Linked ancestors [2, 1, 0] ancestorsTables := by
  refine .link (.link (.link .nil ?_ ?_ ?_) ?_ ?_ ?_) ?_ ?_ ?_ <;> simp [ancestors]

theorem ancestors_declared (h : Declared ancestors x) :
    x = ⟨0, 0⟩ ∨ x = ⟨1, 0⟩ ∨ x = ⟨2, 0⟩ ∨ x = ⟨2, 1⟩ := by
  obtain ⟨c, i⟩ := x
  match c with
  | 0 => exact .inl (by simpa [Declared, ancestors] using h)
  | 1 => exact .inr (.inl (by simpa [Declared, ancestors] using h))
  | 2 =>
    have hi : i < 2 := h
    rcases Nat.lt_succ_iff_lt_or_eq.mp hi with hi | rfl
    · obtain rfl := Nat.lt_one_iff.mp hi
      exact .inr (.inr (.inl rfl))
    · exact .inr (.inr (.inr rfl))
  | _ + 3 => exact absurd h (Nat.not_lt_zero _)

theorem ancestors_wellFormed : WellFormedMethods ancestors := by
  constructor
  · intro x y hx hy hxy hsig
    rcases ancestors_declared hx with rfl | rfl | rfl | rfl <;>
      rcases ancestors_declared hy with rfl | rfl | rfl | rfl <;>
      first | rfl | exact absurd hxy (by decide) | exact absurd hsig.1 (by decide)
  · intro x y hx _ hp
    rcases ancestors_declared hx with rfl | rfl | rfl | rfl <;> exact absurd hp (by decide)

/-- The constructor of `D` calls that of `B`. -/
theorem constructor_selected :
    RunsSelected ancestors (fun _ => true) ⟨2, 0⟩ ⟨1, 0⟩ 1
        (invokespecialImpl ancestors ancestorsTables 3 ⟨2, 0⟩ (some 0) (some ⟨1, 0⟩)) ∧
      invokespecialImpl ancestors ancestorsTables 3 ⟨2, 0⟩ (some 0) (some ⟨1, 0⟩) =
        .invoke ⟨1, 0⟩ := by
  have hcall : Callable ancestors ⟨1, 0⟩ 1 := ⟨rfl, fun _ => rfl⟩
  have hla : ¬ LooksAbove ancestors (fun _ => true) ⟨2, 0⟩ ⟨1, 0⟩ 1 :=
    fun h => absurd h.notInit (by decide)
  have hstart : ¬ StartsAbove ancestors ⟨2, 0⟩ ⟨1, 0⟩ := fun h => absurd h.1 (by decide)
  refine ⟨(invokespecial_selects_iff ancestors_wellFormed ancestors_linked (Nat.le_refl 3)
    (by decide) (by decide) (show lookupMethod ancestors initMethod.name
      initMethod.unparsedDescriptor 3 1 true true = some ⟨1, 0⟩ by decide)).mpr ?_, by decide⟩
  exact ⟨fun h => absurd hcall h, fun _ _ h => absurd h hstart, fun _ h => absurd h hla,
    fun _ h => absurd h hla⟩

/-- Another method of `D` makes a new `A`, and the constructor of `B` is called for it. -/
theorem ancestorConstructor_missed :
    Linked ancestors [2, 1, 0] ancestorsTables ∧ WellFormedMethods ancestors ∧
      lookupMethod ancestors initMethod.name initMethod.unparsedDescriptor 3 0 true true =
        some ⟨0, 0⟩ ∧
      invokespecialImpl ancestors ancestorsTables 3 ⟨2, 1⟩ (some 0) (some ⟨0, 0⟩) =
        .invoke ⟨1, 0⟩ ∧
      ¬ RunsSelected ancestors (fun _ => true) ⟨2, 1⟩ ⟨0, 0⟩ 0 (.invoke ⟨1, 0⟩) := by
  refine ⟨ancestors_linked, ancestors_wellFormed, by decide, by decide, ?_⟩
  have hcall : Callable ancestors ⟨0, 0⟩ 0 := ⟨rfl, fun _ => rfl⟩
  have hla : ¬ LooksAbove ancestors (fun _ => true) ⟨2, 1⟩ ⟨0, 0⟩ 0 :=
    fun h => absurd h.notInit (by decide)
  have hsel := fun y =>
    @selected_resolved ancestors (fun _ => true) 0 ⟨2, 1⟩ ⟨0, 0⟩ y hcall hla
  have hiff := @runsSelected_iff ancestors (fun _ => true) 0 ⟨2, 1⟩ ⟨0, 0⟩ ⟨1, 0⟩ ⟨0, 0⟩ hsel
  exact fun h => absurd (hiff.mp h) (by decide)

end BJvm.Interp
