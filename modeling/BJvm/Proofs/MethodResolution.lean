import BJvm.Linkage.MethodResolution
import BJvm.Graph.Preorder
import BJvm.Proofs.Vtable

/-!
# Method resolution

Resolution takes the declaration of the class or its nearest superclass, else the one maximally
specific method of the superinterfaces that is not abstract, else any of their methods that is
neither private nor static.  `method_lookup` takes the first declaration in `searchOrder`, in which
the superinterfaces are listed depth first (`lookupMethod_eq`), so it resolves the method where that
declaration suits (`resolves_iff`).
-/

namespace BJvm.Linkage

open Relation Graph

variable {classes classes' : Nat → Classdesc} {linked linked' : List Nat} {t t' : Tables}
  {name descriptor : List Char} {a b c i j n fuel : Nat} {m x y : MethodPtr} {r : Option MethodPtr}

/-! ### Resolution -/

section

variable (classes : Nat → Classdesc) (name descriptor : List Char)

/-- `i` is a direct superinterface of `c`. -/
def InterfaceOf (c i : Nat) : Prop := i ∈ (classes c).interfaces

/-- `i` is a superinterface of `c` or of a superclass. -/
def Superinterface (c i : Nat) : Prop :=
  ∃ k, ReflTransGen (SuperOf classes) c k ∧ TransGen (InterfaceOf classes) k i

/-- The method that `c` or its nearest superclass declares. -/
inductive Nearest : Nat → MethodPtr → Prop
  | here {c : Nat} {m : MethodPtr} : lookupOwn classes c name descriptor = some m → Nearest c m
  | up {c b : Nat} {m : MethodPtr} : lookupOwn classes c name descriptor = none →
      SuperOf classes c b → Nearest b m → Nearest c m

/-- A method of a superinterface that is neither private nor static. -/
def Candidate (c : Nat) (m : MethodPtr) : Prop :=
  (∃ i, Superinterface classes c i ∧ lookupOwn classes i name descriptor = some m) ∧
    (methodAt classes m).accessFlags.isPrivate = false ∧
    (methodAt classes m).accessFlags.isStatic = false

/-- No other candidate is declared in a subinterface. -/
def MaximallySpecific (c : Nat) (m : MethodPtr) : Prop :=
  Candidate classes name descriptor c m ∧
    ∀ x, Candidate classes name descriptor c x →
      ¬ TransGen (InterfaceOf classes) x.myClass m.myClass

/-- A maximally specific method that is not abstract. -/
def Default (c : Nat) (m : MethodPtr) : Prop :=
  MaximallySpecific classes name descriptor c m ∧
    (methodAt classes m).accessFlags.isAbstract = false

/-- The declaration in `c`, or that in the nearest superclass if `p` holds of it. -/
def InClasses (p : MethodPtr → Prop) (c : Nat) (m : MethodPtr) : Prop :=
  lookupOwn classes c name descriptor = some m ∨
    lookupOwn classes c name descriptor = none ∧
      ∃ b, SuperOf classes c b ∧ Nearest classes name descriptor b m ∧ p m

/-- What resolution yields for `c`, where the methods of superclasses with `p` count. -/
inductive Resolves (p : MethodPtr → Prop) (c : Nat) : Option MethodPtr → Prop
  | inClasses {m : MethodPtr} : InClasses classes name descriptor p c m → Resolves p c (some m)
  | unique {m : MethodPtr} : (∀ x, ¬ InClasses classes name descriptor p c x) →
      Default classes name descriptor c m → (∀ x, Default classes name descriptor c x → x = m) →
      Resolves p c (some m)
  | arbitrary {m : MethodPtr} : (∀ x, ¬ InClasses classes name descriptor p c x) →
      (¬ ∃! x, Default classes name descriptor c x) → Candidate classes name descriptor c m →
      Resolves p c (some m)
  | fails : (∀ x, ¬ InClasses classes name descriptor p c x) →
      (∀ x, ¬ Candidate classes name descriptor c x) → Resolves p c none

/-- For an interface, only the public instance methods of its superclass count. -/
def CountsFor (c : Nat) (m : MethodPtr) : Prop :=
  (classes c).accessFlags.isInterface = true →
    (methodAt classes m).accessFlags.isPublic = true ∧
      (methodAt classes m).accessFlags.isStatic = false

/-! ### The order of the search -/

/-- The superinterfaces of `c`, depth first, and then those of its superclasses. -/
def searchOrder : Nat → Nat → List Nat
  | 0, _ => []
  | fuel + 1, c =>
    preorder (fun k => (classes k).interfaces) (fuel + 1) c ++
      (classes c).superClass.elim [] (searchOrder fuel)

/-- The declaration is neither private nor static; and if one maximally specific method is not
abstract, then the declaration is not abstract, and no subinterface redeclares it. -/
structure Suits (c : Nat) (m : MethodPtr) : Prop where
  isPrivate : (methodAt classes m).accessFlags.isPrivate = false
  isStatic : (methodAt classes m).accessFlags.isStatic = false
  specific : (∃! x, Default classes name descriptor c x) →
    (methodAt classes m).accessFlags.isAbstract = false ∧
      ∀ x, Candidate classes name descriptor c x →
        ¬ TransGen (InterfaceOf classes) x.myClass m.myClass

/-- A class declares the method, or the first declaration in a superinterface suits. -/
def FirstSuits (fuel c : Nat) : Prop :=
  (∃ m, Nearest classes name descriptor c m) ∨
    ∀ pre i post m, searchOrder classes fuel c = pre ++ i :: post →
      (∀ j ∈ pre, lookupOwn classes j name descriptor = none) →
      lookupOwn classes i name descriptor = some m → Suits classes name descriptor c m

end

/-! ### What the search goes through -/

theorem findSome?_congr {α β : Type} {f g : α → Option β} : ∀ {l : List α}, (∀ a ∈ l, f a = g a) →
    l.findSome? f = l.findSome? g
  | [], _ => rfl
  | a :: l, h => by
    rw [List.findSome?_cons, List.findSome?_cons, h a List.mem_cons_self,
      findSome?_congr fun b hb => h b (List.mem_cons_of_mem a hb)]

/-- The superclass and the superinterfaces. -/
def Parent (classes : Nat → Classdesc) (c d : Nat) : Prop :=
  SuperOf classes c d ∨ InterfaceOf classes c d

theorem within_of_linked (h : Linked classes linked t) :
    ∀ c ∈ linked, Within (Parent classes) linked.length c := by
  induction h with
  | nil => exact fun c hc => absurd hc List.not_mem_nil
  | @link linked t cd _ _ hsuper hiface ih =>
    intro c hc
    rcases List.mem_cons.mp hc with rfl | hc
    · refine .mk fun d hd => ?_
      rcases hd with hd | hd
      · exact ih d (hsuper d hd)
      · exact ih d (hiface d hd)
    · exact (ih c hc).mono (Nat.le_succ _)

theorem Nearest.unique (h : Nearest classes name descriptor c m)
    (h' : Nearest classes name descriptor c x) : x = m := by
  induction h with
  | here ho =>
    cases h' with
    | here ho' => exact Option.some.inj (ho'.symm.trans ho)
    | up ho' _ _ => exact absurd (ho.symm.trans ho') (by simp)
  | up ho hs _ ih =>
    cases h' with
    | here ho' => exact absurd (ho.symm.trans ho') (by simp)
    | up _ hs' hn' => exact ih ((Option.some.inj (hs.symm.trans hs')) ▸ hn')

theorem nearest_iff_of_some (ho : lookupOwn classes c name descriptor = some x) :
    Nearest classes name descriptor c m ↔ x = m := by
  constructor
  · intro hn
    exact (Nearest.here ho).unique hn |>.symm
  · rintro rfl
    exact .here ho

theorem nearest_iff_of_none (ho : lookupOwn classes c name descriptor = none) :
    Nearest classes name descriptor c m ↔
      ∃ b, SuperOf classes c b ∧ Nearest classes name descriptor b m := by
  constructor
  · intro hn
    cases hn with
    | here ho' => exact absurd (ho.symm.trans ho') (by simp)
    | up _ hs hn => exact ⟨_, hs, hn⟩
  · rintro ⟨b, hs, hn⟩
    exact .up ho hs hn

/-- The loop over the superclasses finds the nearest declaration. -/
theorem searchClasses_eq_some : ∀ {fuel n c : Nat}, Within (Parent classes) n c → n ≤ fuel →
    (searchClasses classes name descriptor true fuel c = some m ↔
      Nearest classes name descriptor c m)
  | 0, _, _, h, hle => absurd (Nat.lt_of_lt_of_le h.pos hle) (Nat.lt_irrefl 0)
  | fuel + 1, _, c, .mk h, hle => by
    rw [searchClasses, if_pos rfl]
    rcases ho : lookupOwn classes c name descriptor with _ | x
    · rw [Option.none_or, nearest_iff_of_none ho, Option.bind_eq_some_iff]
      refine exists_congr fun b => and_congr_right fun hs => ?_
      exact searchClasses_eq_some (h b (.inl hs)) (Nat.le_of_succ_le_succ hle)
    · rw [Option.some_or, nearest_iff_of_some ho, Option.some.injEq]

theorem searchClasses_eq_none (h : Within (Parent classes) n c) (hle : n ≤ fuel) :
    searchClasses classes name descriptor true fuel c = none ↔
      ∀ m, ¬ Nearest classes name descriptor c m := by
  rw [Option.eq_none_iff_forall_ne_some]
  exact forall_congr' fun m => not_congr (searchClasses_eq_some h hle)

/-- The search of an interface takes the first declaration in it and what lies above. -/
theorem lookupMethod_interface : ∀ {fuel n i : Nat}, Within (Parent classes) n i → n ≤ fuel →
    lookupMethod classes name descriptor fuel i false true =
      (lookupOwn classes i name descriptor).or
        ((preorder (fun k => (classes k).interfaces) fuel i).findSome?
          (lookupOwn classes · name descriptor))
  | 0, _, _, h, hle => absurd (Nat.lt_of_lt_of_le h.pos hle) (Nat.lt_irrefl 0)
  | fuel + 1, _, i, .mk h, hle => by
    have hrec : ∀ k ∈ (classes i).interfaces,
        lookupMethod classes name descriptor fuel k false true = _ := fun k hk =>
      lookupMethod_interface (h k (.inr hk)) (Nat.le_of_succ_le_succ hle)
    rw [lookupMethod, searchClasses, findSome?_preorder, if_neg Bool.false_ne_true, if_pos rfl,
      Option.or_none, if_neg Bool.false_ne_true, Option.or_none, findSome?_congr hrec]

/-- The search takes the nearest declaration of the classes, else the first in `searchOrder`. -/
theorem lookupMethod_eq : ∀ {fuel n c : Nat}, Within (Parent classes) n c → n ≤ fuel →
    lookupMethod classes name descriptor fuel c true true =
      (searchClasses classes name descriptor true fuel c).or
        ((searchOrder classes fuel c).findSome? (lookupOwn classes · name descriptor))
  | 0, _, _, h, hle => absurd (Nat.lt_of_lt_of_le h.pos hle) (Nat.lt_irrefl 0)
  | fuel + 1, _, c, .mk h, hle => by
    have hrec : ∀ k ∈ (classes c).interfaces,
        lookupMethod classes name descriptor fuel k false true = _ := fun k hk =>
      lookupMethod_interface (h k (.inr hk)) (Nat.le_of_succ_le_succ hle)
    rw [lookupMethod, searchOrder, List.findSome?_append, findSome?_preorder, if_pos rfl,
      if_pos rfl, findSome?_congr hrec]
    -- the superclasses have been searched
    rcases hn : searchClasses classes name descriptor true (fuel + 1) c with _ | m
    · rw [Option.none_or, Option.none_or]
      congr 1
      rcases hs : (classes c).superClass with _ | b
      · rfl
      · have hnone : searchClasses classes name descriptor true fuel b = none := by
          rw [searchClasses, if_pos rfl, hs, Option.or_eq_none_iff] at hn
          exact hn.2
        rw [Option.bind_some, lookupMethod_eq (h b (.inl hs)) (Nat.le_of_succ_le_succ hle), hnone,
          Option.none_or, Option.elim_some]
    · rfl

theorem superinterface_iff : Superinterface classes c i ↔ TransGen (InterfaceOf classes) c i ∨
    ∃ b, SuperOf classes c b ∧ Superinterface classes b i := by
  constructor
  · rintro ⟨k, hck, hki⟩
    rcases ReflTransGen.cases_head hck with rfl | ⟨b, hcb, hbk⟩
    · exact .inl hki
    · exact .inr ⟨b, hcb, k, hbk, hki⟩
  · rintro (h | ⟨b, hcb, k, hbk, hki⟩)
    · exact ⟨c, .refl, h⟩
    · exact ⟨k, .head hcb hbk, hki⟩

theorem mem_searchOrder : ∀ {fuel n c : Nat}, Within (Parent classes) n c → n ≤ fuel →
    (i ∈ searchOrder classes fuel c ↔ Superinterface classes c i)
  | 0, _, _, h, hle => absurd (Nat.lt_of_lt_of_le h.pos hle) (Nat.lt_irrefl 0)
  | fuel + 1, n + 1, c, h, hle => by
    have hpre : i ∈ preorder (fun k => (classes k).interfaces) (fuel + 1) c ↔
        TransGen (InterfaceOf classes) c i :=
      mem_preorder (h.of_imp fun _ _ => Or.inr) hle
    rw [searchOrder, List.mem_append, hpre, superinterface_iff]
    refine or_congr_right ?_
    rcases hs : (classes c).superClass with _ | b
    · refine ⟨fun h => absurd h List.not_mem_nil, ?_⟩
      rintro ⟨b, hb, -⟩
      exact absurd (hs.symm.trans hb) (by simp)
    · rw [Option.elim_some, mem_searchOrder (h.child (.inl hs)) (Nat.le_of_succ_le_succ hle)]
      refine ⟨fun h => ⟨b, hs, h⟩, ?_⟩
      rintro ⟨b', hb', h⟩
      obtain rfl : b = b' := Option.some.inj (hs.symm.trans hb')
      exact h

/-! ### When the method found is the resolved one -/

theorem not_inClasses {p : MethodPtr → Prop} (h : ∀ m, ¬ Nearest classes name descriptor c m) :
    ∀ m, ¬ InClasses classes name descriptor p c m := by
  rintro m (ho | ⟨ho, b, hs, hn, -⟩)
  · exact h m (.here ho)
  · exact h m (.up ho hs hn)

theorem inClasses_true : InClasses classes name descriptor (fun _ => True) c m ↔
    Nearest classes name descriptor c m := by
  constructor
  · rintro (ho | ⟨ho, b, hs, hn, -⟩)
    · exact .here ho
    · exact .up ho hs hn
  · intro hn
    cases hn with
    | here ho => exact .inl ho
    | up ho hs hn => exact .inr ⟨ho, _, hs, hn, trivial⟩

/-- What a superinterface declares resolves the method if and only if it suits. -/
theorem resolves_some_iff {p : MethodPtr → Prop}
    (hno : ∀ x, ¬ InClasses classes name descriptor p c x) (hi : Superinterface classes c i)
    (ho : lookupOwn classes i name descriptor = some m) :
    Resolves classes name descriptor p c (some m) ↔ Suits classes name descriptor c m := by
  constructor
  · intro h
    cases h with
    | inClasses h => exact absurd h (hno m)
    | unique _ hd _ => exact ⟨hd.1.1.2.1, hd.1.1.2.2, fun _ => ⟨hd.2, hd.1.2⟩⟩
    | arbitrary _ hn hc => exact ⟨hc.2.1, hc.2.2, fun h => absurd h hn⟩
  · intro h
    have hc : Candidate classes name descriptor c m := ⟨⟨i, hi, ho⟩, h.isPrivate, h.isStatic⟩
    by_cases hd : ∃! x, Default classes name descriptor c x
    · obtain ⟨habs, hmax⟩ := h.specific hd
      have hm : Default classes name descriptor c m := ⟨⟨hc, hmax⟩, habs⟩
      exact .unique hno hm fun x hx => hd.unique hx hm
    · exact .arbitrary hno hd hc

theorem not_candidate (hw : Within (Parent classes) n c) (hle : n ≤ fuel)
    (h : (searchOrder classes fuel c).findSome? (lookupOwn classes · name descriptor) = none) :
    ∀ x, ¬ Candidate classes name descriptor c x := by
  rintro x ⟨⟨i, hi, ho⟩, -⟩
  have := List.findSome?_eq_none_iff.mp h i ((mem_searchOrder hw hle).mpr hi)
  exact absurd (ho.symm.trans this) (by simp)

/-- Where no class declares the method. -/
theorem resolves_search_iff {p : MethodPtr → Prop} (hw : Within (Parent classes) n c)
    (hle : n ≤ fuel) (hno : ∀ x, ¬ InClasses classes name descriptor p c x) :
    Resolves classes name descriptor p c
        ((searchOrder classes fuel c).findSome? (lookupOwn classes · name descriptor)) ↔
      ∀ pre i post m, searchOrder classes fuel c = pre ++ i :: post →
        (∀ j ∈ pre, lookupOwn classes j name descriptor = none) →
        lookupOwn classes i name descriptor = some m → Suits classes name descriptor c m := by
  rcases hf : (searchOrder classes fuel c).findSome? (lookupOwn classes · name descriptor) with _ | m
  · refine iff_of_true (.fails hno (not_candidate hw hle hf)) fun pre i post m heq _ ho => ?_
    have := List.findSome?_eq_none_iff.mp hf i (heq ▸ by simp)
    exact absurd (ho.symm.trans this) (by simp)
  · obtain ⟨pre, i, post, heq, ho, hpre⟩ := List.findSome?_eq_some_iff.mp hf
    have hi : Superinterface classes c i := (mem_searchOrder hw hle).mp (heq ▸ by simp)
    rw [resolves_some_iff hno hi ho]
    refine ⟨fun h pre' i' post' m' heq' hpre' ho' => ?_, fun h => h pre i post m heq hpre ho⟩
    have hm : (searchOrder classes fuel c).findSome? (lookupOwn classes · name descriptor) =
        some m' := List.findSome?_eq_some_iff.mpr ⟨pre', i', post', heq', ho', hpre'⟩
    exact (Option.some.inj (hf.symm.trans hm)) ▸ h

theorem resolves_iff_of_none {p : MethodPtr → Prop} (hw : Within (Parent classes) n c) (hle : n ≤ fuel)
    (hn : searchClasses classes name descriptor true fuel c = none) :
    Resolves classes name descriptor p c
        (lookupMethod classes name descriptor fuel c true true) ↔
      FirstSuits classes name descriptor fuel c := by
  have hno := (searchClasses_eq_none hw hle).mp hn
  rw [lookupMethod_eq hw hle, hn, Option.none_or, resolves_search_iff hw hle (not_inClasses hno),
    FirstSuits, or_iff_right (not_exists.mpr hno)]

/-- The method found resolves the reference if and only if a class declares it, or the first
declaration in a superinterface suits. -/
theorem resolves_iff (hw : Within (Parent classes) n c) (hle : n ≤ fuel) :
    Resolves classes name descriptor (fun _ => True) c
        (lookupMethod classes name descriptor fuel c true true) ↔
      FirstSuits classes name descriptor fuel c := by
  rcases hn : searchClasses classes name descriptor true fuel c with _ | m
  · exact resolves_iff_of_none hw hle hn
  · have hm := (searchClasses_eq_some hw hle).mp hn
    rw [lookupMethod_eq hw hle, hn]
    exact iff_of_true (.inClasses (inClasses_true.mpr hm)) (.inl ⟨m, hm⟩)

theorem Nearest.reaches (h : Nearest classes name descriptor c m) :
    ReflTransGen (SuperOf classes) c m.myClass := by
  induction h with
  | here ho => rw [(lookupOwn_some ho).1]
  | up _ hs _ ih => exact .head hs ih

/-- The same where only public instance methods of an interface's superclass count. -/
theorem resolves_counts_iff (hw : Within (Parent classes) n c) (hle : n ≤ fuel)
    (hdisj : ∀ i, Superinterface classes c i → ¬ TransGen (SuperOf classes) c i) :
    Resolves classes name descriptor (CountsFor classes c) c
        (lookupMethod classes name descriptor fuel c true true) ↔
      FirstSuits classes name descriptor fuel c ∧
        ∀ b m, lookupOwn classes c name descriptor = none → SuperOf classes c b →
          Nearest classes name descriptor b m → CountsFor classes c m := by
  rcases hn : searchClasses classes name descriptor true fuel c with _ | m
  · rw [resolves_iff_of_none hw hle hn]
    have hno := (searchClasses_eq_none hw hle).mp hn
    exact (and_iff_left fun b m ho hs hm => absurd (.up ho hs hm) (hno m)).symm
  · have hm := (searchClasses_eq_some hw hle).mp hn
    have hsuits : FirstSuits classes name descriptor fuel c := .inl ⟨m, hm⟩
    rw [lookupMethod_eq hw hle, hn, Option.some_or, and_iff_right hsuits]
    rcases ho : lookupOwn classes c name descriptor with _ | x
    · obtain ⟨b, hs, hbm⟩ := (nearest_iff_of_none ho).mp hm
      -- a method of a superclass is no method of a superinterface
      have hcand : ¬ Candidate classes name descriptor c m := by
        rintro ⟨⟨i, hi, hoi⟩, -⟩
        refine hdisj i hi ?_
        rw [← (lookupOwn_some hoi).1]
        exact .head' hs hbm.reaches
      refine ⟨fun h b' m' _ hs' hm' => ?_, fun h => .inClasses (.inr ⟨ho, b, hs, hbm, ?_⟩)⟩
      · obtain rfl : b = b' := Option.some.inj (hs.symm.trans hs')
        obtain rfl := hbm.unique hm'
        cases h with
        | inClasses h =>
          rcases h with h | ⟨-, -, -, -, h⟩
          · exact absurd (ho.symm.trans h) (by simp)
          · exact h
        | unique _ hd _ => exact absurd hd.1.1 hcand
        | arbitrary _ _ hc => exact absurd hc hcand
      · exact h b m rfl hs hbm
    · obtain rfl := (nearest_iff_of_some ho).mp hm
      exact iff_of_true (.inClasses (.inl ho)) fun b m' h => by cases h

/-! ### The order of the interface lists -/

/-- The same classes, but for the order in which interfaces are listed. -/
def SameButOrder (classes classes' : Nat → Classdesc) : Prop :=
  ∀ c, ∃ l, l.Perm (classes c).interfaces ∧ classes' c = { classes c with interfaces := l }

namespace SameButOrder

theorem own (h : SameButOrder classes classes') : lookupOwn classes' = lookupOwn classes := by
  funext c name descriptor
  obtain ⟨l, -, hc⟩ := h c
  rw [lookupOwn, lookupOwn, hc]

theorem methodAt (h : SameButOrder classes classes') :
    Linkage.methodAt classes' = Linkage.methodAt classes := by
  funext m
  obtain ⟨l, -, hc⟩ := h m.myClass
  rw [Linkage.methodAt, Linkage.methodAt, hc]

theorem superOf (h : SameButOrder classes classes') : SuperOf classes' = SuperOf classes := by
  funext c b
  obtain ⟨l, -, hc⟩ := h c
  rw [SuperOf, SuperOf, hc]

theorem interfaceOf (h : SameButOrder classes classes') :
    InterfaceOf classes' = InterfaceOf classes := by
  funext c i
  obtain ⟨l, hl, hc⟩ := h c
  rw [InterfaceOf, InterfaceOf, hc, eq_iff_iff]
  exact hl.mem_iff

theorem nearest (h : SameButOrder classes classes') (hn : Nearest classes' name descriptor c m) :
    Nearest classes name descriptor c m := by
  induction hn with
  | here ho => exact .here (h.own ▸ ho)
  | up ho hs _ ih => exact .up (h.own ▸ ho) (h.superOf ▸ hs) ih

theorem symm (h : SameButOrder classes classes') : SameButOrder classes' classes := fun c => by
  obtain ⟨l, hl, hc⟩ := h c
  refine ⟨(classes c).interfaces, ?_, ?_⟩
  · rw [hc]
    exact hl.symm
  · rw [hc]

theorem inClasses (h : SameButOrder classes classes') {p : MethodPtr → Prop} :
    InClasses classes' name descriptor p c m ↔ InClasses classes name descriptor p c m := by
  have hn : ∀ b, Nearest classes' name descriptor b m ↔ Nearest classes name descriptor b m :=
    fun b => ⟨h.nearest, h.symm.nearest⟩
  simp only [InClasses, h.own, h.superOf, hn]

theorem candidate (h : SameButOrder classes classes') :
    Candidate classes' name descriptor = Candidate classes name descriptor := by
  funext c m
  simp only [Candidate, Superinterface, h.own, h.superOf, h.interfaceOf, h.methodAt]

theorem default (h : SameButOrder classes classes') :
    Default classes' name descriptor = Default classes name descriptor := by
  funext c m
  simp only [Default, MaximallySpecific, h.candidate, h.interfaceOf, h.methodAt]

/-- What resolution yields does not depend on the order. -/
theorem resolves (h : SameButOrder classes classes') {p : MethodPtr → Prop}
    (hr : Resolves classes' name descriptor p c r) : Resolves classes name descriptor p c r := by
  have hno : (∀ x, ¬ InClasses classes' name descriptor p c x) →
      ∀ x, ¬ InClasses classes name descriptor p c x := fun hno x hx => hno x (h.inClasses.mpr hx)
  cases hr with
  | inClasses hm => exact .inClasses (h.inClasses.mp hm)
  | unique hn hd hu => exact .unique (hno hn) (h.default ▸ hd) (h.default ▸ hu)
  | arbitrary hn hd hc => exact .arbitrary (hno hn) (h.default ▸ hd) (h.candidate ▸ hc)
  | fails hn hc => exact .fails (hno hn) (h.candidate ▸ hc)

end SameButOrder

/-- `method_lookup` finds what resolution yields if and only if a class declares the method or the
first declaration in a superinterface suits; where only the public instance methods count that an
interface has from its superclass, it must not find another there either.  Where it does, and
resolution yields one thing only, the order of the interface lists makes no difference. -/
theorem lookupMethod_resolves_iff (h : Linked classes linked t) (hc : c ∈ linked)
    (hfuel : linked.length ≤ fuel) :
    (Resolves classes name descriptor (fun _ => True) c
        (lookupMethod classes name descriptor fuel c true true) ↔
      FirstSuits classes name descriptor fuel c) ∧
    ((∀ i, Superinterface classes c i → ¬ TransGen (SuperOf classes) c i) →
      (Resolves classes name descriptor (CountsFor classes c) c
          (lookupMethod classes name descriptor fuel c true true) ↔
        FirstSuits classes name descriptor fuel c ∧
          ∀ b m, lookupOwn classes c name descriptor = none → SuperOf classes c b →
            Nearest classes name descriptor b m → CountsFor classes c m)) ∧
    ∀ classes' linked' t', Linked classes' linked' t' → c ∈ linked' → linked'.length ≤ fuel →
      SameButOrder classes classes' → FirstSuits classes name descriptor fuel c →
      FirstSuits classes' name descriptor fuel c →
      (∀ r r', Resolves classes name descriptor (fun _ => True) c r →
        Resolves classes name descriptor (fun _ => True) c r' → r = r') →
      lookupMethod classes' name descriptor fuel c true true =
        lookupMethod classes name descriptor fuel c true true := by
  have hw := within_of_linked h c hc
  refine ⟨resolves_iff hw hfuel, resolves_counts_iff hw hfuel, ?_⟩
  intro classes' linked' t' h' hc' hfuel' hsame hsuits hsuits' hunique
  have hr' := (resolves_iff (within_of_linked h' c hc') hfuel').mpr hsuits'
  exact hunique _ _ (hsame.resolves hr') ((resolves_iff hw hfuel).mpr hsuits)

/-! ### A method that a subinterface redeclares -/

def defaultMethod : CpMethod where
  name := ['m']
  unparsedDescriptor := ['(', ')', 'V']
  accessFlags := { isPublic := true }

/-- `Object`, an interface, its subinterface, which redeclares its method, and a class with the
given superinterfaces. -/
def implementing (interfaces : List Nat) : Nat → Classdesc
  | 0 => { name := ['O'] }
  | 1 =>
    { name := ['I'], accessFlags := { isInterface := true }, superClass := some 0
      methods := [defaultMethod] }
  | 2 =>
    { name := ['J'], accessFlags := { isInterface := true }, superClass := some 0
      interfaces := [1], methods := [defaultMethod] }
  | _ => { name := ['C'], superClass := some 0, interfaces }

theorem implementing_linked {interfaces : List Nat} (h : ∀ i ∈ interfaces, i = 1 ∨ i = 2) :
    ∃ t, Linked (implementing interfaces) [3, 2, 1, 0] t := by
  have hobject : ∀ {n : Nat} {linked : List Nat}, 0 ∈ linked →
      (implementing interfaces n).superClass = none ∨
        (implementing interfaces n).superClass = some 0 →
      ∀ super, (implementing interfaces n).superClass = some super → super ∈ linked := by
    rintro n linked hmem (hs | hs) super heq
    · exact absurd (hs.symm.trans heq) (by simp)
    · exact (Option.some.inj (hs.symm.trans heq)) ▸ hmem
  refine ⟨_, .link (.link (.link (.link .nil (by decide) (fun _ h => by cases h)
    (fun _ h => absurd h List.not_mem_nil)) (by decide) (hobject (by decide) (.inr rfl))
    (fun _ h => absurd h List.not_mem_nil)) (by decide) (hobject (by decide) (.inr rfl))
    fun i hi => ?_) (by decide) (hobject (by decide) (.inr rfl)) fun i hi => ?_⟩
  · exact (show ∀ i ∈ [1], i ∈ [1, 0] by decide) i hi
  rcases h i hi with rfl | rfl <;> decide

/-- The method of the subinterface is the one maximally specific method. -/
theorem implementing_default {interfaces : List Nat} (h : ∀ i ∈ interfaces, i = 1 ∨ i = 2)
    (hj : 2 ∈ interfaces) :
    Default (implementing interfaces) ['m'] ['(', ')', 'V'] 3 { myClass := 2, myIndex := 0 } ∧
      ∀ x, Default (implementing interfaces) ['m'] ['(', ')', 'V'] 3 x →
        x = { myClass := 2, myIndex := 0 } := by
  have hextends : TransGen (InterfaceOf (implementing interfaces)) 2 1 :=
    .single (show 1 ∈ [1] by decide)
  have hnone : ∀ i, ¬ TransGen (InterfaceOf (implementing interfaces)) 1 i := fun i hi => by
    obtain ⟨k, hk, -⟩ := TransGen.head'_iff.mp hi
    exact absurd (show k ∈ [] from hk) List.not_mem_nil
  have htwo : ∀ i, TransGen (InterfaceOf (implementing interfaces)) 2 i → i = 1 := fun i hi => by
    obtain ⟨k, hk, hki⟩ := TransGen.head'_iff.mp hi
    obtain rfl : k = 1 := by simpa using (show k ∈ [1] from hk)
    rcases reflTransGen_iff_eq_or_transGen.mp hki with heq | hki
    · exact heq
    · exact absurd hki (hnone i)
  have hcand : Candidate (implementing interfaces) ['m'] ['(', ')', 'V'] 3
      { myClass := 2, myIndex := 0 } :=
    ⟨⟨2, ⟨3, .refl, .single hj⟩, by rfl⟩, rfl, rfl⟩
  have hcases : ∀ x, Candidate (implementing interfaces) ['m'] ['(', ')', 'V'] 3 x →
      x = { myClass := 1, myIndex := 0 } ∨ x = { myClass := 2, myIndex := 0 } := by
    rintro x ⟨⟨i, hi, ho⟩, -⟩
    have hi : i = 1 ∨ i = 2 := by
      rcases superinterface_iff.mp hi with hi | ⟨b, hb, hi⟩
      · obtain ⟨k, hk, hki⟩ := TransGen.head'_iff.mp hi
        rcases reflTransGen_iff_eq_or_transGen.mp hki with rfl | hki
        · exact h i hk
        rcases h k hk with rfl | rfl
        · exact absurd hki (hnone i)
        · exact .inl (htwo i hki)
      · -- `Object` has no superinterfaces
        obtain rfl : b = 0 := (Option.some.inj (show some 0 = some b from hb)).symm
        obtain ⟨k, hk, hki⟩ := hi
        rcases ReflTransGen.cases_head hk with rfl | ⟨b, hb, -⟩
        · obtain ⟨j, hj, -⟩ := TransGen.head'_iff.mp hki
          exact absurd (show j ∈ [] from hj) List.not_mem_nil
        · exact absurd (show none = some b from hb) (by simp)
    rcases hi with rfl | rfl
    · exact .inl (Option.some.inj (ho.symm.trans (by rfl)))
    · exact .inr (Option.some.inj (ho.symm.trans (by rfl)))
  refine ⟨⟨⟨hcand, fun x hx ht => ?_⟩, rfl⟩, fun x hx => ?_⟩
  · rcases hcases x hx with rfl | rfl
    · exact hnone _ ht
    · exact absurd (htwo _ ht) (by decide)
  · rcases hcases x hx.1.1 with rfl | rfl
    · exact absurd hextends (hx.1.2 _ hcand)
    · rfl

/-- With the subinterface listed, its method is found in any order of the lists. -/
theorem subinterface_resolves :
    Resolves (implementing [2]) ['m'] ['(', ')', 'V'] (fun _ => True) 3
        (lookupMethod (implementing [2]) ['m'] ['(', ')', 'V'] 4 3 true true) ∧
      lookupMethod (implementing [2]) ['m'] ['(', ')', 'V'] 4 3 true true =
        some { myClass := 2, myIndex := 0 } := by
  obtain ⟨t, ht⟩ := @implementing_linked [2] (by decide)
  obtain ⟨hd, hu⟩ := @implementing_default [2] (by decide) (by decide)
  refine ⟨(lookupMethod_resolves_iff ht (by decide) (Nat.le_refl 4)).1.mpr (.inr ?_), by decide⟩
  intro pre i post m heq hpre ho
  have horder : searchOrder (implementing [2]) 4 3 = [2, 1] := by decide
  rw [horder] at heq
  rcases pre with _ | ⟨j, pre⟩
  · obtain ⟨rfl, -⟩ := List.cons.inj heq
    obtain rfl : m = { myClass := 2, myIndex := 0 } := Option.some.inj (ho.symm.trans (by rfl))
    exact ⟨rfl, rfl, fun _ => ⟨rfl, hd.1.2⟩⟩
  · obtain ⟨rfl, -⟩ := List.cons.inj heq
    exact absurd (hpre 2 List.mem_cons_self) (by decide)

/-- With the interface listed before its subinterface, the method that this redeclares is found; in
the other order it is not. -/
theorem redeclared_found :
    (∃ t, Linked (implementing [1, 2]) [3, 2, 1, 0] t) ∧
      lookupMethod (implementing [1, 2]) ['m'] ['(', ')', 'V'] 4 3 true true =
        some { myClass := 1, myIndex := 0 } ∧
      lookupMethod (implementing [2, 1]) ['m'] ['(', ')', 'V'] 4 3 true true =
        some { myClass := 2, myIndex := 0 } ∧
      ¬ Resolves (implementing [1, 2]) ['m'] ['(', ')', 'V'] (fun _ => True) 3
        (some { myClass := 1, myIndex := 0 }) := by
  obtain ⟨t, ht⟩ := @implementing_linked [1, 2] (by decide)
  obtain ⟨hd, hu⟩ := @implementing_default [1, 2] (by decide) (by decide)
  refine ⟨⟨t, ht⟩, by decide, by decide, fun hr => ?_⟩
  have hno : ∀ x, ¬ InClasses (implementing [1, 2]) ['m'] ['(', ')', 'V'] (fun _ => True) 3 x :=
    not_inClasses ((searchClasses_eq_none (within_of_linked ht 3 (by decide)) (Nat.le_refl 4)).mp
      (by decide))
  have hi : Superinterface (implementing [1, 2]) 3 1 := ⟨3, .refl, .single (show 1 ∈ [1, 2] by decide)⟩
  have hsuits := (resolves_some_iff hno hi (by rfl)).mp hr
  exact (hsuits.specific ⟨_, hd, hu⟩).2 _ hd.1.1 (.single (show 1 ∈ [1] by decide))

end BJvm.Linkage
